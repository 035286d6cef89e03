import CodiusSandbox.JsonDecode
import CodiusSandbox.JsonEmitter
/-!
# What `json_stringify` writes

A value is written when its strings are UTF-8, and otherwise an `assert` fails (`Writes`). The text is the
text of the value as far as `sprintf` keeps its numbers (`Json.rounded`), but for one character: `emit_string`
has `c < 0x1F` where `parse_string` has `c <= 0x1F`, and a U+001F is written as it is.
-/
namespace CodiusSandbox

open JsonGrammar

/-! ## Strings and numbers of a value -/

mutual

/-- The strings of a value and the keys. -/
def Json.strings : Json → List Str
  | .null => []
  | .bool _ => []
  | .string s => [s]
  | .number _ => []
  | .array elements => Json.elementStrings elements
  | .object members => Json.memberStrings members

def Json.elementStrings : List Json → List Str
  | [] => []
  | v :: elements => v.strings ++ Json.elementStrings elements

def Json.memberStrings : List (Str × Json) → List Str
  | [] => []
  | (key, v) :: members => key :: (v.strings ++ Json.memberStrings members)

end

namespace JsonText

open Classical in
/-- A number as it is read back: infinities and NaN are written as `null`. -/
noncomputable def roundNumber (lib : NumberLib) (num : Word) : Json :=
  if Number (lib.sprintf16g num) then .number (lib.strtod (lib.sprintf16g num)) else .null

mutual

noncomputable def rounded (lib : NumberLib) : Json → Json
  | .null => .null
  | .bool b => .bool b
  | .string s => .string s
  | .number num => roundNumber lib num
  | .array elements => .array (roundedElements lib elements)
  | .object members => .object (roundedMembers lib members)

noncomputable def roundedElements (lib : NumberLib) : List Json → List Json
  | [] => []
  | v :: elements => rounded lib v :: roundedElements lib elements

noncomputable def roundedMembers (lib : NumberLib) : List (Str × Json) → List (Str × Json)
  | [] => []
  | (key, v) :: members => (key, rounded lib v) :: roundedMembers lib members

end

open String (utf8EncodeChar)
open Utf8

section
variable {f g : SB → Except ScanFault SB} {a b : List Str} {G H : Str → Prop} {text : Str} {lib : NumberLib}
  {plain : Prop}

/-! ## Appending, or failing -/

/-- On a valid buffer an `assert` of `f` fails. -/
def Fails (f : SB → Except ScanFault SB) : Prop := ∀ sb : SB, sb.Valid → f sb = .error .assertion

theorem Fails.bind (hf : Fails f) (g : SB → Except ScanFault SB) : Fails fun sb => f sb >>= g := by
  intro sb hsb
  dsimp only
  rw [hf sb hsb]
  rfl

theorem Appends.fails (hf : Appends f text) (hg : Fails g) : Fails fun sb => f sb >>= g := by
  intro sb hsb
  obtain ⟨sb', hrun, -, hsb'⟩ := hf sb hsb
  dsimp only
  rw [hrun]
  exact hg sb' hsb'

/-- U+001F, which `emit_string` does not escape. -/
abbrev unitSeparator : UInt8 := 0x1F

/-- `f` writes something with these strings. Where the indentation is `plain`, the text has a U+001F only from them,
and is in `G` without. -/
structure Writes (plain : Prop) (f : SB → Except ScanFault SB) (strings : List Str) (G : Str → Prop) : Prop where
  text : (∀ s ∈ strings, IsUtf8 s) → ∃ text, Appends f text ∧ 0 ∉ text ∧ (plain →
    (unitSeparator ∈ text ↔ ∃ s ∈ strings, unitSeparator ∈ s) ∧ ((∀ s ∈ strings, unitSeparator ∉ s) → G text))
  fails : (∃ s ∈ strings, ¬ IsUtf8 s) → Fails f

theorem Writes.mono (h : Writes plain f a G) (hab : a = b) (hG : ∀ text, G text → H text) : Writes plain f b H := by
  subst hab
  refine ⟨fun ha => ?_, h.fails⟩
  obtain ⟨text, happ, h0, hplain⟩ := h.text ha
  exact ⟨text, happ, h0, fun hp => ⟨(hplain hp).1, fun hs => hG text ((hplain hp).2 hs)⟩⟩

theorem Writes.bind (hf : Writes plain f a G) (hg : Writes plain g b H) :
    Writes plain (fun sb => f sb >>= g) (a ++ b) fun text => ∃ t u, G t ∧ H u ∧ text = t ++ u := by
  constructor
  · intro hs
    obtain ⟨t, ht, ht0, htplain⟩ := hf.text fun s h => hs s (List.mem_append_left b h)
    obtain ⟨u, hu, hu0, huplain⟩ := hg.text fun s h => hs s (List.mem_append_right a h)
    refine ⟨t ++ u, ht.bind hu, by simp [ht0, hu0], fun hp => ?_⟩
    obtain ⟨htunit, htG⟩ := htplain hp
    obtain ⟨huunit, huH⟩ := huplain hp
    refine ⟨?_, fun hclean => ⟨t, u, ?_, ?_, rfl⟩⟩
    · simp only [List.mem_append, htunit, huunit, or_and_right, exists_or]
    · exact htG fun s h => hclean s (List.mem_append_left b h)
    · exact huH fun s h => hclean s (List.mem_append_right a h)
  · rintro ⟨s, hs, hbad⟩
    by_cases ha : ∀ s ∈ a, IsUtf8 s
    · obtain ⟨t, ht, -⟩ := hf.text ha
      have hsb : s ∈ b := (List.mem_append.1 hs).resolve_left fun h => hbad (ha s h)
      exact ht.fails (hg.fails ⟨s, hsb, hbad⟩)
    · refine (hf.fails ?_).bind g
      simpa using ha

/-- What has no strings is written. -/
theorem Appends.writes_of (hf : Appends f text) (h0 : 0 ∉ text) (hplain : plain → Printed text ∧ G text) :
    Writes plain f [] G :=
  ⟨fun _ => ⟨text, hf, h0, fun hp => ⟨by simp [(hplain hp).1.not_mem (b := unitSeparator) (by decide) (by decide)],
    fun _ => (hplain hp).2⟩⟩, by simp⟩

theorem Appends.writes (hf : Appends f text) (hp : Printed text) (hG : G text) : Writes plain f [] G :=
  hf.writes_of hp.noNul fun _ => ⟨hp, hG⟩

/-! ## Characters -/

/-- The bytes that `emit_string` writes with a backslash and one character more. -/
def shortEscapes : List (UInt8 × UInt8) :=
  [(quote, quote), (backslash, backslash), (8, 98), (12, 102), (10, 110), (13, 114), (9, 116)]

theorem escaped_shortEscapes {b e : UInt8} (h : (b, e) ∈ shortEscapes) : escaped e = some b ∧ b.toNat ≤ 0x7F ∧ b ≠ unitSeparator := by
  simp only [shortEscapes, List.mem_cons, Prod.mk.injEq, List.not_mem_nil, or_false] at h
  rcases h with ⟨rfl, rfl⟩ | ⟨rfl, rfl⟩ | ⟨rfl, rfl⟩ | ⟨rfl, rfl⟩ | ⟨rfl, rfl⟩ | ⟨rfl, rfl⟩ | ⟨rfl, rfl⟩ <;> decide

theorem emitCharacter_short {b e : UInt8} (h : (b, e) ∈ shortEscapes) (escapeUnicode : Bool) (s : Str) (sb : SB) :
    emitCharacter escapeUnicode (b :: s) sb = (sb.pushAll [backslash, e] >>= fun sb => .ok (s, sb)) := by
  simp only [shortEscapes, List.mem_cons, Prod.mk.injEq, List.not_mem_nil, or_false] at h
  rcases h with ⟨rfl, rfl⟩ | ⟨rfl, rfl⟩ | ⟨rfl, rfl⟩ | ⟨rfl, rfl⟩ | ⟨rfl, rfl⟩ | ⟨rfl, rfl⟩ | ⟨rfl, rfl⟩ <;> rfl

/-- The default case of the `switch`. -/
theorem emitCharacter_default {b : UInt8} (h : ∀ e, (b, e) ∉ shortEscapes) (escapeUnicode : Bool) (s : Str) (sb : SB) :
    emitCharacter escapeUnicode (b :: s) sb = (utf8ValidateCz (b :: s) >>= fun len =>
      if len = 0 then .error .assertion
      else if b < 0x1F ∨ (0x80 ≤ b ∧ escapeUnicode = true) then
        utf8ReadChar (b :: s) >>= fun r =>
          if r.1 ≤ 0xFFFF then
            sb.pushAll (backslash :: 117 :: writeHex16 r.1) >>= fun sb => .ok ((b :: s).drop r.2, sb)
          else
            toSurrogatePair r.1 >>= fun p =>
              sb.pushAll (backslash :: 117 :: (writeHex16 p.1 ++ backslash :: 117 :: writeHex16 p.2)) >>= fun sb =>
                .ok ((b :: s).drop r.2, sb)
      else sb.pushAll ((b :: s).take len) >>= fun sb => .ok ((b :: s).drop len, sb)) := by
  have hne (k e : UInt8) (hk : (k, e) ∈ shortEscapes) : b ≠ k := by
    rintro rfl
    exact h e hk
  have hquote := hne quote quote (by decide)
  have hslash := hne backslash backslash (by decide)
  have h8 := hne 8 98 (by decide)
  have h12 := hne 12 102 (by decide)
  have h10 := hne 10 110 (by decide)
  have h13 := hne 13 114 (by decide)
  have h9 := hne 9 116 (by decide)
  rw [emitCharacter, byteAt_cons_zero]
  simp only [bind, Except.bind, if_neg hquote, if_neg hslash, if_neg h8, if_neg h12, if_neg h10, if_neg h13, if_neg h9]
  rfl

/-- What `emit_string` writes for a character. -/
def Emits (c : Char) (u : Str) : Prop :=
  (utf8EncodeChar c = [unitSeparator] ∧ u = [unitSeparator]) ∨ (unitSeparator ∉ utf8EncodeChar c ∧ Piece u (utf8EncodeChar c))

theorem unitSeparator_notMem {c : Char} {b : UInt8} {inside : Str} (h : utf8EncodeChar c = b :: inside)
    (hb : b ≠ unitSeparator) : unitSeparator ∉ utf8EncodeChar c := by
  intro hmem
  by_cases hascii : c.toNat ≤ 0x7F
  · rw [utf8EncodeChar_ascii hascii] at h hmem
    obtain rfl := (List.cons.inj h).1
    exact hb (List.mem_singleton.1 hmem).symm
  · have hle := le_of_mem_utf8EncodeChar (n := 0x80) (by decide) (by omega) _ hmem
    exact absurd hle (by decide)

theorem unicode_char (c : Char) (hc : c ≠ nul) : ∃ u, u.length ≤ 12 ∧ Unicode u c ∧
    ((c.toNat ≤ 0xFFFF ∧ u = backslash :: 117 :: writeHex16 c.toNat) ∨
    (¬ c.toNat ≤ 0xFFFF ∧ ∃ uc lc, toSurrogatePair c.toNat = .ok (uc, lc) ∧
      u = backslash :: 117 :: (writeHex16 uc ++ backslash :: 117 :: writeHex16 lc))) := by
  have hv := toNat_valid c
  by_cases hle : c.toNat ≤ 0xFFFF
  · have hhex : Hex (writeHex16 c.toNat) c.toNat := hex_writeHex16 (by omega)
    exact ⟨_, by simp [hhex.length_eq], .one hhex hc, .inl ⟨hle, rfl⟩⟩
  · have hpair := toSurrogatePair_eq (n := c.toNat) (by omega)
    have huc : Hex (writeHex16 (0xD800 + (c.toNat - 0x10000) / 0x400)) _ := hex_writeHex16 (by omega)
    have hlc : Hex (writeHex16 (0xDC00 + (c.toNat - 0x10000) % 0x400)) _ := hex_writeHex16 (by omega)
    refine ⟨_, ?_, .pair huc hlc (by omega) (by omega) (by omega), .inr ⟨hle, _, _, hpair, rfl⟩⟩
    simp [huc.length_eq, hlc.length_eq]

/-- A character is written in twelve bytes or less, and `emit_string` goes on behind it. -/
theorem emitCharacter_run (escapeUnicode : Bool) {c : Char} (hc : c ≠ nul) : ∃ u, u.length ≤ 12 ∧ Emits c u ∧
    ∀ (rest : Str) (sb : SB), sb.bytes.length + 12 ≤ sb.size →
      emitCharacter escapeUnicode (utf8EncodeChar c ++ rest) sb = .ok (rest, sb.with u) := by
  obtain ⟨b, inside, heq, -, -⟩ := utf8EncodeChar_eq c
  have hpush {u : Str} (hu : u.length ≤ 12) {sb : SB} (hroom : sb.bytes.length + 12 ≤ sb.size) :
      sb.pushAll u = .ok (sb.with u) := pushAll_ok (by omega)
  have hascii (hb : b.toNat ≤ 0x7F) : utf8EncodeChar c = [b] := by
    have hnat : c.toNat = b.toNat := toNat_of_ascii ((List.append_nil _).trans heq) hb
    rw [utf8EncodeChar_ascii (by omega), hnat, UInt8.ofNat_toNat]
  by_cases hshort : ∃ e, (b, e) ∈ shortEscapes
  · obtain ⟨e, he⟩ := hshort
    obtain ⟨hescaped, hle, hunit⟩ := escaped_shortEscapes he
    have hbytes := hascii hle
    refine ⟨[backslash, e], by simp, .inr ⟨unitSeparator_notMem heq hunit, ?_⟩, fun rest sb hroom => ?_⟩
    · rw [hbytes]
      exact .escape hescaped
    · rw [hbytes, List.singleton_append, emitCharacter_short he, hpush (by simp) hroom]
      rfl
  rw [not_exists] at hshort
  have hdefault (rest : Str) (sb : SB) := emitCharacter_default hshort escapeUnicode (inside ++ rest) sb
  have hsplit (rest : Str) : b :: (inside ++ rest) = utf8EncodeChar c ++ rest := by rw [heq, List.cons_append]
  simp only [hsplit, utf8ValidateCz_encode, utf8ReadChar_char] at hdefault
  have hne := length_utf8EncodeChar_ne c
  by_cases hescape : b < 0x1F ∨ (0x80 ≤ b ∧ escapeUnicode = true)
  · obtain ⟨u, hlen, hu, hcases⟩ := unicode_char c hc
    have hunit : b ≠ unitSeparator := by
      rintro rfl
      rcases hescape with h | ⟨h, -⟩ <;> exact absurd h (by decide)
    refine ⟨u, hlen, .inr ⟨unitSeparator_notMem heq hunit, .unicode hu⟩, fun rest sb hroom => ?_⟩
    rw [hdefault]
    simp only [bind, Except.bind, if_neg hne, if_pos hescape, List.drop_left]
    rcases hcases with ⟨hle, rfl⟩ | ⟨hle, uc, lc, hpair, rfl⟩
    · rw [if_pos hle, hpush hlen hroom]
    · rw [if_neg hle, hpair]
      dsimp only
      rw [hpush hlen hroom]
  · have hlen : (utf8EncodeChar c).length ≤ 12 := by
      have hfour := c.utf8Size_le_four
      rw [String.length_utf8EncodeChar]
      omega
    refine ⟨utf8EncodeChar c, hlen, ?_, fun rest sb hroom => ?_⟩
    · by_cases hunit : b = unitSeparator
      · subst hunit
        have hnat := hascii (by decide)
        exact .inl ⟨hnat, hnat⟩
      · refine .inr ⟨unitSeparator_notMem heq hunit, .plain ((plain_iff [] (by rw [List.append_nil, heq])).2 ⟨?_, ?_, ?_⟩)⟩
        · rw [not_or, UInt8.not_lt] at hescape
          exact UInt8.le_iff_lt_or_eq.1 hescape.1 |>.elim (fun h => h) fun h => absurd h.symm hunit
        · rintro rfl
          exact hshort quote (by decide)
        · rintro rfl
          exact hshort backslash (by decide)
    · rw [hdefault]
      simp only [bind, Except.bind, if_neg hne, if_neg hescape, List.drop_left, List.take_left]
      rw [hpush hlen hroom]

/-! ## Strings -/

theorem Emits.noNul {c : Char} {u : Str} (h : Emits c u) : 0 ∉ u := by
  rcases h with ⟨-, rfl⟩ | ⟨-, hp⟩
  · decide
  · exact hp.visible.printed.noNul

theorem Emits.unit {c : Char} {u : Str} (h : Emits c u) : unitSeparator ∈ u ↔ unitSeparator ∈ utf8EncodeChar c := by
  rcases h with ⟨hc, rfl⟩ | ⟨hc, hp⟩
  · rw [hc]
  · have hu : unitSeparator ∉ u := hp.visible.printed.not_mem (by decide) (by decide)
    simp [hu, hc]

/-- Twelve bytes for a character, the closing quote and the NUL. -/
def SB.Roomy (sb : SB) : Prop := sb.bytes.length + 13 < sb.size

theorem roomy_need {sb : SB} (h : sb.Valid) : ∃ size, sbNeed sb 14 = .ok { sb with size := size } ∧
    sb.bytes.length + 14 < size := by
  obtain ⟨size, hrun, hroom, -⟩ := sbNeed_run h 14
  exact ⟨size, hrun, hroom⟩

theorem emitStringLoop_run (escapeUnicode : Bool) {cs : List Char} (hcs : nul ∉ cs) : ∃ text, 0 ∉ text ∧
    (unitSeparator ∈ text ↔ unitSeparator ∈ encode cs) ∧ (unitSeparator ∉ encode cs → Chars text (encode cs)) ∧
    ∀ fuel sb, (encode cs).length < fuel → sb.Roomy → ∃ sb',
      emitStringLoop escapeUnicode fuel (encode cs ++ [0]) sb = .ok sb' ∧ sb'.bytes = sb.bytes ++ text ∧ sb'.Roomy := by
  induction cs with
  | nil =>
    refine ⟨[], by simp, by simp, fun _ => .nil, fun fuel sb hfuel hsb => ?_⟩
    obtain ⟨fuel, rfl⟩ : ∃ n, fuel = n + 1 := ⟨fuel - 1, by omega⟩
    exact ⟨sb, rfl, by simp, hsb⟩
  | cons c cs ih =>
    simp only [List.mem_cons, not_or] at hcs
    obtain ⟨u, hlen, hu, hchar⟩ := emitCharacter_run escapeUnicode (Ne.symm hcs.1)
    obtain ⟨text, h0, hunit, htext, hloop⟩ := ih hcs.2
    refine ⟨u ++ text, by simp [h0, hu.noNul], by simp [hunit, hu.unit], fun hclean => ?_, fun fuel sb hfuel hsb => ?_⟩
    · rw [encode_cons, List.mem_append, not_or] at hclean
      rcases hu with ⟨hc, -⟩ | ⟨-, hp⟩
      · exact absurd (by simp [hc]) hclean.1
      · exact .cons hp (htext hclean.2)
    · have hne := length_utf8EncodeChar_ne c
      rw [encode_cons, List.length_append] at hfuel
      obtain ⟨fuel, rfl⟩ : ∃ n, fuel = n + 1 := ⟨fuel - 1, by omega⟩
      have hsb' : sb.bytes.length + 13 < sb.size := hsb
      have hvalid : (sb.with u).Valid := by
        refine ⟨?_, ?_⟩ <;> simp only [SB.with, List.length_append] <;> omega
      obtain ⟨size, hneed, hroom⟩ := roomy_need hvalid
      obtain ⟨sb', hrun, hbytes, hroomy⟩ := hloop fuel ⟨(sb.with u).bytes, size⟩ (by omega) (by unfold SB.Roomy; dsimp only; omega)
      refine ⟨sb', ?_, by rw [hbytes]; simp [SB.with], hroomy⟩
      obtain ⟨b, inside, heq, hb, -⟩ := utf8EncodeChar_eq c
      have hb : b ≠ 0 := by
        rintro rfl
        exact hcs.1 (zero_mem_utf8EncodeChar_iff.1 (by simp [heq])).symm
      rw [emitStringLoop, encode_cons, List.append_assoc]
      have hfirst : byteAt (utf8EncodeChar c ++ (encode cs ++ [0])) 0 = .ok b := by rw [heq]; rfl
      simp only [bind, Except.bind, hfirst, if_neg hb, hchar _ _ (by omega : sb.bytes.length + 12 ≤ sb.size), hneed]
      exact hrun

/-- `emit_string` writes a string that is UTF-8, and its `assert` fails on every other. -/
theorem writes_emitStringWith (plain : Prop) (escapeUnicode : Bool) {s : Str} (h0 : 0 ∉ s) :
    Writes plain (fun sb => emitStringWith escapeUnicode sb s) [s] fun text => ∃ chars, Chars chars s ∧ text = quote :: (chars ++ [quote]) := by
  obtain ⟨b, hrun, hb⟩ := utf8Validate_run h0 []
  refine ⟨fun hs => ?_, fun hs => ?_⟩
  · obtain ⟨cs, rfl⟩ := hs s (by simp)
    have hvalid := hb.2 ⟨cs, rfl⟩
    rw [zero_mem_encode_iff] at h0
    obtain ⟨text, hnul, hunit, htext, hloop⟩ := emitStringLoop_run escapeUnicode h0
    have hquote : (0 : UInt8) ≠ quote ∧ unitSeparator ≠ quote := by decide
    refine ⟨quote :: (text ++ [quote]), fun sb hsb => ?_, by simp [hnul, hquote], fun _ => ⟨by simp [hunit, hquote],
      fun hclean => ⟨text, htext (hclean _ (by simp)), rfl⟩⟩⟩
    obtain ⟨size, hneed, hroom⟩ := roomy_need hsb
    have hopen : sb.bytes.length < size := by omega
    have hroomy : SB.Roomy ⟨sb.bytes ++ [quote], size⟩ := by
      simp only [SB.Roomy, List.length_append, List.length_singleton]
      omega
    obtain ⟨sb', hrun', hbytes, hsb'⟩ := hloop (encode cs ++ [0]).length _ (by simp) hroomy
    have hclose : sb'.bytes.length + 13 < sb'.size := hsb'
    refine ⟨⟨sb'.bytes ++ [quote], sb'.size⟩, ?_, by simp [hbytes], ?_⟩
    · dsimp only
      rw [emitStringWith]
      simp only [bind, Except.bind, hrun, if_pos hvalid, hneed, SB.push, if_pos hopen, hrun']
      exact if_pos (by omega)
    · refine ⟨?_, ?_⟩ <;> simp only [List.length_append, List.length_singleton] <;> omega
  · intro sb _
    have hbad : ¬ b = true := by
      rw [hb]
      simpa using hs
    dsimp only
    rw [emitStringWith]
    simp only [bind, Except.bind, hrun, if_neg hbad]
    rfl

/-- With either value of `escape_unicode` the text of a string is read back, but for a U+001F. -/
theorem emitString_parses (escapeUnicode : Bool) {s : Str} (hs : IsUtf8 s) (h0 : 0 ∉ s) (hunit : unitSeparator ∉ s) :
    ∃ sb, emitStringWith escapeUnicode sbInit s = .ok sb ∧ ∀ rest, parseString true (sb.bytes ++ rest) = .ok (some (some s)) rest := by
  obtain ⟨text, happ, -, htext⟩ := (writes_emitStringWith True escapeUnicode h0).text (by simpa using hs)
  obtain ⟨chars, hchars, rfl⟩ := (htext trivial).2 (by simpa using hunit)
  obtain ⟨sb, hrun, hbytes, -⟩ := happ sbInit valid_sbInit
  refine ⟨sb, hrun, fun rest => ?_⟩
  have hparse := parseString_text true hchars rest
  have hbytes : sb.bytes = quote :: (chars ++ [quote]) := hbytes
  rw [hbytes, List.cons_append, List.append_assoc]
  exact hparse

/-- `é` -/
theorem emitString_parses_accented : ∃ sb, emitStringWith true sbInit [0xC3, 0xA9] = .ok sb ∧
    ∀ rest, parseString true (sb.bytes ++ rest) = .ok (some (some [0xC3, 0xA9])) rest :=
  emitString_parses true ⟨[Char.ofNat 0xE9], by decide⟩ (by decide) (by decide)

/-! ## Numbers and literals -/

/-- `number_is_valid` accepts the numbers of the grammar. -/
theorem numberIsValid_run (lib : NumberLib) {num : Str} (h0 : 0 ∉ num) :
    ∃ b, numberIsValid lib num = .ok b ∧ (b = true ↔ Number num) := by
  have hdelim : Delimited [0] := delimited_cons.2 (.inl rfl)
  rw [numberIsValid]
  rcases parseNumber_run lib false (s := num ++ [0]) (by simp) with ⟨r, text, rest, hrun, hsplit, hrest, hn, rfl⟩ | ⟨s, hfail⟩
  · obtain ⟨c, rest, rfl, -⟩ := exists_cons hrest
    refine ⟨decide (c = 0), by rw [hrun]; rfl, ?_⟩
    rw [decide_eq_true_iff]
    constructor
    · rintro rfl
      rwa [before_first_nul hsplit h0 hn.visible.printed.noNul]
    · intro hnum
      rw [parseNumber_text lib false hnum hdelim] at hrun
      exact (List.cons.inj (EStateM.Result.ok.inj hrun).2).1.symm
  · refine ⟨false, by rw [hfail], by simp, fun hn => ?_⟩
    rw [parseNumber_text lib false hn hdelim] at hfail
    cases hfail

theorem nullText_short : Short nullText := by
  unfold Short
  decide

theorem boolText_short (b : Bool) : Short (boolText b) := by
  unfold Short
  cases b <;> decide

theorem writes_emitNumber (lib : NumberLib) (num : Word) : Writes plain (fun sb => emitNumber lib sb num) []
    (Derives (jsonValues lib) (.value (roundNumber lib num))) := by
  obtain ⟨b, hrun, hb⟩ := numberIsValid_run lib (lib.sprintf16g_noNul num)
  by_cases hn : Number (lib.sprintf16g num)
  · have hput : Appends (fun sb => emitNumber lib sb num) (lib.sprintf16g num) := by
      intro sb hsb
      have hfits := lib.sprintf16g_fits num
      have hshort : Short (lib.sprintf16g num) := by
        unfold Short
        omega
      have hputs := appends_sbPuts hshort sb hsb
      dsimp only
      rw [emitNumber]
      simp only [bind, Except.bind, hrun, if_pos (hb.2 hn)]
      exact hputs
    refine hput.writes hn.visible.printed ?_
    rw [roundNumber, if_pos hn]
    exact .number hn
  · have hput : Appends (fun sb => emitNumber lib sb num) nullText := by
      intro sb hsb
      have hputs := appends_sbPuts nullText_short sb hsb
      dsimp only
      rw [emitNumber]
      simp only [bind, Except.bind, hrun, if_neg (mt hb.1 hn)]
      exact hputs
    refine hput.writes nullText_visible.printed ?_
    rw [roundNumber, if_neg hn]
    exact .null

theorem writes_puts {text : Str} (hs : Short text) (hp : Printed text) :
    Writes plain (fun sb => sbPuts sb text) [] (· = text) := (appends_sbPuts hs).writes hp rfl

theorem writes_putc {c : UInt8} (hc : 0x20 ≤ c) : Writes plain (fun sb => sbPutc sb c) [] (· = [c]) :=
  (appends_sbPutc c).writes (by simp [hc]) rfl

/-! ## Values -/

mutual

theorem writes_emitValue (lib : NumberLib) (v : Json) (h0 : ∀ s ∈ v.strings, 0 ∉ s) :
    Writes plain (fun sb => emitValue lib sb v) v.strings (Derives (jsonValues lib) (.value (rounded lib v))) := by
  cases v with
  | null => exact (appends_sbPuts nullText_short).writes nullText_visible.printed .null
  | bool b =>
    have hd : Derives (jsonValues lib) (.value (.bool b)) (boolText b) := .bool b
    have hw : Writes plain (fun sb => sbPuts sb (boolText b)) [] _ :=
      (appends_sbPuts (boolText_short b)).writes (boolText_visible b).printed hd
    cases b <;> exact hw
  | string s =>
    refine (writes_emitStringWith plain false (h0 s (by simp [Json.strings]))).mono rfl ?_
    rintro _ ⟨chars, hchars, rfl⟩
    exact .string hchars
  | number num => exact writes_emitNumber lib num
  | array elements =>
    have hw := (writes_putc (c := openBracket) (by decide)).bind
      ((writes_emitElements lib elements h0).bind (writes_putc (c := closeBracket) (by decide)))
    simp only [emitValue]
    refine hw.mono (by simp [Json.strings]) ?_
    rintro _ ⟨_, _, rfl, ⟨text, _, htext, rfl, rfl⟩, rfl⟩
    rcases htext with ⟨rfl, rfl⟩ | ⟨-, htext⟩
    · exact .emptyArray .nil
    · exact .array .nil htext
  | object members =>
    have hw := (writes_putc (c := openBrace) (by decide)).bind
      ((writes_emitMembers lib members h0).bind (writes_putc (c := closeBrace) (by decide)))
    simp only [emitValue]
    refine hw.mono (by simp [Json.strings]) ?_
    rintro _ ⟨_, _, rfl, ⟨text, _, htext, rfl, rfl⟩, rfl⟩
    rcases htext with ⟨rfl, rfl⟩ | ⟨-, htext⟩
    · exact .emptyObject .nil
    · exact .object .nil htext

/-- The loop of `emit_array`. -/
theorem writes_emitElements (lib : NumberLib) (vs : List Json) (h0 : ∀ s ∈ Json.elementStrings vs, 0 ∉ s) :
    Writes plain (fun sb => emitElements lib sb vs) (Json.elementStrings vs) fun text =>
      (vs = [] ∧ text = []) ∨ (vs ≠ [] ∧ Derives (jsonValues lib) (.elements (roundedElements lib vs)) text) := by
  match vs with
  | [] =>
    simp only [emitElements]
    exact Appends.nil.writes printed_nil (by simp)
  | [v] =>
    have hv := writes_emitValue lib v (fun s hs => h0 s (by simp [Json.elementStrings, hs]))
    simp only [emitElements]
    refine hv.mono (by simp [Json.elementStrings]) fun text htext => .inr ⟨by simp, ?_⟩
    have hlast := Derives.lastElement htext .nil
    rwa [List.append_nil] at hlast
  | v :: next :: rest =>
    have hv := writes_emitValue lib v (fun s hs => h0 s (by simp [Json.elementStrings, hs]))
    have hrest := writes_emitElements lib (next :: rest) (fun s hs => h0 s (by rw [Json.elementStrings]; simp [hs]))
    simp only [emitElements]
    refine (hv.bind ((writes_putc (by decide)).bind hrest)).mono (by simp [Json.elementStrings]) ?_
    rintro _ ⟨text, _, htext, ⟨_, text', rfl, htext', rfl⟩, rfl⟩
    rcases htext' with ⟨hnil, -⟩ | ⟨-, htext'⟩
    · cases hnil
    have hcons := Derives.element htext .nil .nil htext'
    rw [List.append_nil] at hcons
    exact .inr ⟨by simp, hcons⟩

/-- The loop of `emit_object`. -/
theorem writes_emitMembers (lib : NumberLib) (ms : List (Str × Json)) (h0 : ∀ s ∈ Json.memberStrings ms, 0 ∉ s) :
    Writes plain (fun sb => emitMembers lib sb ms) (Json.memberStrings ms) fun text =>
      (ms = [] ∧ text = []) ∨ (ms ≠ [] ∧ Derives (jsonValues lib) (.members (roundedMembers lib ms)) text) := by
  match ms with
  | [] =>
    simp only [emitMembers]
    exact Appends.nil.writes printed_nil (by simp)
  | [(key, v)] =>
    have hkey := writes_emitStringWith plain false (h0 key (by simp [Json.memberStrings]))
    have hv := writes_emitValue lib v (fun s hs => h0 s (by simp [Json.memberStrings, hs]))
    simp only [emitMembers]
    refine (hkey.bind ((writes_putc (by decide)).bind hv)).mono (by simp [Json.memberStrings]) ?_
    rintro _ ⟨_, _, ⟨chars, hchars, rfl⟩, ⟨_, text, rfl, htext, rfl⟩, rfl⟩
    have hlast := Derives.lastMember hchars .nil .nil htext .nil
    refine .inr ⟨by simp, ?_⟩
    simpa [roundedMembers] using hlast
  | (key, v) :: next :: rest =>
    have hkey := writes_emitStringWith plain false (h0 key (by simp [Json.memberStrings]))
    have hv := writes_emitValue lib v (fun s hs => h0 s (by simp [Json.memberStrings, hs]))
    have hrest := writes_emitMembers lib (next :: rest) (fun s hs => h0 s (by rw [Json.memberStrings]; simp [hs]))
    simp only [emitMembers]
    refine (hkey.bind ((writes_putc (by decide)).bind (hv.bind ((writes_putc (by decide)).bind hrest)))).mono
      (by simp [Json.memberStrings]) ?_
    rintro _ ⟨_, _, ⟨chars, hchars, rfl⟩, ⟨_, _, rfl, ⟨text, _, htext, ⟨_, text', rfl, htext', rfl⟩, rfl⟩, rfl⟩, rfl⟩
    rcases htext' with ⟨hnil, -⟩ | ⟨-, htext'⟩
    · cases hnil
    have hcons := Derives.member hchars .nil .nil htext .nil .nil htext'
    refine .inr ⟨by simp, ?_⟩
    simpa [roundedMembers] using hcons

end

/-! ## Indentation -/

/-- A `space` that can be put out. -/
structure Indentation (space : Str) : Prop where
  noNul : 0 ∉ space
  short : Short space

theorem writes_emitSpace {space : Str} (hspace : Indentation space) (n : Nat) :
    Writes (Space space) (fun sb => emitSpace space n sb) [] Space := by
  induction n with
  | zero => exact Appends.nil.writes printed_nil .nil
  | succ n ih =>
    have hput : Writes (Space space) (fun sb => sbPuts sb space) [] Space :=
      (appends_sbPuts hspace.short).writes_of hspace.noNul fun hs => ⟨hs.printed, hs⟩
    simp only [emitSpace]
    refine (hput.bind ih).mono rfl ?_
    rintro _ ⟨_, _, hs, htext, rfl⟩
    exact hs.append htext

/-- Behind an element of an indented array or a member of an indented object. -/
theorem writes_separator (last : Bool) : Writes plain (fun sb => sbPuts sb (if last then [10] else [comma, 10])) []
    (· = if last then [10] else [comma, 10]) := by
  have hcomma : 0x20 ≤ comma := by decide
  refine writes_puts ?_ ?_
  · unfold Short
    cases last <;> decide
  · split
    · simp [IsSpace]
    · simp [IsSpace, hcomma]

theorem space_newline : Space [10] := by simp [Space, IsSpace]

theorem short_two {b c : UInt8} : Short [b, c] := by
  unfold Short
  simp

mutual

theorem writes_emitValueIndented (lib : NumberLib) {space : Str} (hspace : Indentation space) (n : Nat) (v : Json)
    (h0 : ∀ s ∈ v.strings, 0 ∉ s) : Writes (Space space) (fun sb => emitValueIndented lib space n sb v) v.strings
      (Derives (jsonValues lib) (.value (rounded lib v))) := by
  match v with
  | .null => exact (appends_sbPuts nullText_short).writes nullText_visible.printed .null
  | .bool b =>
    have hd : Derives (jsonValues lib) (.value (.bool b)) (boolText b) := .bool b
    have hw : Writes (Space space) (fun sb => sbPuts sb (boolText b)) [] _ :=
      (appends_sbPuts (boolText_short b)).writes (boolText_visible b).printed hd
    cases b <;> exact hw
  | .string s =>
    refine (writes_emitStringWith (Space space) false (h0 s (by simp [Json.strings]))).mono rfl ?_
    rintro _ ⟨chars, hchars, rfl⟩
    exact .string hchars
  | .number num => exact writes_emitNumber lib num
  | .array [] =>
    have hd : Derives (jsonValues lib) (.value (.array [])) [openBracket, closeBracket] := .emptyArray .nil
    exact (appends_sbPuts short_two).writes hd.printed hd
  | .object [] =>
    have hd : Derives (jsonValues lib) (.value (.object [])) [openBrace, closeBrace] := .emptyObject .nil
    exact (appends_sbPuts short_two).writes hd.printed hd
  | .array (element :: rest) =>
    have hopen : Printed [openBracket, 10] := by
      have hbracket : 0x20 ≤ openBracket := by decide
      simp [hbracket, IsSpace]
    have hw := (writes_puts short_two hopen).bind ((writes_emitElementsIndented lib hspace n (element :: rest) h0).bind
      ((writes_emitSpace hspace n).bind (writes_putc (c := closeBracket) (by decide))))
    simp only [emitValueIndented]
    refine hw.mono (by simp [Json.strings]) ?_
    rintro _ ⟨_, _, rfl, ⟨text, _, htext, ⟨space', _, hspace', rfl, rfl⟩, rfl⟩, rfl⟩
    rcases htext with ⟨hnil, -⟩ | ⟨-, indent, body, hindent, hbody, rfl⟩
    · cases hnil
    have harray : Derives (jsonValues lib) (.value (rounded lib (.array (element :: rest)))) _ :=
      .array (space_newline.append hindent) (hbody.append_space hspace' (by simp))
    simpa using harray
  | .object (member :: rest) =>
    have hopen : Printed [openBrace, 10] := by
      have hbrace : 0x20 ≤ openBrace := by decide
      simp [hbrace, IsSpace]
    have hw := (writes_puts short_two hopen).bind ((writes_emitMembersIndented lib hspace n (member :: rest) h0).bind
      ((writes_emitSpace hspace n).bind (writes_putc (c := closeBrace) (by decide))))
    simp only [emitValueIndented]
    refine hw.mono (by simp [Json.strings]) ?_
    rintro _ ⟨_, _, rfl, ⟨text, _, htext, ⟨space', _, hspace', rfl, rfl⟩, rfl⟩, rfl⟩
    rcases htext with ⟨hnil, -⟩ | ⟨-, indent, body, hindent, hbody, rfl⟩
    · cases hnil
    have hobject : Derives (jsonValues lib) (.value (rounded lib (.object (member :: rest)))) _ :=
      .object (space_newline.append hindent) (hbody.append_space hspace' (by simp))
    simpa using hobject

/-- The loop of `emit_array_indented`. -/
theorem writes_emitElementsIndented (lib : NumberLib) {space : Str} (hspace : Indentation space) (n : Nat) (vs : List Json)
    (h0 : ∀ s ∈ Json.elementStrings vs, 0 ∉ s) :
    Writes (Space space) (fun sb => emitElementsIndented lib space n sb vs) (Json.elementStrings vs) fun text =>
      (vs = [] ∧ text = []) ∨ (vs ≠ [] ∧ ∃ indent body, Space indent ∧
        Derives (jsonValues lib) (.elements (roundedElements lib vs)) body ∧ text = indent ++ body) := by
  match vs with
  | [] =>
    simp only [emitElementsIndented]
    exact Appends.nil.writes printed_nil (by simp)
  | v :: rest =>
    have hv := writes_emitValueIndented lib hspace (n + 1) v (fun s hs => h0 s (by simp [Json.elementStrings, hs]))
    have hrest := writes_emitElementsIndented lib hspace n rest (fun s hs => h0 s (by simp [Json.elementStrings, hs]))
    have hw := (writes_emitSpace hspace (n + 1)).bind (hv.bind ((writes_separator rest.isEmpty).bind hrest))
    simp only [emitElementsIndented]
    refine hw.mono (by simp [Json.elementStrings]) ?_
    rintro _ ⟨indent, _, hindent, ⟨text, _, htext, ⟨_, text', rfl, htext', rfl⟩, rfl⟩, rfl⟩
    refine .inr ⟨by simp, indent, _, hindent, ?_, rfl⟩
    rcases htext' with ⟨rfl, rfl⟩ | ⟨hne, indent', body, hindent', hbody, rfl⟩
    · exact .lastElement htext space_newline
    · have hcons : Derives (jsonValues lib) (.elements (roundedElements lib (v :: rest))) _ :=
        .element htext .nil (space_newline.append hindent') hbody
      simpa [hne] using hcons

/-- The loop of `emit_object_indented`. -/
theorem writes_emitMembersIndented (lib : NumberLib) {space : Str} (hspace : Indentation space) (n : Nat)
    (ms : List (Str × Json)) (h0 : ∀ s ∈ Json.memberStrings ms, 0 ∉ s) :
    Writes (Space space) (fun sb => emitMembersIndented lib space n sb ms) (Json.memberStrings ms) fun text =>
      (ms = [] ∧ text = []) ∨ (ms ≠ [] ∧ ∃ indent body, Space indent ∧
        Derives (jsonValues lib) (.members (roundedMembers lib ms)) body ∧ text = indent ++ body) := by
  match ms with
  | [] =>
    simp only [emitMembersIndented]
    exact Appends.nil.writes printed_nil (by simp)
  | (key, v) :: rest =>
    have hkey := writes_emitStringWith (Space space) false (h0 key (by simp [Json.memberStrings]))
    have hv := writes_emitValueIndented lib hspace (n + 1) v (fun s hs => h0 s (by simp [Json.memberStrings, hs]))
    have hrest := writes_emitMembersIndented lib hspace n rest (fun s hs => h0 s (by simp [Json.memberStrings, hs]))
    have hcolon : Printed [colon, 32] := by
      have hc : 0x20 ≤ colon := by decide
      simp [hc]
    have hw := (writes_emitSpace hspace (n + 1)).bind (hkey.bind ((writes_puts short_two hcolon).bind (hv.bind
      ((writes_separator rest.isEmpty).bind hrest))))
    simp only [emitMembersIndented]
    refine hw.mono (by simp [Json.memberStrings]) ?_
    rintro _ ⟨indent, _, hindent, ⟨_, _, ⟨chars, hchars, rfl⟩, ⟨_, _, rfl, ⟨text, _, htext, ⟨_, text', rfl, htext', rfl⟩,
      rfl⟩, rfl⟩, rfl⟩, rfl⟩
    refine .inr ⟨by simp, indent, _, hindent, ?_, rfl⟩
    have hspace₂ : Space [32] := by simp [Space, IsSpace]
    rcases htext' with ⟨rfl, rfl⟩ | ⟨hne, indent', body, hindent', hbody, rfl⟩
    · have hlast : Derives (jsonValues lib) (.members (roundedMembers lib [(key, v)])) _ :=
        .lastMember hchars .nil hspace₂ htext space_newline
      simpa using hlast
    · have hcons : Derives (jsonValues lib) (.members (roundedMembers lib ((key, v) :: rest))) _ :=
        .member hchars .nil hspace₂ htext .nil (space_newline.append hindent') hbody
      simpa [hne] using hcons

end

/-! ## `json_stringify` and `json_decode` -/

/-- The text that is written, from an empty buffer. -/
theorem Writes.finish (hw : Writes plain f a G) :
    ((∀ s ∈ a, IsUtf8 s) → ∃ text, (f sbInit >>= sbFinish) = .ok text ∧ 0 ∉ text ∧ (plain →
      (unitSeparator ∈ text ↔ ∃ s ∈ a, unitSeparator ∈ s) ∧ ((∀ s ∈ a, unitSeparator ∉ s) → G text))) ∧
    ((∃ s ∈ a, ¬ IsUtf8 s) → (f sbInit >>= sbFinish) = .error .assertion) := by
  refine ⟨fun hutf8 => ?_, fun hbad => ?_⟩
  · obtain ⟨text, happ, hnul, htext⟩ := hw.text hutf8
    obtain ⟨sb, hsb, hbytes, hvalid⟩ := happ sbInit valid_sbInit
    obtain rfl : sb.bytes = text := hbytes
    refine ⟨sb.bytes, ?_, hnul, htext⟩
    rw [hsb]
    exact sbFinish_run hvalid hnul
  · rw [hw.fails hbad sbInit valid_sbInit]
    rfl

/-- `json_encode_string` writes what is read as the string, but for a U+001F, and fails for what is not UTF-8. -/
theorem jsonEncodeString_run {s : Str} (h0 : 0 ∉ s) :
    (IsUtf8 s → ∃ text, jsonEncodeString s = .ok text ∧
      (unitSeparator ∉ s → ∀ rest, parseString true (text ++ rest) = .ok (some (some s)) rest)) ∧
    (¬ IsUtf8 s → jsonEncodeString s = .error .assertion) := by
  obtain ⟨htext, hfail⟩ := (writes_emitStringWith True false h0).finish
  refine ⟨fun hs => ?_, fun hs => hfail (by simpa using hs)⟩
  obtain ⟨text, hrun, -, hplain⟩ := htext (by simpa using hs)
  refine ⟨text, hrun, fun hclean rest => ?_⟩
  obtain ⟨chars, hchars, rfl⟩ := (hplain trivial).2 (by simpa using hclean)
  rw [List.cons_append, List.append_assoc]
  exact parseString_text true hchars rest

/-- `json_stringify` runs into a failing `assert` for a string that is not UTF-8, and answers everything else. -/
theorem jsonStringify_run (lib : NumberLib) (space : Option Str) (hspace : ∀ s ∈ space, Indentation s) {v : Json}
    (h0 : ∀ s ∈ v.strings, 0 ∉ s) :
    ((∀ s ∈ v.strings, IsUtf8 s) → ∃ text, jsonStringify lib space v = .ok text ∧ 0 ∉ text ∧ ((∀ s ∈ space, Space s) →
      (unitSeparator ∈ text ↔ ∃ s ∈ v.strings, unitSeparator ∈ s) ∧
      ((∀ s ∈ v.strings, unitSeparator ∉ s) → Text (jsonValues lib) (rounded lib v) text))) ∧
    ((∃ s ∈ v.strings, ¬ IsUtf8 s) → jsonStringify lib space v = .error .assertion) := by
  obtain ⟨f, plain, hplain, hrun, hw⟩ : ∃ f plain, ((∀ s ∈ space, Space s) → plain) ∧
      jsonStringify lib space v = (f sbInit >>= sbFinish) ∧
      Writes plain f v.strings (Derives (jsonValues lib) (.value (rounded lib v))) := by
    cases space with
    | none => exact ⟨fun sb => emitValue lib sb v, True, fun _ => trivial, rfl, writes_emitValue lib v h0⟩
    | some space =>
      exact ⟨fun sb => emitValueIndented lib space 0 sb v, Space space, fun h => h space rfl, rfl,
        writes_emitValueIndented lib (hspace space rfl) 0 v h0⟩
  rw [hrun]
  obtain ⟨htext, hfail⟩ := hw.finish
  refine ⟨fun hutf8 => ?_, hfail⟩
  obtain ⟨text, hok, hnul, htext⟩ := htext hutf8
  refine ⟨text, hok, hnul, fun hs => ⟨(htext (hplain hs)).1, fun hclean => ?_⟩⟩
  have hmk := Text.mk .nil ((htext (hplain hs)).2 hclean) .nil
  rwa [List.append_nil] at hmk

/-- `json_stringify` answers exactly when every string is UTF-8. Nothing but an `assert` ends it otherwise. -/
theorem jsonStringify_answers (lib : NumberLib) (space : Option Str) (hspace : ∀ s ∈ space, Indentation s) {v : Json}
    (h0 : ∀ s ∈ v.strings, 0 ∉ s) :
    ((∃ text, jsonStringify lib space v = .ok text) ↔ ∀ s ∈ v.strings, IsUtf8 s) ∧
    ∀ e, jsonStringify lib space v = .error e → e = .assertion := by
  obtain ⟨htext, hfail⟩ := jsonStringify_run lib space hspace h0
  by_cases hutf8 : ∀ s ∈ v.strings, IsUtf8 s
  · obtain ⟨text, hrun, -⟩ := htext hutf8
    refine ⟨⟨fun _ => hutf8, fun _ => ⟨text, hrun⟩⟩, fun e he => ?_⟩
    rw [hrun] at he
    cases he
  · have hbad : ∃ s ∈ v.strings, ¬ IsUtf8 s := by simpa using hutf8
    have hrun := hfail hbad
    refine ⟨⟨fun ⟨text, htext⟩ => ?_, fun h => absurd h hutf8⟩, fun e he => ?_⟩
    · rw [hrun] at htext
      cases htext
    · rw [hrun] at he
      exact (Except.error.inj he).symm

theorem jsonStringify_answers_accented :
    ((∃ text, jsonStringify oneLib (some [0x2D]) (.array [.string [0xC3, 0xA9]]) = .ok text) ↔
      ∀ s ∈ (Json.array [.string [0xC3, 0xA9]]).strings, IsUtf8 s) ∧
    ∀ e, jsonStringify oneLib (some [0x2D]) (.array [.string [0xC3, 0xA9]]) = .error e → e = .assertion := by
  have hdash : Indentation [0x2D] := ⟨by decide, by unfold Short; decide⟩
  exact jsonStringify_answers oneLib (some [0x2D]) (by simp [hdash]) (by simp [Json.strings, Json.elementStrings])

/-- `json_decode` of the text makes the nodes of `v`, whatever lies behind the text and among the nodes. -/
def DecodesTo (lib : NumberLib) (text : Str) (v : Json) : Prop :=
  ∀ behind h, h.Fresh → ∃ p t, jsonDecode lib ⟨text ++ 0 :: behind, h⟩ = .ok (some p) t ∧ build v h = .ok p t.heap

/-- `json_decode` answers the text with null. -/
def Rejected (lib : NumberLib) (text : Str) : Prop :=
  ∀ behind h, h.Fresh → ∃ t, jsonDecode lib ⟨text ++ 0 :: behind, h⟩ = .ok none t

theorem decodesTo_of_text {v : Json} (h0 : 0 ∉ text) (hv : Text (jsonValues lib) v text) : DecodesTo lib text v := by
  intro behind h hh
  obtain ⟨p, h', hrun, hbuild⟩ := jsonDecode_text ⟨text, behind, h0⟩ hv hh
  exact ⟨p, _, hrun, hbuild⟩

theorem rejected_of_unit (h0 : 0 ∉ text) (hunit : unitSeparator ∈ text) : Rejected lib text := by
  intro behind h hh
  rcases jsonDecode_run lib ⟨text, behind, h0⟩ hh with ⟨v, p, t, -, hv, -⟩ | ⟨t, hrun, -⟩
  · exact absurd hunit (hv.printed.not_mem (by decide) (by decide))
  · exact ⟨t, hrun⟩

theorem DecodesTo.not_rejected {v : Json} (hd : DecodesTo lib text v) : ¬ Rejected lib text := by
  intro hr
  have hh : Heap.empty.Fresh := fun _ _ => rfl
  obtain ⟨p, t, hrun, -⟩ := hd [] .empty hh
  obtain ⟨t', hnone⟩ := hr [] .empty hh
  rw [hrun] at hnone
  cases hnone

theorem indentation_of_space {s : Str} (h : Space s ∧ Short s) : Indentation s := ⟨h.1.printed.noNul, h.2⟩

/-- What was written is read back, but for a string with a U+001F. -/
theorem stringify_decodes (lib : NumberLib) (space : Option Str) (hspace : ∀ s ∈ space, Space s ∧ Short s) {v : Json}
    (hv : ∀ s ∈ v.strings, IsUtf8 s ∧ 0 ∉ s) : ∃ text, jsonStringify lib space v = .ok text ∧
      (DecodesTo lib text (rounded lib v) ↔ ∀ s ∈ v.strings, unitSeparator ∉ s) ∧
      (Rejected lib text ↔ ∃ s ∈ v.strings, unitSeparator ∈ s) := by
  obtain ⟨text, hrun, h0, hplain⟩ := (jsonStringify_run lib space (fun s hs => indentation_of_space (hspace s hs))
    fun s hs => (hv s hs).2).1 fun s hs => (hv s hs).1
  obtain ⟨hunit, htext⟩ := hplain fun s hs => (hspace s hs).1
  have hdecodes (hclean : ∀ s ∈ v.strings, unitSeparator ∉ s) := decodesTo_of_text h0 (htext hclean)
  have hrejected (hs : ∃ s ∈ v.strings, unitSeparator ∈ s) : Rejected lib text := rejected_of_unit h0 (hunit.2 hs)
  refine ⟨text, hrun, ⟨fun hd => ?_, hdecodes⟩, ⟨fun hr => ?_, hrejected⟩⟩
  · intro s hs hmem
    exact hd.not_rejected (hrejected ⟨s, hs, hmem⟩)
  · by_contra hnone
    refine (hdecodes fun s hs hmem => ?_).not_rejected hr
    exact hnone ⟨s, hs, hmem⟩

/-! ## What was decoded -/

def itemStrings : Item Json → List Str
  | .value v => v.strings
  | .elements vs => Json.elementStrings vs
  | .members ms => Json.memberStrings ms

/-- The strings of a text are UTF-8 without NUL. -/
theorem derives_strings {item : Item Json} (h : Derives (jsonValues lib) item text) :
    ∀ s ∈ itemStrings item, IsUtf8 s ∧ 0 ∉ s := by
  have hchars {chars bytes : Str} (hc : Chars chars bytes) : IsUtf8 bytes ∧ 0 ∉ bytes := by
    obtain ⟨cs, -, hcs⟩ := hc.exists_encode
    exact ⟨⟨cs, hcs⟩, hc.noNul⟩
  induction h with
  | null => simp [itemStrings, jsonValues, Json.strings]
  | bool b => simp [itemStrings, jsonValues, Json.strings]
  | string hc => simpa [itemStrings, jsonValues, Json.strings] using hchars hc
  | number hn => simp [itemStrings, jsonValues, Json.strings]
  | emptyArray hs => simp [itemStrings, jsonValues, Json.strings, Json.elementStrings]
  | array hs h ih => exact ih
  | emptyObject hs => simp [itemStrings, jsonValues, Json.strings, Json.memberStrings]
  | object hs h ih => exact ih
  | lastElement h hs ih => simpa [itemStrings, Json.elementStrings] using ih
  | element h hs hs' hr ih ihr =>
    intro s hs
    rcases List.mem_append.1 hs with hs | hs
    · exact ih s hs
    · exact ihr s hs
  | lastMember hk hs₁ hs₂ h hs₃ ih =>
    intro s hs
    simp only [itemStrings, Json.memberStrings, List.append_nil] at hs
    rcases List.mem_cons.1 hs with rfl | hs
    · exact hchars hk
    · exact ih s hs
  | member hk hs₁ hs₂ h hs₃ hs₄ hr ih ihr =>
    intro s hs
    rcases List.mem_cons.1 hs with rfl | hs
    · exact hchars hk
    rcases List.mem_append.1 hs with hs | hs
    · exact ih s hs
    · exact ihr s hs

/-- What was decoded can be written again. -/
theorem stringify_decoded (lib : NumberLib) (space : Option Str) (hspace : ∀ s ∈ space, Space s ∧ Short s) {json : CString} {h : Heap}
    (hh : h.Fresh) {p : Ptr} {t : Scanner} (hrun : jsonDecode lib ⟨json.memory, h⟩ = .ok (some p) t) :
    ∃ v text, readValue t.heap.next p t.heap = .ok v t.heap ∧ jsonStringify lib space v = .ok text ∧
      (DecodesTo lib text (rounded lib v) ↔ ∀ s ∈ v.strings, unitSeparator ∉ s) ∧
      (Rejected lib text ↔ ∃ s ∈ v.strings, unitSeparator ∈ s) := by
  rcases jsonDecode_run lib json hh with ⟨v, p', t', hrun', hv, hbuild⟩ | ⟨t', hrun', -⟩
  · rw [hrun] at hrun'
    obtain ⟨hp, rfl⟩ := EStateM.Result.ok.inj hrun'
    obtain rfl := Option.some.inj hp
    obtain ⟨_, _, _, -, -, hd, -⟩ := hv.parts
    obtain ⟨text, hstringify⟩ := stringify_decodes lib space hspace (derives_strings hd)
    exact ⟨v, text, readValue_build hbuild hh, hstringify⟩
  · rw [hrun] at hrun'
    cases hrun'

theorem stringify_decoded_one : ∃ t v text, jsonDecode oneLib ⟨oneText.memory, .empty⟩ = .ok (some 1) t ∧
    readValue t.heap.next 1 t.heap = .ok v t.heap ∧ jsonStringify oneLib none v = .ok text ∧
    (DecodesTo oneLib text (rounded oneLib v) ↔ ∀ s ∈ v.strings, unitSeparator ∉ s) ∧
    (Rejected oneLib text ↔ ∃ s ∈ v.strings, unitSeparator ∈ s) := by
  have hrun : jsonDecode oneLib ⟨oneText.memory, .empty⟩ = .ok (some 1) _ := rfl
  obtain ⟨v, text, hwritten⟩ := stringify_decoded oneLib none (by simp) (fun _ _ => rfl) hrun
  exact ⟨_, v, text, hrun, hwritten⟩

end

end JsonText

end CodiusSandbox
