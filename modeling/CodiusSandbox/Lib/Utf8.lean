import Mathlib.Tactic.Common
/-!
# Decoding UTF-8 piece by piece

`Lossy decode` is a decoder of arbitrary bytes with replacement characters. Decoding the pieces of a
text one by one gives the text where every piece starts with the first byte of a character, and nowhere
else (`Lossy.flatten_decode_iff`): each byte inside a character that starts a piece costs a replacement
character of its own.
-/
namespace Utf8

open String (utf8EncodeChar)

/-- The bytes of the characters. -/
def encode (cs : List Char) : List UInt8 := cs.flatMap utf8EncodeChar

@[simp] theorem encode_nil : encode [] = [] := rfl

@[simp] theorem encode_cons (c : Char) (cs : List Char) : encode (c :: cs) = utf8EncodeChar c ++ encode cs := rfl

/-- U+0000. -/
def nul : Char := Char.ofNat 0

/-- U+FFFD. -/
def replacement : Char := Char.ofNat 0xFFFD

/-- A first byte, and bytes inside the character. -/
theorem utf8EncodeChar_eq (c : Char) :
    ∃ first inside, utf8EncodeChar c = first :: inside ∧ first.IsUTF8FirstByte ∧
      ∀ b ∈ inside, ¬ b.IsUTF8FirstByte := by
  have hpos : 0 < (utf8EncodeChar c).length := by simp [c.utf8Size_pos]
  have hat (i : Nat) (hi : i < (utf8EncodeChar c).length) : (utf8EncodeChar c)[i].IsUTF8FirstByte ↔ i = 0 :=
    UInt8.isUTF8FirstByte_getElem_utf8EncodeChar
  obtain ⟨first, inside, heq⟩ := List.exists_cons_of_ne_nil (List.ne_nil_of_length_pos hpos)
  refine ⟨first, inside, heq, ?_, fun b hb => ?_⟩
  · simpa [heq] using hat 0 hpos
  · obtain ⟨i, hi, rfl⟩ := List.mem_iff_getElem.1 hb
    have hlt : i + 1 < (utf8EncodeChar c).length := by simpa [heq] using hi
    simpa [heq] using hat (i + 1) hlt

/-- No encoding is the beginning of another. -/
theorem eq_of_prefix {c c' : Char} {rest rest' : List UInt8}
    (h : utf8EncodeChar c ++ rest = utf8EncodeChar c' ++ rest') : c = c' := by
  have hc : ByteArray.utf8DecodeChar? ((utf8EncodeChar c).toByteArray ++ rest.toByteArray) 0 = some c :=
    ByteArray.utf8DecodeChar?_utf8EncodeChar_append
  have hc' : ByteArray.utf8DecodeChar? ((utf8EncodeChar c').toByteArray ++ rest'.toByteArray) 0 = some c' :=
    ByteArray.utf8DecodeChar?_utf8EncodeChar_append
  rw [← List.toByteArray_append, h, List.toByteArray_append, hc'] at hc
  exact (Option.some.inj hc).symm

/-- The byte 0 is only in the encoding of its character. -/
theorem zero_mem_utf8EncodeChar_iff {c : Char} : 0 ∈ utf8EncodeChar c ↔ c = nul := by
  have hnul : utf8EncodeChar nul = [0] := rfl
  constructor
  · intro h
    obtain ⟨first, inside, heq, -, hinside⟩ := utf8EncodeChar_eq c
    rw [heq] at h
    rcases List.mem_cons.1 h with rfl | h
    · have happend : utf8EncodeChar c ++ [] = utf8EncodeChar nul ++ inside := by simp [heq, hnul]
      exact eq_of_prefix happend
    · exact absurd (by decide) (hinside 0 h)
  · rintro rfl
    simp [hnul]

theorem zero_mem_encode_iff {cs : List Char} : 0 ∈ encode cs ↔ nul ∈ cs := by
  simp [encode, List.mem_flatMap, zero_mem_utf8EncodeChar_iff]

/-! ## Pieces -/

/-- The piece starts with the first byte of a character, if with any. -/
def StartsWhole (piece : List UInt8) : Prop := ∀ b ∈ piece.head?, b.IsUTF8FirstByte

/-- The characters that begin in the piece. -/
def firsts (piece : List UInt8) : Nat := piece.countP fun b => b.IsUTF8FirstByte

@[simp] theorem firsts_append (a b : List UInt8) : firsts (a ++ b) = firsts a + firsts b := List.countP_append

theorem firsts_inside {piece : List UInt8} (h : ∀ b ∈ piece, ¬ b.IsUTF8FirstByte) : firsts piece = 0 := by
  simpa [firsts, List.countP_eq_zero] using h

@[simp] theorem firsts_utf8EncodeChar (c : Char) : firsts (utf8EncodeChar c) = 1 := by
  obtain ⟨first, inside, heq, hfirst, hinside⟩ := utf8EncodeChar_eq c
  have hzero : firsts inside = 0 := firsts_inside hinside
  rw [heq, firsts, List.countP_cons_of_pos (by simpa using hfirst)]
  rw [firsts] at hzero
  rw [hzero]

theorem firsts_encode (cs : List Char) : firsts (encode cs) = cs.length := by
  induction cs with
  | nil => rfl
  | cons c cs ih => simp [ih, Nat.add_comm]

/-- A text is cut between characters where what follows starts whole. -/
theorem encode_split {cs : List Char} {a b : List UInt8} (h : a ++ b = encode cs) (hb : StartsWhole b) :
    ∃ cs₁ cs₂, cs = cs₁ ++ cs₂ ∧ a = encode cs₁ ∧ b = encode cs₂ := by
  induction cs generalizing a with
  | nil =>
    obtain ⟨rfl, rfl⟩ := List.append_eq_nil_iff.1 h
    exact ⟨[], [], rfl, rfl, rfl⟩
  | cons c cs ih =>
    rw [encode_cons] at h
    rcases List.append_eq_append_iff.1 h with ⟨mid, hchar, hrest⟩ | ⟨mid, ha, hrest⟩
    · -- `mid` is the part of `c` that is in `b`: all of `c`, or none
      obtain ⟨first, inside, heq, hfirst, hinside⟩ := utf8EncodeChar_eq c
      cases a with
      | nil =>
        exact ⟨[], c :: cs, rfl, rfl, by rw [encode_cons, hrest, hchar, List.nil_append]⟩
      | cons a₀ a =>
        have hmid : mid = [] := by
          cases mid with
          | nil => rfl
          | cons m mid =>
            rw [heq, List.cons_append] at hchar
            have hm : m ∈ inside := by
              rw [(List.cons.inj hchar).2]
              simp
            exact absurd (hb m (by simp [hrest])) (hinside m hm)
        rw [hmid, List.append_nil] at hchar
        rw [hmid, List.nil_append] at hrest
        exact ⟨[c], cs, rfl, by simp [hchar], hrest⟩
    · obtain ⟨cs₁, cs₂, rfl, rfl, rfl⟩ := ih hrest.symm
      exact ⟨c :: cs₁, cs₂, rfl, ha, rfl⟩

theorem startsWhole_flatten {pieces : List (List UInt8)} (h : ∀ p ∈ pieces, StartsWhole p) :
    StartsWhole pieces.flatten := by
  induction pieces with
  | nil => simp [StartsWhole]
  | cons p pieces ih =>
    cases p with
    | nil => exact ih fun p hp => h p (by simp [hp])
    | cons b p => simpa [StartsWhole] using h (b :: p) (by simp)

/-! ## Decoders -/

/-- Where no character is encoded, a replacement character stands for the first byte and those behind it
that are skipped, none of which can be the first of a character. -/
structure Lossy (decode : List UInt8 → List Char) : Prop where
  nil : decode [] = []
  char : ∀ c rest, decode (utf8EncodeChar c ++ rest) = c :: decode rest
  malformed : ∀ b bs, (∀ c, ¬ utf8EncodeChar c <+: b :: bs) → ∃ skipped rest, bs = skipped ++ rest ∧
    (∀ x ∈ skipped, ¬ x.IsUTF8FirstByte) ∧ decode (b :: bs) = replacement :: decode rest

namespace Lossy

variable {decode : List UInt8 → List Char} (h : Lossy decode)
include h

/-- Induction on the characters that are decoded. -/
theorem induct {P : List UInt8 → List Char → Prop} (nil : P [] [])
    (char : ∀ c rest, P rest (decode rest) → P (utf8EncodeChar c ++ rest) (c :: decode rest))
    (malformed : ∀ b skipped rest, (∀ x ∈ skipped, ¬ x.IsUTF8FirstByte) → P rest (decode rest) →
      P (b :: (skipped ++ rest)) (replacement :: decode rest)) (bytes : List UInt8) : P bytes (decode bytes) := by
  induction hn : bytes.length using Nat.strongRecOn generalizing bytes with
  | ind n ih =>
    cases bytes with
    | nil => rwa [h.nil]
    | cons b bs =>
      subst hn
      by_cases hc : ∃ c, utf8EncodeChar c <+: b :: bs
      · obtain ⟨c, rest, heq⟩ := hc
        have hlt : rest.length < (b :: bs).length := by
          rw [← heq, List.length_append, String.length_utf8EncodeChar]
          have := c.utf8Size_pos
          omega
        rw [← heq, h.char]
        exact char c rest (ih rest.length hlt rest rfl)
      · obtain ⟨skipped, rest, rfl, hskipped, hdecode⟩ := h.malformed b bs (not_exists.1 hc)
        have hlt : rest.length < (b :: (skipped ++ rest)).length := by
          rw [List.length_cons, List.length_append]
          omega
        rw [hdecode]
        exact malformed b skipped rest hskipped (ih rest.length hlt rest rfl)

theorem decode_encode (cs : List Char) : decode (encode cs) = cs := by
  induction cs with
  | nil => exact h.nil
  | cons c cs ih => rw [encode_cons, h.char, ih]

/-- A character for each first byte. -/
theorem firsts_le (bytes : List UInt8) : firsts bytes ≤ (decode bytes).length := by
  refine h.induct (P := fun bytes cs => firsts bytes ≤ cs.length) (Nat.le_refl _) ?_ ?_ bytes
  · intro c rest ih
    rw [firsts_append, firsts_utf8EncodeChar, List.length_cons]
    omega
  · intro b skipped rest hskipped ih
    have hone : firsts (b :: (skipped ++ rest)) ≤ 1 + firsts rest := by
      have hzero : firsts skipped = 0 := firsts_inside hskipped
      have happend : b :: (skipped ++ rest) = [b] ++ (skipped ++ rest) := rfl
      have hb : firsts [b] ≤ 1 := List.countP_le_length
      rw [happend, firsts_append, firsts_append]
      omega
    rw [List.length_cons]
    omega

/-- And one for the bytes inside a character that come first. -/
theorem firsts_lt {bytes : List UInt8} (hb : ¬ StartsWhole bytes) : firsts bytes < (decode bytes).length := by
  cases bytes with
  | nil => exact absurd (by simp [StartsWhole]) hb
  | cons b bs =>
    have hinside : ¬ b.IsUTF8FirstByte := by simpa [StartsWhole] using hb
    have hmalformed (c : Char) : ¬ utf8EncodeChar c <+: b :: bs := by
      rintro ⟨rest, heq⟩
      obtain ⟨first, inside, hc, hfirst, -⟩ := utf8EncodeChar_eq c
      rw [hc] at heq
      exact hinside ((List.cons.inj heq).1 ▸ hfirst)
    obtain ⟨skipped, rest, rfl, hskipped, hdecode⟩ := h.malformed b bs hmalformed
    have hle := h.firsts_le rest
    have hzero : firsts (b :: skipped) = 0 := firsts_inside (by simpa [hinside] using hskipped)
    have happend : b :: (skipped ++ rest) = (b :: skipped) ++ rest := rfl
    rw [hdecode, happend, firsts_append, hzero, List.length_cons]
    omega

/-- The character of the byte 0 comes from nothing else. -/
theorem nul_not_mem {bytes : List UInt8} (h0 : 0 ∉ bytes) : nul ∉ decode bytes := by
  refine h.induct (P := fun bytes cs => 0 ∉ bytes → nul ∉ cs) (fun _ => by simp) ?_ ?_ bytes h0
  · intro c rest ih h0
    rw [List.mem_append, not_or, zero_mem_utf8EncodeChar_iff] at h0
    rw [List.mem_cons, not_or]
    exact ⟨fun heq => h0.1 heq.symm, ih h0.2⟩
  · intro b skipped rest _ ih h0
    have hne : nul ≠ replacement := by decide
    simp only [List.mem_cons, List.mem_append, not_or] at h0
    rw [List.mem_cons, not_or]
    exact ⟨hne, ih h0.2.2⟩

theorem flatten_decode {pieces : List (List UInt8)} {cs : List Char} (hcs : pieces.flatten = encode cs)
    (hwhole : ∀ p ∈ pieces, StartsWhole p) : (pieces.map decode).flatten = cs := by
  induction pieces generalizing cs with
  | nil =>
    have hnil : cs = decode (encode cs) := (h.decode_encode cs).symm
    rw [hnil, ← hcs]
    exact h.nil.symm
  | cons p pieces ih =>
    rw [List.flatten_cons] at hcs
    have hrest : StartsWhole pieces.flatten := startsWhole_flatten fun p hp => hwhole p (by simp [hp])
    obtain ⟨cs₁, cs₂, rfl, rfl, hcs₂⟩ := encode_split hcs hrest
    rw [List.map_cons, List.flatten_cons, h.decode_encode, ih hcs₂ fun p hp => hwhole p (by simp [hp])]

theorem firsts_flatten_le (pieces : List (List UInt8)) :
    firsts pieces.flatten ≤ ((pieces.map decode).flatten).length := by
  induction pieces with
  | nil => exact Nat.le_refl _
  | cons p pieces ih =>
    have hle := h.firsts_le p
    rw [List.flatten_cons, firsts_append, List.map_cons, List.flatten_cons, List.length_append]
    omega

theorem firsts_flatten_lt {pieces : List (List UInt8)} {p : List UInt8} (hp : p ∈ pieces) (hb : ¬ StartsWhole p) :
    firsts pieces.flatten < ((pieces.map decode).flatten).length := by
  obtain ⟨before, behind, rfl⟩ := List.append_of_mem hp
  have hbefore := h.firsts_flatten_le before
  have hbehind := h.firsts_flatten_le behind
  have hlt := h.firsts_lt hb
  simp only [List.flatten_append, List.flatten_cons, List.map_append, List.map_cons, firsts_append,
    List.length_append]
  omega

/-- The pieces of a text decode to the text where none starts inside a character. -/
theorem flatten_decode_iff {pieces : List (List UInt8)} {cs : List Char} (hcs : pieces.flatten = encode cs) :
    (pieces.map decode).flatten = cs ↔ ∀ p ∈ pieces, StartsWhole p := by
  constructor
  · intro heq p hp
    by_contra hb
    have hlt := h.firsts_flatten_lt hp hb
    rw [heq, hcs, firsts_encode] at hlt
    exact absurd hlt (Nat.lt_irrefl _)
  · exact h.flatten_decode hcs

end Lossy

/-! ## A decoder -/

/-- Byte by byte where no character is encoded. -/
def replacing : List UInt8 → List Char
  | [] => []
  | b :: bs =>
    match ByteArray.utf8DecodeChar? (b :: bs).toByteArray 0 with
    | some c => c :: replacing (bs.drop (c.utf8Size - 1))
    | none => replacement :: replacing bs
termination_by bytes => bytes.length
decreasing_by
  · simp only [List.length_drop, List.length_cons]
    omega
  · simp

theorem prefix_of_decodeChar {bytes : List UInt8} {c : Char}
    (h : ByteArray.utf8DecodeChar? bytes.toByteArray 0 = some c) : utf8EncodeChar c <+: bytes := by
  obtain ⟨rest, heq⟩ := ByteArray.exists_of_utf8DecodeChar?_eq_some h
  have hlist := congrArg (fun b => b.data.toList) heq
  simp only [List.data_toByteArray, ByteArray.data_append, Array.toList_append] at hlist
  exact ⟨_, hlist.symm⟩

theorem lossy_replacing : Lossy replacing where
  nil := by rw [replacing]
  char := by
    intro c rest
    obtain ⟨first, inside, heq, -, -⟩ := utf8EncodeChar_eq c
    have hlen : inside.length = c.utf8Size - 1 := by
      have hsize := String.length_utf8EncodeChar c
      rw [heq, List.length_cons] at hsize
      omega
    have hchar : ByteArray.utf8DecodeChar? (first :: (inside ++ rest)).toByteArray 0 = some c := by
      rw [← List.cons_append, ← heq, List.toByteArray_append]
      exact ByteArray.utf8DecodeChar?_utf8EncodeChar_append
    rw [heq, List.cons_append, replacing, hchar]
    dsimp only
    rw [List.drop_left' hlen]
  malformed := by
    intro b bs hnone
    refine ⟨[], bs, rfl, by simp, ?_⟩
    have hchar : ByteArray.utf8DecodeChar? (b :: bs).toByteArray 0 = none := by
      cases hc : ByteArray.utf8DecodeChar? (b :: bs).toByteArray 0 with
      | none => rfl
      | some c => exact absurd (prefix_of_decodeChar hc) (hnone c)
    rw [replacing, hchar]

end Utf8
