import CodiusSandbox.Json
import CodiusSandbox.Lib.JsonGrammar
import CodiusSandbox.Lib.Utf8Bytes
/-!
# Characters in `json.c`

| here                                   | there                                                             |
|----------------------------------------|-------------------------------------------------------------------|
| `ScanFault`                            | the ways a function on text ends without an answer                |
| `byteAt`                               | `s[i]`, and `*s++` for the `i`-th time                            |
| `utf8ValidateCz`, `utf8Validate`       | `utf8_validate_cz`, `utf8_validate` (`json.c:151`, `206`)         |
| `utf8ReadChar`, `utf8WriteChar`        | `utf8_read_char`, `utf8_write_char` (`json.c:226`, `265`)         |
| `fromSurrogatePair`, `toSurrogatePair` | `from_surrogate_pair`, `to_surrogate_pair` (`json.c:302`, `317`)  |
| `writeHex16`                           | `write_hex16` (`json.c:1303`)                                     |

A pointer into a text is what lies in memory from there on. A code point is a `Nat`.
-/
namespace CodiusSandbox.JsonText

open String (utf8EncodeChar)
open JsonGrammar Utf8

/-- What ends a function on text without an answer. -/
inductive ScanFault where
  /-- A read behind the memory of the text. -/
  | overrun
  /-- A write behind a buffer. -/
  | overflow
  /-- A failing `assert`. -/
  | assertion
  /-- In a function on nodes. -/
  | node (e : Fault)
  /-- More steps than the fuel. -/
  | fuel
deriving DecidableEq, Repr

def byteAt (s : Str) (i : Nat) : Except ScanFault UInt8 :=
  match s[i]? with
  | some b => .ok b
  | none => .error .overrun

/-! ## UTF-8 -/

/-- The length of the character in front, 0 for an invalid one. -/
def utf8ValidateCz (s : Str) : Except ScanFault Nat := do
  let c ← byteAt s 0
  if c ≤ 0x7F then return 1
  else if c ≤ 0xC1 then return 0
  else if c ≤ 0xDF then
    if (← byteAt s 1) &&& 0xC0 ≠ 0x80 then return 0
    else return 2
  else if c ≤ 0xEF then
    -- every way on from here reads the second byte first
    let second ← byteAt s 1
    if c = 0xE0 ∧ second < 0xA0 then return 0
    else if c = 0xED ∧ second > 0x9F then return 0
    else if second &&& 0xC0 ≠ 0x80 then return 0
    else if (← byteAt s 2) &&& 0xC0 ≠ 0x80 then return 0
    else return 3
  else if c ≤ 0xF4 then
    let second ← byteAt s 1
    if c = 0xF0 ∧ second < 0x90 then return 0
    else if c = 0xF4 ∧ second > 0x8F then return 0
    else if second &&& 0xC0 ≠ 0x80 then return 0
    else if (← byteAt s 2) &&& 0xC0 ≠ 0x80 then return 0
    else if (← byteAt s 3) &&& 0xC0 ≠ 0x80 then return 0
    else return 4
  else return 0

/-- The loop of `utf8_validate`. -/
def utf8ValidateLoop : Nat → Str → Except ScanFault Bool
  | 0, _ => .error .fuel
  | fuel + 1, s => do
    if (← byteAt s 0) = 0 then return true
    else
      let len ← utf8ValidateCz s
      if len = 0 then return false
      else utf8ValidateLoop fuel (s.drop len)

/-- `utf8_validate`, with fuel for every byte. -/
def utf8Validate (s : Str) : Except ScanFault Bool := utf8ValidateLoop s.length s

/-- The character in front and its length. -/
def utf8ReadChar (s : Str) : Except ScanFault (Nat × Nat) := do
  if (← utf8ValidateCz s) = 0 then throw .assertion
  else
    let c ← byteAt s 0
    if c ≤ 0x7F then return (c.toNat, 1)
    else if c ≤ 0xDF then
      let c1 ← byteAt s 1
      return ((c.toNat &&& 0x1F) <<< 6 ||| (c1.toNat &&& 0x3F), 2)
    else if c ≤ 0xEF then
      let c1 ← byteAt s 1
      let c2 ← byteAt s 2
      return ((c.toNat &&& 0xF) <<< 12 ||| (c1.toNat &&& 0x3F) <<< 6 ||| (c2.toNat &&& 0x3F), 3)
    else
      let c1 ← byteAt s 1
      let c2 ← byteAt s 2
      let c3 ← byteAt s 3
      return ((c.toNat &&& 0x7) <<< 18 ||| (c1.toNat &&& 0x3F) <<< 12 ||| (c2.toNat &&& 0x3F) <<< 6 |||
        (c3.toNat &&& 0x3F), 4)

/-- The bytes that are written at `out`. -/
def utf8WriteChar (unicode : Nat) : Except ScanFault Str :=
  if unicode ≤ 0x10FFFF ∧ ¬ (0xD800 ≤ unicode ∧ unicode ≤ 0xDFFF) then
    if unicode ≤ 0x7F then .ok [unicode.toUInt8]
    else if unicode ≤ 0x7FF then
      .ok [(0xC0 ||| unicode >>> 6).toUInt8, (0x80 ||| (unicode &&& 0x3F)).toUInt8]
    else if unicode ≤ 0xFFFF then
      .ok [(0xE0 ||| unicode >>> 12).toUInt8, (0x80 ||| (unicode >>> 6 &&& 0x3F)).toUInt8,
        (0x80 ||| (unicode &&& 0x3F)).toUInt8]
    else
      .ok [(0xF0 ||| unicode >>> 18).toUInt8, (0x80 ||| (unicode >>> 12 &&& 0x3F)).toUInt8,
        (0x80 ||| (unicode >>> 6 &&& 0x3F)).toUInt8, (0x80 ||| (unicode &&& 0x3F)).toUInt8]
  else .error .assertion

/-! ## UTF-16 and hexadecimal digits -/

def fromSurrogatePair (uc lc : Nat) : Option Nat :=
  if 0xD800 ≤ uc ∧ uc ≤ 0xDBFF ∧ 0xDC00 ≤ lc ∧ lc ≤ 0xDFFF then
    some (0x10000 + (((uc &&& 0x3FF) <<< 10) ||| (lc &&& 0x3FF)))
  else none

def toSurrogatePair (unicode : Nat) : Except ScanFault (Nat × Nat) :=
  if 0x10000 ≤ unicode ∧ unicode ≤ 0x10FFFF then
    let n := unicode - 0x10000
    .ok (((n >>> 10) &&& 0x3FF) ||| 0xD800, (n &&& 0x3FF) ||| 0xDC00)
  else .error .assertion

/-- `hex[n]` in `write_hex16`. -/
def hexDigit (n : Nat) : UInt8 := if n < 10 then (48 + n).toUInt8 else (55 + n).toUInt8

/-- The bytes that are written at `out`. -/
def writeHex16 (val : Nat) : Str :=
  [hexDigit ((val >>> 12) &&& 0xF), hexDigit ((val >>> 8) &&& 0xF), hexDigit ((val >>> 4) &&& 0xF),
    hexDigit (val &&& 0xF)]

/-! ## What they compute -/

theorem byteAt_cons_zero (b : UInt8) (s : Str) : byteAt (b :: s) 0 = .ok b := rfl

theorem byteAt_cons_succ (b : UInt8) (s : Str) (i : Nat) : byteAt (b :: s) (i + 1) = byteAt s i := by
  rw [byteAt, byteAt, List.getElem?_cons_succ]

theorem isTail_iff (b : UInt8) : b &&& 0xC0 = 0x80 ↔ Tail b := by
  have hall : ∀ n : Fin 256, UInt8.ofNat n &&& 0xC0 = 0x80 ↔ 128 ≤ n.val ∧ n.val ≤ 191 := by decide +kernel
  have hb := hall ⟨b.toNat, b.toNat_lt⟩
  rwa [UInt8.ofNat_toNat] at hb

theorem utf8ValidateCz_charBytes {bytes : Str} (h : CharBytes bytes) (rest : Str) :
    utf8ValidateCz (bytes ++ rest) = .ok bytes.length := by
  cases h with
  | @one a ha =>
    have hle : a ≤ 0x7F := ha
    simp only [List.cons_append, utf8ValidateCz, byteAt_cons_zero, bind, Except.bind, if_pos hle]
    rfl
  | @two a b ha hb =>
    rw [← isTail_iff] at hb
    simp only [List.cons_append, utf8ValidateCz, byteAt_cons_zero, byteAt_cons_succ, bind, Except.bind, hb, ne_eq,
      not_true_eq_false, UInt8.le_iff_toNat_le, UInt8.reduceToNat]
    rw [if_neg (by omega), if_neg (by omega), if_pos (by omega)]
    rfl
  | @three a b c ha hb hc hlow hhigh =>
    have hb' := (isTail_iff b).2 hb
    have hc' := (isTail_iff c).2 hc
    simp only [List.cons_append, utf8ValidateCz, byteAt_cons_zero, byteAt_cons_succ, bind, Except.bind, hb', hc', ne_eq,
      not_true_eq_false, UInt8.le_iff_toNat_le, UInt8.lt_iff_toNat_lt, gt_iff_lt, ← UInt8.toNat_inj, UInt8.reduceToNat]
    rw [if_neg (by omega), if_neg (by omega), if_neg (by omega), if_pos (by omega), if_neg (by omega), if_neg (by omega)]
    rfl
  | @four a b c d ha hb hc hd hlow hhigh =>
    have hb' := (isTail_iff b).2 hb
    have hc' := (isTail_iff c).2 hc
    have hd' := (isTail_iff d).2 hd
    simp only [List.cons_append, utf8ValidateCz, byteAt_cons_zero, byteAt_cons_succ, bind, Except.bind, hb', hc', hd', ne_eq,
      not_true_eq_false, UInt8.le_iff_toNat_le, UInt8.lt_iff_toNat_lt, gt_iff_lt, ← UInt8.toNat_inj, UInt8.reduceToNat]
    rw [if_neg (by omega), if_neg (by omega), if_neg (by omega), if_neg (by omega), if_pos (by omega), if_neg (by omega),
      if_neg (by omega)]
    rfl

theorem exists_next {a : UInt8} {s : Str} (h0 : 0 ∈ a :: s) (ha : a ≠ 0) : ∃ b s', s = b :: s' ∧ 0 ∈ b :: s' := by
  cases s with
  | nil => exact absurd (List.mem_singleton.1 h0).symm ha
  | cons b s' => exact ⟨b, s', rfl, (List.mem_cons.1 h0).resolve_left (Ne.symm ha)⟩

/-- What `utf8_validate_cz` may answer: the length of the character in front, or 0. -/
def Validated (s : Str) : Prop := utf8ValidateCz s = .ok 0 ∨
  ∃ bytes rest, CharBytes bytes ∧ s = bytes ++ rest ∧ utf8ValidateCz s = .ok bytes.length

theorem CharBytes.validated {bytes : Str} (h : CharBytes bytes) (rest : Str) : Validated (bytes ++ rest) :=
  .inr ⟨bytes, rest, h, rfl, utf8ValidateCz_charBytes h rest⟩

theorem validated_two {a b : UInt8} (s : Str) (h1 : ¬ a ≤ 0xC1) (h2 : a ≤ 0xDF) : Validated (a :: b :: s) := by
  have h0 : ¬ a ≤ 0x7F := fun h => h1 (UInt8.le_trans h (by decide))
  by_cases hb : Tail b
  · refine CharBytes.validated (.two ⟨?_, h2⟩ hb : CharBytes [a, b]) s
    simp only [UInt8.le_iff_toNat_le, UInt8.reduceToNat] at h1
    omega
  · left
    rw [← isTail_iff] at hb
    simp only [utf8ValidateCz, byteAt_cons_zero, byteAt_cons_succ, bind, Except.bind, if_neg h0, if_neg h1, if_pos h2,
      if_pos hb]
    rfl

theorem validated_three {a b : UInt8} {s : Str} (h1 : ¬ a ≤ 0xDF) (h2 : a ≤ 0xEF) (h0 : 0 ∈ b :: s) :
    Validated (a :: b :: s) := by
  have hlow : ¬ a ≤ 0x7F := fun h => h1 (UInt8.le_trans h (by decide))
  have hmid : ¬ a ≤ 0xC1 := fun h => h1 (UInt8.le_trans h (by decide))
  have hrun : utf8ValidateCz (a :: b :: s) =
      if a = 0xE0 ∧ b < 0xA0 then .ok 0
      else if a = 0xED ∧ b > 0x9F then .ok 0
      else if b &&& 0xC0 ≠ 0x80 then .ok 0
      else (byteAt s 0).bind fun c => if c &&& 0xC0 ≠ 0x80 then .ok 0 else .ok 3 := by
    simp only [utf8ValidateCz, byteAt_cons_zero, byteAt_cons_succ, bind, Except.bind, if_neg hlow, if_neg hmid,
      if_neg h1, if_pos h2]
    rfl
  by_cases hmin : a = 0xE0 ∧ b < 0xA0
  · exact .inl (by rw [hrun, if_pos hmin])
  by_cases hmax : a = 0xED ∧ b > 0x9F
  · exact .inl (by rw [hrun, if_neg hmin, if_pos hmax])
  rw [if_neg hmin, if_neg hmax] at hrun
  by_cases hb : Tail b
  · obtain ⟨c, s, rfl, -⟩ := exists_next h0 (hb.ne_zero)
    by_cases hc : Tail c
    · refine CharBytes.validated (.three ?_ hb hc ?_ ?_ : CharBytes [a, b, c]) s <;>
        simp only [UInt8.le_iff_toNat_le, UInt8.lt_iff_toNat_lt, gt_iff_lt, ← UInt8.toNat_inj,
          UInt8.reduceToNat] at h1 h2 hmin hmax <;> omega
    · left
      rw [← isTail_iff] at hb hc
      rw [hrun, if_neg (not_not.2 hb)]
      exact if_pos hc
  · left
    rw [← isTail_iff] at hb
    rw [hrun, if_pos hb]

theorem validated_four {a b : UInt8} {s : Str} (h1 : ¬ a ≤ 0xEF) (h2 : a ≤ 0xF4) (h0 : 0 ∈ b :: s) :
    Validated (a :: b :: s) := by
  have hlow : ¬ a ≤ 0x7F := fun h => h1 (UInt8.le_trans h (by decide))
  have hmid : ¬ a ≤ 0xC1 := fun h => h1 (UInt8.le_trans h (by decide))
  have hhigh : ¬ a ≤ 0xDF := fun h => h1 (UInt8.le_trans h (by decide))
  have hrun : utf8ValidateCz (a :: b :: s) =
      if a = 0xF0 ∧ b < 0x90 then .ok 0
      else if a = 0xF4 ∧ b > 0x8F then .ok 0
      else if b &&& 0xC0 ≠ 0x80 then .ok 0
      else (byteAt s 0).bind fun c => if c &&& 0xC0 ≠ 0x80 then .ok 0
        else (byteAt s 1).bind fun d => if d &&& 0xC0 ≠ 0x80 then .ok 0 else .ok 4 := by
    simp only [utf8ValidateCz, byteAt_cons_zero, byteAt_cons_succ, bind, Except.bind, if_neg hlow, if_neg hmid,
      if_neg hhigh, if_neg h1, if_pos h2]
    rfl
  by_cases hmin : a = 0xF0 ∧ b < 0x90
  · exact .inl (by rw [hrun, if_pos hmin])
  by_cases hmax : a = 0xF4 ∧ b > 0x8F
  · exact .inl (by rw [hrun, if_neg hmin, if_pos hmax])
  rw [if_neg hmin, if_neg hmax] at hrun
  by_cases hb : Tail b
  · obtain ⟨c, s, rfl, h0'⟩ := exists_next h0 (hb.ne_zero)
    rw [if_neg (not_not.2 ((isTail_iff b).2 hb)), byteAt_cons_zero] at hrun
    by_cases hc : Tail c
    · obtain ⟨d, s, rfl, -⟩ := exists_next h0' (hc.ne_zero)
      by_cases hd : Tail d
      · refine CharBytes.validated (.four ?_ hb hc hd ?_ ?_ : CharBytes [a, b, c, d]) s <;>
          simp only [UInt8.le_iff_toNat_le, UInt8.lt_iff_toNat_lt, gt_iff_lt, ← UInt8.toNat_inj,
            UInt8.reduceToNat] at h1 h2 hmin hmax <;> omega
      · left
        rw [← isTail_iff] at hc hd
        exact hrun.trans ((if_neg (not_not.2 hc)).trans (if_pos hd))
    · left
      rw [← isTail_iff] at hc
      exact hrun.trans (if_pos hc)
  · left
    rw [← isTail_iff] at hb
    rw [hrun, if_pos hb]

/-- In a string `utf8_validate_cz` stays before the end, and answers by the character in front. -/
theorem utf8ValidateCz_run {s : Str} (h0 : 0 ∈ s) : Validated s := by
  cases s with
  | nil => simp at h0
  | cons a s =>
    by_cases h1 : a ≤ 0x7F
    · exact CharBytes.validated (.one h1 : CharBytes [a]) s
    have ha : a ≠ 0 := by
      rintro rfl
      exact h1 (by decide)
    obtain ⟨b, s, rfl, h0'⟩ := exists_next h0 ha
    by_cases h2 : a ≤ 0xC1
    · left
      simp only [utf8ValidateCz, byteAt_cons_zero, bind, Except.bind, if_neg h1, if_pos h2]
      rfl
    by_cases h3 : a ≤ 0xDF
    · exact validated_two s h2 h3
    by_cases h4 : a ≤ 0xEF
    · exact validated_three h3 h4 h0'
    by_cases h5 : a ≤ 0xF4
    · exact validated_four h4 h5 h0'
    · left
      simp only [utf8ValidateCz, byteAt_cons_zero, bind, Except.bind, if_neg h1, if_neg h2, if_neg h3, if_neg h4,
        if_neg h5]
      rfl

theorem utf8ValidateCz_encode (c : Char) (rest : Str) :
    utf8ValidateCz (utf8EncodeChar c ++ rest) = .ok (utf8EncodeChar c).length :=
  utf8ValidateCz_charBytes (charBytes_utf8EncodeChar c) rest

/-- What holds no NUL and lies at the front of a string is the front of the string's bytes. -/
theorem before_nul {bytes rest body junk : Str} (h : bytes ++ rest = body ++ 0 :: junk) (h0 : 0 ∉ bytes) :
    ∃ body', body = bytes ++ body' ∧ rest = body' ++ 0 :: junk := by
  rcases List.append_eq_append_iff.1 h with ⟨mid, hbody, hrest⟩ | ⟨mid, hbytes, hjunk⟩
  · exact ⟨mid, hbody, hrest⟩
  · cases mid with
    | nil =>
      rw [List.append_nil] at hbytes
      exact ⟨[], by rw [hbytes, List.append_nil], hjunk.symm⟩
    | cons b mid =>
      obtain ⟨rfl, -⟩ := List.cons.inj hjunk
      exact absurd (by simp [hbytes]) h0

/-- The first NUL is where it is. -/
theorem before_first_nul {a b c d : Str} (h : a ++ 0 :: b = c ++ 0 :: d) (ha : 0 ∉ a) (hc : 0 ∉ c) : a = c := by
  obtain ⟨mid, rfl, hmid⟩ := before_nul h ha
  cases mid with
  | nil => rw [List.append_nil]
  | cons e mid =>
    obtain ⟨rfl, -⟩ := List.cons.inj hmid
    exact absurd (by simp) hc

/-- At a byte of a string that is not its end `utf8_validate_cz` finds the character that begins there, if one does. -/
theorem utf8ValidateCz_front {b : UInt8} {body : Str} (h0 : 0 ∉ b :: body) (junk : Str) :
    (utf8ValidateCz (b :: body ++ 0 :: junk) = .ok 0 ∧ ∀ c rest, utf8EncodeChar c ++ rest ≠ b :: body) ∨
    ∃ c body', b :: body = utf8EncodeChar c ++ body' ∧
      utf8ValidateCz (b :: body ++ 0 :: junk) = .ok (utf8EncodeChar c).length := by
  rcases utf8ValidateCz_run (s := b :: body ++ 0 :: junk) (by simp) with hz | ⟨bytes, rest, hbytes, heq, hz⟩
  · left
    refine ⟨hz, fun c rest hc => ?_⟩
    have hrun := utf8ValidateCz_encode c (rest ++ 0 :: junk)
    rw [← List.append_assoc, hc, hz] at hrun
    exact length_utf8EncodeChar_ne c (Except.ok.inj hrun).symm
  · right
    obtain ⟨c, rfl⟩ := charBytes_iff.1 hbytes
    have hnul : 0 ∉ utf8EncodeChar c := by
      rw [zero_mem_utf8EncodeChar_iff]
      rintro rfl
      have hb : b = 0 := (List.cons.inj heq).1
      exact h0 (by simp [hb])
    obtain ⟨body', hbody, -⟩ := before_nul heq.symm hnul
    exact ⟨c, body', hbody, hz⟩

/-! ## `utf8_validate` -/

theorem utf8ValidateLoop_run {fuel : Nat} {body junk : Str} (h0 : 0 ∉ body) (hfuel : body.length < fuel) :
    ∃ b, utf8ValidateLoop fuel (body ++ 0 :: junk) = .ok b ∧ (b = true ↔ IsUtf8 body) := by
  induction fuel generalizing body with
  | zero => omega
  | succ fuel ih =>
    cases body with
    | nil => exact ⟨true, rfl, by simp [IsUtf8.nil]⟩
    | cons b body =>
      have hb : b ≠ 0 := by
        rintro rfl
        simp at h0
      rw [utf8ValidateLoop, List.cons_append, byteAt_cons_zero]
      simp only [bind, Except.bind, if_neg hb]
      rw [← List.cons_append]
      rcases utf8ValidateCz_front h0 junk with ⟨hz, hnone⟩ | ⟨c, body', hbody, hz⟩
      · rw [hz]
        refine ⟨false, rfl, by simp, fun hbody => ?_⟩
        obtain ⟨c, rest, hc, -⟩ := hbody.exists_char
        exact absurd hc (hnone c rest)
      · have hne := length_utf8EncodeChar_ne c
        rw [hbody] at h0 hfuel hz ⊢
        simp only [List.mem_append, not_or] at h0
        rw [List.length_append] at hfuel
        obtain ⟨r, hr, hiff⟩ := ih h0.2 (by omega)
        refine ⟨r, ?_, hiff.trans isUtf8_append_iff.symm⟩
        rw [hz]
        dsimp only
        rw [if_neg hne, List.append_assoc, List.drop_left]
        exact hr

/-- `utf8_validate` accepts the encodings of texts. -/
theorem utf8Validate_run {body : Str} (h0 : 0 ∉ body) (junk : Str) :
    ∃ b, utf8Validate (body ++ 0 :: junk) = .ok b ∧ (b = true ↔ IsUtf8 body) :=
  utf8ValidateLoop_run h0 (by simp)

/-! ## Reading and writing a character -/

theorem or_eq_add {i a b : Nat} (h : b < 2 ^ i) : (2 ^ i * a) ||| b = 2 ^ i * a + b :=
  (Nat.two_pow_add_eq_or_of_lt h a).symm

theorem and_mask (n i : Nat) : n &&& (2 ^ i - 1) = n % 2 ^ i := Nat.and_two_pow_sub_one_eq_mod n i

theorem tail_toUInt8 (n : Nat) : (0x80 ||| (n &&& 0x3F)).toUInt8 = UInt8.ofNat (n % 64 + 0x80) := by
  have hmask : n &&& 0x3F = n % 64 := and_mask n 6
  have hor : 0x80 ||| n % 64 = 0x80 + n % 64 := or_eq_add (i := 6) (a := 2) (Nat.mod_lt n (by decide))
  rw [hmask, hor, Nat.add_comm]

theorem utf8WriteChar_char (c : Char) : utf8WriteChar c.toNat = .ok (utf8EncodeChar c) := by
  have hv := toNat_valid c
  rw [utf8WriteChar, utf8EncodeChar_toNat, if_pos (by omega)]
  generalize c.toNat = v at hv
  simp only [tail_toUInt8, Nat.shiftRight_eq_div_pow, Nat.reducePow]
  have hlead {i a n : Nat} (h : n < 2 ^ i) : ((2 ^ i * a) ||| n).toUInt8 = UInt8.ofNat (n + 2 ^ i * a) := by
    rw [or_eq_add h, Nat.add_comm]
  by_cases h1 : v ≤ 0x7F
  · rw [if_pos h1, if_pos h1]
  by_cases h2 : v ≤ 0x7FF
  · have ha : (0xC0 ||| v / 64).toUInt8 = UInt8.ofNat (v / 64 + 0xC0) := hlead (i := 6) (a := 3) (by omega)
    have hmod : v / 64 % 32 = v / 64 := by omega
    rw [if_neg h1, if_pos h2, if_neg h1, if_pos h2, ha, hmod]
  by_cases h3 : v ≤ 0xFFFF
  · have ha : (0xE0 ||| v / 4096).toUInt8 = UInt8.ofNat (v / 4096 + 0xE0) := hlead (i := 5) (a := 7) (by omega)
    have hmod : v / 4096 % 16 = v / 4096 := by omega
    rw [if_neg h1, if_neg h2, if_pos h3, if_neg h1, if_neg h2, if_pos h3, ha, hmod]
  · have ha : (0xF0 ||| v / 262144).toUInt8 = UInt8.ofNat (v / 262144 + 0xF0) := hlead (i := 4) (a := 15) (by omega)
    have hmod : v / 262144 % 8 = v / 262144 := by omega
    rw [if_neg h1, if_neg h2, if_neg h3, if_neg h1, if_neg h2, if_neg h3, ha, hmod]

/-- `utf8_write_char` writes the characters there are, and its `assert` fails on every other number. -/
theorem utf8WriteChar_run (n : Nat) : (∃ c : Char, c.toNat = n ∧ utf8WriteChar n = .ok (utf8EncodeChar c)) ∨
    (¬ n.isValidChar ∧ utf8WriteChar n = .error .assertion) := by
  by_cases hn : n.isValidChar
  · obtain ⟨c, rfl⟩ := exists_toNat hn
    exact .inl ⟨c, rfl, utf8WriteChar_char c⟩
  · refine .inr ⟨hn, ?_⟩
    unfold Nat.isValidChar at hn
    rw [utf8WriteChar, if_neg (by omega)]

/-- The bits that `mask` leaves of a byte. -/
theorem and_ofNat {i n a : Nat} (hn : n < 2 ^ i) (hlt : n + 2 ^ i * a < 256) :
    (UInt8.ofNat (n + 2 ^ i * a)).toNat &&& (2 ^ i - 1) = n := by
  rw [UInt8.toNat_ofNat', Nat.mod_eq_of_lt hlt, and_mask, Nat.add_mul_mod_self_left, Nat.mod_eq_of_lt hn]

theorem utf8ReadChar_char (c : Char) (rest : Str) :
    utf8ReadChar (utf8EncodeChar c ++ rest) = .ok (c.toNat, (utf8EncodeChar c).length) := by
  have hv := toNat_valid c
  have hz := utf8ValidateCz_encode c rest
  have hne := length_utf8EncodeChar_ne c
  rw [utf8ReadChar, hz]
  simp only [bind, Except.bind, if_neg hne]
  clear hz hne
  rw [utf8EncodeChar_toNat]
  generalize c.toNat = v at hv
  have htail (n : Nat) : (UInt8.ofNat (n % 64 + 0x80)).toNat &&& 0x3F = n % 64 :=
    and_ofNat (i := 6) (a := 2) (Nat.mod_lt n (by decide)) (by omega)
  by_cases h1 : v ≤ 0x7F
  · rw [if_pos h1]
    simp only [List.cons_append, byteAt_cons_zero, UInt8.le_iff_toNat_le, UInt8.toNat_ofNat', UInt8.reduceToNat]
    rw [if_pos (by omega), Nat.mod_eq_of_lt (by omega)]
    rfl
  by_cases h2 : v ≤ 0x7FF
  · have hlead : (UInt8.ofNat (v / 64 % 32 + 0xC0)).toNat &&& 0x1F = v / 64 % 32 :=
      and_ofNat (i := 5) (a := 6) (Nat.mod_lt _ (by decide)) (by omega)
    have hor : (v / 64 % 32) <<< 6 ||| v % 64 = v := by
      rw [Nat.shiftLeft_eq, Nat.mul_comm, or_eq_add (by omega)]
      omega
    rw [if_neg h1, if_pos h2]
    simp only [List.cons_append, byteAt_cons_zero, byteAt_cons_succ, hlead, htail, hor]
    simp only [UInt8.le_iff_toNat_le, UInt8.toNat_ofNat', UInt8.reduceToNat]
    rw [if_neg (by omega), if_pos (by omega)]
    rfl
  by_cases h3 : v ≤ 0xFFFF
  · have hlead : (UInt8.ofNat (v / 4096 % 16 + 0xE0)).toNat &&& 0xF = v / 4096 % 16 :=
      and_ofNat (i := 4) (a := 14) (Nat.mod_lt _ (by decide)) (by omega)
    have hor : (v / 4096 % 16) <<< 12 ||| (v / 64 % 64) <<< 6 ||| v % 64 = v := by
      simp only [Nat.shiftLeft_eq]
      rw [Nat.or_assoc, Nat.mul_comm (v / 64 % 64), or_eq_add (by omega), Nat.mul_comm, or_eq_add (by omega)]
      omega
    rw [if_neg h1, if_neg h2, if_pos h3]
    simp only [List.cons_append, byteAt_cons_zero, byteAt_cons_succ, hlead, htail, hor]
    simp only [UInt8.le_iff_toNat_le, UInt8.toNat_ofNat', UInt8.reduceToNat]
    rw [if_neg (by omega), if_neg (by omega), if_pos (by omega)]
    rfl
  · have hlead : (UInt8.ofNat (v / 262144 % 8 + 0xF0)).toNat &&& 0x7 = v / 262144 % 8 :=
      and_ofNat (i := 3) (a := 30) (Nat.mod_lt _ (by decide)) (by omega)
    have hor : (v / 262144 % 8) <<< 18 ||| (v / 4096 % 64) <<< 12 ||| (v / 64 % 64) <<< 6 ||| v % 64 = v := by
      simp only [Nat.shiftLeft_eq]
      rw [Nat.or_assoc, Nat.mul_comm (v / 64 % 64), or_eq_add (by omega), Nat.or_assoc, Nat.mul_comm (v / 4096 % 64),
        or_eq_add (by omega), Nat.mul_comm, or_eq_add (by omega)]
      omega
    rw [if_neg h1, if_neg h2, if_neg h3]
    simp only [List.cons_append, byteAt_cons_zero, byteAt_cons_succ, hlead, htail, hor]
    simp only [UInt8.le_iff_toNat_le, UInt8.toNat_ofNat', UInt8.reduceToNat]
    rw [if_neg (by omega), if_neg (by omega), if_neg (by omega)]
    rfl

/-! ## Surrogates and hexadecimal digits -/

theorem fromSurrogatePair_eq {uc lc : Nat} (huc : 0xD800 ≤ uc ∧ uc ≤ 0xDBFF) (hlc : 0xDC00 ≤ lc ∧ lc ≤ 0xDFFF) :
    fromSurrogatePair uc lc = some (0x10000 + (uc - 0xD800) * 0x400 + (lc - 0xDC00)) := by
  have huc' : uc &&& 0x3FF = uc - 0xD800 := (and_mask uc 10).trans (by omega)
  have hlc' : lc &&& 0x3FF = lc - 0xDC00 := (and_mask lc 10).trans (by omega)
  rw [fromSurrogatePair, if_pos ⟨huc.1, huc.2, hlc⟩, huc', hlc', Nat.shiftLeft_eq, Nat.mul_comm, or_eq_add (by omega)]
  exact congrArg some (by omega)

theorem fromSurrogatePair_none {uc lc : Nat}
    (h : ¬ ((0xD800 ≤ uc ∧ uc ≤ 0xDBFF) ∧ 0xDC00 ≤ lc ∧ lc ≤ 0xDFFF)) : fromSurrogatePair uc lc = none := by
  rw [fromSurrogatePair, if_neg (by omega)]

theorem toSurrogatePair_eq {n : Nat} (h : 0x10000 ≤ n ∧ n ≤ 0x10FFFF) : toSurrogatePair n =
    .ok (0xD800 + (n - 0x10000) / 0x400, 0xDC00 + (n - 0x10000) % 0x400) := by
  have hhigh : (n - 0x10000) >>> 10 &&& 0x3FF = (n - 0x10000) / 0x400 := by
    rw [Nat.shiftRight_eq_div_pow]
    exact (and_mask _ 10).trans (by omega)
  have hlow : n - 0x10000 &&& 0x3FF = (n - 0x10000) % 0x400 := and_mask _ 10
  have huc : (n - 0x10000) / 0x400 ||| 0xD800 = 0xD800 + (n - 0x10000) / 0x400 := by
    rw [Nat.or_comm]
    exact or_eq_add (i := 10) (a := 54) (by omega)
  have hlc : (n - 0x10000) % 0x400 ||| 0xDC00 = 0xDC00 + (n - 0x10000) % 0x400 := by
    rw [Nat.or_comm]
    exact or_eq_add (i := 10) (a := 55) (by omega)
  rw [toSurrogatePair, if_pos h]
  dsimp only
  rw [hhigh, hlow, huc, hlc]

theorem hexValue_hexDigit {n : Nat} (h : n < 16) : hexValue (hexDigit n) = some n := by
  have hall : ∀ n : Fin 16, hexValue (hexDigit n) = some n.val := by decide
  exact hall ⟨n, h⟩

theorem hex_writeHex16 {n : Nat} (h : n < 2 ^ 16) : Hex (writeHex16 n) n := by
  have hdigit (k : Nat) : n >>> k &&& 0xF = n / 2 ^ k % 16 := by
    rw [Nat.shiftRight_eq_div_pow]
    exact and_mask _ 4
  have hlast : n &&& 0xF = n % 16 := and_mask n 4
  have hn : (((n / 2 ^ 12 % 16 * 16 + n / 2 ^ 8 % 16) * 16 + n / 2 ^ 4 % 16) * 16 + n % 16) = n := by omega
  rw [writeHex16, hdigit, hdigit, hdigit, hlast]
  conv => right; rw [← hn]
  exact .mk (hexValue_hexDigit (Nat.mod_lt _ (by decide))) (hexValue_hexDigit (Nat.mod_lt _ (by decide)))
    (hexValue_hexDigit (Nat.mod_lt _ (by decide))) (hexValue_hexDigit (Nat.mod_lt _ (by decide)))

/-! ## Round trips -/

/-- In a string a character is found as long as it is read, and it is written with the bytes it was read from. -/
theorem utf8ReadChar_writes {s : Str} (h0 : 0 ∈ s) :
    (utf8ValidateCz s = .ok 0 ∧ utf8ReadChar s = .error .assertion) ∨
    ∃ n len, 0 < len ∧ utf8ValidateCz s = .ok len ∧ utf8ReadChar s = .ok (n, len) ∧
      utf8WriteChar n = .ok (s.take len) := by
  rcases utf8ValidateCz_run h0 with hz | ⟨bytes, rest, hbytes, rfl, hz⟩
  · left
    refine ⟨hz, ?_⟩
    rw [utf8ReadChar, hz]
    rfl
  · right
    obtain ⟨c, rfl⟩ := charBytes_iff.1 hbytes
    refine ⟨c.toNat, _, Nat.pos_of_ne_zero (length_utf8EncodeChar_ne c), hz, utf8ReadChar_char c rest, ?_⟩
    rw [List.take_left, utf8WriteChar_char]

/-- `é` -/
theorem utf8ReadChar_writes_accented :
    (utf8ValidateCz [0xC3, 0xA9, 0] = .ok 0 ∧ utf8ReadChar [0xC3, 0xA9, 0] = .error .assertion) ∨
    ∃ n len, 0 < len ∧ utf8ValidateCz [0xC3, 0xA9, 0] = .ok len ∧ utf8ReadChar [0xC3, 0xA9, 0] = .ok (n, len) ∧
      utf8WriteChar n = .ok (([0xC3, 0xA9, 0] : Str).take len) := utf8ReadChar_writes (by decide)

/-- The numbers of characters are written, and what is written for one is read as that number. -/
theorem utf8WriteChar_reads (n : Nat) (rest : Str) :
    (¬ n.isValidChar ∧ utf8WriteChar n = .error .assertion) ∨
    (n.isValidChar ∧ ∃ bytes, utf8WriteChar n = .ok bytes ∧ utf8ReadChar (bytes ++ rest) = .ok (n, bytes.length)) := by
  rcases utf8WriteChar_run n with ⟨c, rfl, hrun⟩ | hbad
  · exact .inr ⟨c.valid, _, hrun, utf8ReadChar_char c rest⟩
  · exact .inl hbad

/-- The surrogates of a character beyond U+FFFF give the character, and no others do. -/
theorem fromSurrogatePair_iff (uc lc n : Nat) : fromSurrogatePair uc lc = some n ↔ toSurrogatePair n = .ok (uc, lc) := by
  constructor
  · intro hfrom
    by_cases hpair : (0xD800 ≤ uc ∧ uc ≤ 0xDBFF) ∧ 0xDC00 ≤ lc ∧ lc ≤ 0xDFFF
    · rw [fromSurrogatePair_eq hpair.1 hpair.2] at hfrom
      obtain rfl := Option.some.inj hfrom
      rw [toSurrogatePair_eq (by omega)]
      exact congrArg Except.ok (Prod.ext (by dsimp only; omega) (by dsimp only; omega))
    · rw [fromSurrogatePair_none hpair] at hfrom
      cases hfrom
  · intro hto
    by_cases hn : 0x10000 ≤ n ∧ n ≤ 0x10FFFF
    · rw [toSurrogatePair_eq hn] at hto
      obtain ⟨rfl, rfl⟩ := Prod.mk.inj (Except.ok.inj hto)
      rw [fromSurrogatePair_eq (by omega) (by omega)]
      exact congrArg some (by omega)
    · rw [toSurrogatePair, if_neg hn] at hto
      cases hto

end CodiusSandbox.JsonText
