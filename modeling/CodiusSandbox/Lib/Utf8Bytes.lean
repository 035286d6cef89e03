import CodiusSandbox.Lib.Utf8
/-!
# The table of UTF-8

`CharBytes` lists the byte sequences that encode a character by the ranges of their bytes, and a list of bytes
is one of them when it is the encoding of a character (`charBytes_iff`).
-/
namespace Utf8
open String (utf8EncodeChar)

/-- A byte inside a character. -/
def Tail (b : UInt8) : Prop := 0x80 ≤ b.toNat ∧ b.toNat ≤ 0xBF

/-- The bytes of a character, by the table of the standard. -/
inductive CharBytes : List UInt8 → Prop
  | one {a : UInt8} (ha : a.toNat ≤ 0x7F) : CharBytes [a]
  | two {a b : UInt8} (ha : 0xC2 ≤ a.toNat ∧ a.toNat ≤ 0xDF) (hb : Tail b) : CharBytes [a, b]
  | three {a b c : UInt8} (ha : 0xE0 ≤ a.toNat ∧ a.toNat ≤ 0xEF) (hb : Tail b) (hc : Tail c)
      (hlow : a.toNat = 0xE0 → 0xA0 ≤ b.toNat) (hhigh : a.toNat = 0xED → b.toNat ≤ 0x9F) : CharBytes [a, b, c]
  | four {a b c d : UInt8} (ha : 0xF0 ≤ a.toNat ∧ a.toNat ≤ 0xF4) (hb : Tail b) (hc : Tail c) (hd : Tail d)
      (hlow : a.toNat = 0xF0 → 0x90 ≤ b.toNat) (hhigh : a.toNat = 0xF4 → b.toNat ≤ 0x8F) : CharBytes [a, b, c, d]

theorem Tail.ne_zero {b : UInt8} (h : Tail b) : b ≠ 0 := by
  rintro rfl
  exact absurd h.1 (by decide)

theorem toNat_valid (c : Char) : c.toNat < 0xD800 ∨ 0xDFFF < c.toNat ∧ c.toNat < 0x110000 := c.valid

/-- The bytes by the number of the character. -/
theorem utf8EncodeChar_toNat (c : Char) : utf8EncodeChar c =
    if c.toNat ≤ 0x7F then [UInt8.ofNat c.toNat]
    else if c.toNat ≤ 0x7FF then [UInt8.ofNat (c.toNat / 64 % 32 + 0xC0), UInt8.ofNat (c.toNat % 64 + 0x80)]
    else if c.toNat ≤ 0xFFFF then
      [UInt8.ofNat (c.toNat / 4096 % 16 + 0xE0), UInt8.ofNat (c.toNat / 64 % 64 + 0x80), UInt8.ofNat (c.toNat % 64 + 0x80)]
    else
      [UInt8.ofNat (c.toNat / 262144 % 8 + 0xF0), UInt8.ofNat (c.toNat / 4096 % 64 + 0x80),
        UInt8.ofNat (c.toNat / 64 % 64 + 0x80), UInt8.ofNat (c.toNat % 64 + 0x80)] := rfl

theorem utf8EncodeChar_ascii {c : Char} (h : c.toNat ≤ 0x7F) : utf8EncodeChar c = [UInt8.ofNat c.toNat] := by
  rw [utf8EncodeChar_toNat, if_pos h]

/-- An ASCII byte in front is a character of its own. -/
theorem toNat_of_ascii {c : Char} {b : UInt8} {rest bytes : List UInt8} (h : utf8EncodeChar c ++ rest = b :: bytes)
    (hb : b.toNat ≤ 0x7F) : c.toNat = b.toNat := by
  have hv := toNat_valid c
  by_cases h1 : c.toNat ≤ 0x7F
  · rw [utf8EncodeChar_ascii h1] at h
    have hfirst := congrArg UInt8.toNat (List.cons.inj h).1
    rw [UInt8.toNat_ofNat'] at hfirst
    omega
  · rw [utf8EncodeChar_toNat, if_neg h1] at h
    split at h
    · have hfirst := congrArg UInt8.toNat (List.cons.inj h).1
      rw [UInt8.toNat_ofNat'] at hfirst
      omega
    split at h
    · have hfirst := congrArg UInt8.toNat (List.cons.inj h).1
      rw [UInt8.toNat_ofNat'] at hfirst
      omega
    · have hfirst := congrArg UInt8.toNat (List.cons.inj h).1
      rw [UInt8.toNat_ofNat'] at hfirst
      omega

/-- No byte is below the number of its character, up to the first byte that is not ASCII. -/
theorem le_of_mem_utf8EncodeChar {c : Char} {n : Nat} (hn : n ≤ 0x80) (h : n ≤ c.toNat) :
    ∀ b ∈ utf8EncodeChar c, n ≤ b.toNat := by
  have hv := toNat_valid c
  rw [utf8EncodeChar_toNat]
  generalize c.toNat = v at hv h
  split
  · simp only [List.mem_singleton, forall_eq, UInt8.toNat_ofNat']
    omega
  split
  · simp only [List.mem_cons, List.not_mem_nil, or_false, forall_eq_or_imp, forall_eq, UInt8.toNat_ofNat']
    omega
  split
  · simp only [List.mem_cons, List.not_mem_nil, or_false, forall_eq_or_imp, forall_eq, UInt8.toNat_ofNat']
    omega
  · simp only [List.mem_cons, List.not_mem_nil, or_false, forall_eq_or_imp, forall_eq, UInt8.toNat_ofNat']
    omega

theorem charBytes_utf8EncodeChar (c : Char) : CharBytes (utf8EncodeChar c) := by
  have hv := toNat_valid c
  rw [utf8EncodeChar_toNat]
  generalize c.toNat = v at hv
  split
  · apply CharBytes.one
    rw [UInt8.toNat_ofNat']
    omega
  split
  · apply CharBytes.two <;> simp only [Tail, UInt8.toNat_ofNat'] <;> omega
  split
  · apply CharBytes.three <;> simp only [Tail, UInt8.toNat_ofNat'] <;> omega
  · apply CharBytes.four <;> simp only [Tail, UInt8.toNat_ofNat'] <;> omega

theorem toNat_ofNat {n : Nat} (h : n.isValidChar) : (Char.ofNat n).toNat = n := by
  rw [Char.ofNat, dif_pos h]
  rfl

theorem exists_toNat {n : Nat} (h : n.isValidChar) : ∃ c : Char, c.toNat = n := ⟨Char.ofNat n, toNat_ofNat h⟩

theorem CharBytes.exists_char {bytes : List UInt8} (h : CharBytes bytes) : ∃ c, utf8EncodeChar c = bytes := by
  cases h with
  | @one a ha =>
    have hvalid : a.toNat.isValidChar := .inl (by omega)
    refine ⟨Char.ofNat a.toNat, ?_⟩
    rw [utf8EncodeChar_toNat, toNat_ofNat hvalid, if_pos ha, UInt8.ofNat_toNat]
  | @two a b ha hb =>
    simp only [Tail] at hb
    have hvalid : ((a.toNat - 192) * 64 + (b.toNat - 128)).isValidChar := .inl (by omega)
    obtain ⟨c', hc'⟩ := exists_toNat hvalid
    refine ⟨c', ?_⟩
    rw [utf8EncodeChar_toNat, hc', if_neg (by omega), if_pos (by omega)]
    simp only [List.cons.injEq, ← UInt8.toNat_inj, UInt8.toNat_ofNat', and_true]
    omega
  | @three a b c ha hb hc hlow hhigh =>
    simp only [Tail] at hb hc
    have hvalid : ((a.toNat - 224) * 4096 + (b.toNat - 128) * 64 + (c.toNat - 128)).isValidChar := by
      unfold Nat.isValidChar
      omega
    obtain ⟨c', hc'⟩ := exists_toNat hvalid
    refine ⟨c', ?_⟩
    rw [utf8EncodeChar_toNat, hc', if_neg (by omega), if_neg (by omega), if_pos (by omega)]
    simp only [List.cons.injEq, ← UInt8.toNat_inj, UInt8.toNat_ofNat', and_true]
    omega
  | @four a b c d ha hb hc hd hlow hhigh =>
    simp only [Tail] at hb hc hd
    have hvalid : ((a.toNat - 240) * 262144 + (b.toNat - 128) * 4096 + (c.toNat - 128) * 64 + (d.toNat - 128)).isValidChar := by
      unfold Nat.isValidChar
      omega
    obtain ⟨c', hc'⟩ := exists_toNat hvalid
    refine ⟨c', ?_⟩
    rw [utf8EncodeChar_toNat, hc', if_neg (by omega), if_neg (by omega), if_neg (by omega)]
    simp only [List.cons.injEq, ← UInt8.toNat_inj, UInt8.toNat_ofNat', and_true]
    omega

theorem charBytes_iff {bytes : List UInt8} : CharBytes bytes ↔ ∃ c, utf8EncodeChar c = bytes := by
  constructor
  · exact CharBytes.exists_char
  · rintro ⟨c, rfl⟩
    exact charBytes_utf8EncodeChar c

theorem length_utf8EncodeChar_ne (c : Char) : (utf8EncodeChar c).length ≠ 0 := by
  rw [String.length_utf8EncodeChar]
  exact Nat.ne_of_gt c.utf8Size_pos

/-- The bytes are the encoding of some text. -/
def IsUtf8 (bytes : List UInt8) : Prop := ∃ cs, encode cs = bytes

theorem IsUtf8.nil : IsUtf8 [] := ⟨[], rfl⟩

theorem isUtf8_append_iff {c : Char} {bytes : List UInt8} : IsUtf8 (utf8EncodeChar c ++ bytes) ↔ IsUtf8 bytes := by
  constructor
  · rintro ⟨cs, hcs⟩
    cases cs with
    | nil =>
      obtain ⟨first, inside, heq, -, -⟩ := utf8EncodeChar_eq c
      simp [heq] at hcs
    | cons c' cs =>
      rw [encode_cons] at hcs
      obtain rfl := eq_of_prefix hcs
      exact ⟨cs, List.append_cancel_left hcs⟩
  · rintro ⟨cs, rfl⟩
    exact ⟨c :: cs, encode_cons c cs⟩

/-- A text that is not empty begins with a character. -/
theorem IsUtf8.exists_char {b : UInt8} {bytes : List UInt8} (h : IsUtf8 (b :: bytes)) :
    ∃ c rest, utf8EncodeChar c ++ rest = b :: bytes ∧ IsUtf8 rest := by
  obtain ⟨cs, hcs⟩ := h
  cases cs with
  | nil => cases hcs
  | cons c cs => exact ⟨c, encode cs, hcs, cs, rfl⟩

end Utf8
