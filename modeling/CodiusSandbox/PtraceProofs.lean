import CodiusSandbox.Ptrace
/-!
# When the memory helpers return, and what they leave in the buffer

`peekData` asserts that the read went well, so a helper fails exactly when one of the words it
*reads* is not mapped: all words of the range for `copyData` (`WordsMapped`), the words up to the one
that holds the first NUL for `copyString` (`Readable`), and only the last, partial word for
`writeData`, which pokes the others without looking (`TailMapped`).
-/
namespace CodiusSandbox

open Wp

/-! ## Addresses -/

theorem offset_offset (addr : Address) (i j : Nat) :
    offset (offset addr i) j = offset addr (i + j) := by
  simp [offset, BitVec.ofNat_add, BitVec.add_assoc]

@[simp] theorem offset_zero (addr : Address) : offset addr 0 = addr := by simp [offset]

theorem usub_of_le {a b : Nat} (h : b ≤ a) (ha : a < 2 ^ 64) : usub a b = a - b := by
  unfold usub; omega

theorem WordMapped.byte {m : Memory} {addr : Address} (h : WordMapped m addr) {j : Nat} (hj : j < 8) :
    m (offset addr j) = some (byteAt m (offset addr j)) := by
  have := h j hj
  simp only [byteAt]
  cases e : m (offset addr j) with
  | none => simp [e] at this
  | some b => rfl

/-! ## `peekData` -/

theorem peekData_mapped {addr : Address} {s : Ptrace} (h : WordMapped s.mem addr) :
    peekData addr s = .ok (fun j => byteAt s.mem (offset addr j)) { s with errno := 0 } := by
  rw [peekData, bind_get, if_pos h, bind_set]
  rfl

theorem peekData_unmapped {addr : Address} {s : Ptrace} (h : ¬ WordMapped s.mem addr) :
    peekData addr s = .error .assertion { s with errno := EIO } := by
  rw [peekData, bind_get, if_neg h, bind_set]
  rfl

/-! ## `copyData` -/

/-- Every word that starts below `addr + length` is mapped. -/
def WordsMapped (m : Memory) (addr : Address) (length : Nat) : Prop :=
  ∀ i < length, 8 ∣ i → WordMapped m (offset addr i)

instance (m : Memory) (addr : Address) (length : Nat) : Decidable (WordsMapped m addr length) :=
  inferInstanceAs (Decidable (∀ i < length, 8 ∣ i → WordMapped m (offset addr i)))

/-- The bytes of the words that a range of `length` bytes takes. -/
def wholeWords (length : Nat) : Nat := 8 * ((length + 7) / 8)

/-- `buf` behind a `copyData`, from the byte `i` on. -/
def copiedFrom (m : Memory) (addr : Address) (length i : Nat) (buf : Buffer) : Buffer := fun k =>
  if i ≤ k ∧ k < wholeWords length then byteAt m (offset addr k) else buf k

/-- One word more. -/
theorem copiedFrom_word {m : Memory} {addr : Address} {length i : Nat} {buf : Buffer} (h8 : 8 ∣ i) (hi : i < length) :
    copiedFrom m addr length (i + 8) (putWord buf i fun j => byteAt m (offset (offset addr i) j)) =
      copiedFrom m addr length i buf := by
  funext k
  unfold copiedFrom putWord wholeWords
  by_cases hk : i + 8 ≤ k
  · have hword : ¬ (i ≤ k ∧ k < i + 8) := by omega
    have hlo : i ≤ k := by omega
    rw [if_neg hword]
    simp only [hk, hlo, true_and]
  · by_cases hin : i ≤ k
    · have hlt : k < 8 * ((length + 7) / 8) := by omega
      have hsum : i + (k - i) = k := by omega
      rw [if_neg (by omega), if_pos (by omega), if_pos ⟨hin, hlt⟩]
      dsimp only
      rw [offset_offset, hsum]
    · simp only [hk, hin, false_and, if_false]

theorem copiedFrom_done {m : Memory} {addr : Address} {length i : Nat} {buf : Buffer} (h8 : 8 ∣ i) (hi : length ≤ i) :
    copiedFrom m addr length i buf = buf := by
  funext k
  exact if_neg (by unfold wholeWords; omega)

/-- From `i` on, the loop copies the words, or stops at one that is not mapped. -/
theorem copyDataLoop_spec (addr : Address) (length : Nat) :
    ∀ (fuel i : Nat) (buf : Buffer) (s : Ptrace), length - i ≤ fuel → 8 ∣ i →
      ((∀ k, i ≤ k → k < length → 8 ∣ k → WordMapped s.mem (offset addr k)) →
        ∃ e, copyDataLoop addr length fuel i buf s = .ok (copiedFrom s.mem addr length i buf) { s with errno := e }) ∧
      (¬ (∀ k, i ≤ k → k < length → 8 ∣ k → WordMapped s.mem (offset addr k)) →
        copyDataLoop addr length fuel i buf s = .error .assertion { s with errno := EIO })
  | 0, i, buf, s, hf, hi => by
    refine ⟨fun _ => ⟨s.errno, ?_⟩, fun h => absurd (fun k hik hkl => ?_) h⟩
    · rw [copiedFrom_done hi (by omega)]
      rfl
    · omega
  | fuel + 1, i, buf, s, hf, hi => by
    unfold copyDataLoop
    by_cases hl : i < length
    · rw [if_pos hl]
      by_cases hm : WordMapped s.mem (offset addr i)
      · rw [bind_ok (peekData_mapped hm)]
        obtain ⟨ih1, ih2⟩ := copyDataLoop_spec addr length fuel (i + 8)
          (putWord buf i fun j => byteAt s.mem (offset (offset addr i) j)) { s with errno := 0 }
          (by omega) (by omega)
        refine ⟨fun h => ?_, fun h => ?_⟩
        · obtain ⟨e, he⟩ := ih1 fun k hk => h k (by omega)
          exact ⟨e, by rw [he, copiedFrom_word hi hl]⟩
        · refine ih2 fun h' => h fun k hik hkl h8 => ?_
          by_cases hki : k = i
          · subst hki; exact hm
          · exact h' k (by omega) hkl h8
      · rw [bind_error (peekData_unmapped hm)]
        exact ⟨fun h => absurd (h i (Nat.le_refl i) hl hi) hm, fun _ => rfl⟩
    · rw [if_neg hl, copiedFrom_done hi (by omega)]
      exact ⟨fun _ => ⟨s.errno, rfl⟩, fun h => absurd (fun k _ _ => by omega) h⟩

theorem copyData_run {addr : Address} {length : Nat} (buf : Buffer) {s : Ptrace} (h : WordsMapped s.mem addr length) :
    ∃ r e, copyData addr length buf s = .ok (copiedFrom s.mem addr length 0 buf, r) { s with errno := e } := by
  obtain ⟨e, he⟩ := (copyDataLoop_spec addr length length 0 buf s (by omega) (by omega)).1
    fun k _ hk h8 => h k hk h8
  exact ⟨_, e, by rw [copyData, bind_ok he]; rfl⟩

theorem copyData_unmapped {addr : Address} {length : Nat} (buf : Buffer) {s : Ptrace}
    (h : ¬ WordsMapped s.mem addr length) :
    copyData addr length buf s = .error .assertion { s with errno := EIO } := by
  rw [copyData, bind_error ((copyDataLoop_spec addr length length 0 buf s (by omega) (by omega)).2
    fun h' => h fun k hk h8 => h' k (by omega) hk h8)]

/-! ## `copyString` -/

/-- No byte below `addr + n` is a NUL. -/
def NoNul (m : Memory) (addr : Address) (n : Nat) : Prop := ∀ j < n, m (offset addr j) ≠ some 0

instance (m : Memory) (addr : Address) (n : Nat) : Decidable (NoNul m addr n) :=
  inferInstanceAs (Decidable (∀ j < n, m (offset addr j) ≠ some 0))

/-- Every word `copyString` reads is mapped: those up to the one with the first NUL. -/
def Readable (m : Memory) (addr : Address) (maxLength : Nat) : Prop :=
  ∀ i < maxLength, 8 ∣ i → NoNul m addr i → WordMapped m (offset addr i)

instance (m : Memory) (addr : Address) (n : Nat) : Decidable (Readable m addr n) :=
  inferInstanceAs (Decidable (∀ i < n, 8 ∣ i → NoNul m addr i → WordMapped m (offset addr i)))

theorem copyUntilNul_snd (d : Buffer) (maxLength i : Nat) (hi : i + 8 ≤ maxLength) :
    ∀ (n : Nat) (buf : Buffer), n ≤ 8 →
      ((copyUntilNul d maxLength i n buf).2 = true ↔ ∃ j, 8 - n ≤ j ∧ j < 8 ∧ d j = 0)
  | 0, buf, _ => by
    simp only [copyUntilNul, Bool.false_eq_true, false_iff, not_exists, not_and]
    intro j; omega
  | n + 1, buf, hn => by
    have hlt : i + (7 - n) < maxLength := by omega
    simp only [copyUntilNul, if_pos hlt]
    by_cases h0 : d (7 - n) = 0
    · rw [if_pos h0]
      exact ⟨fun _ => ⟨7 - n, by omega, by omega, h0⟩, fun _ => rfl⟩
    · rw [if_neg h0, copyUntilNul_snd d maxLength i hi n _ (by omega)]
      constructor
      · rintro ⟨j, h1, h2, h3⟩; exact ⟨j, by omega, h2, h3⟩
      · rintro ⟨j, h1, h2, h3⟩
        refine ⟨j, ?_, h2, h3⟩
        by_cases hj : j = 7 - n
        · subst hj; exact absurd h3 h0
        · omega

theorem copyUntilNul_fst (d : Buffer) (maxLength i : Nat) (hi : i + 8 ≤ maxLength) :
    ∀ (n : Nat) (buf : Buffer), n ≤ 8 →
      (∀ k, (k < i + (8 - n) ∨ i + 8 ≤ k) → (copyUntilNul d maxLength i n buf).1 k = buf k) ∧
      (∀ k, i + (8 - n) ≤ k → k < i + 8 → (∀ j, 8 - n ≤ j → j < k - i → d j ≠ 0) →
        (copyUntilNul d maxLength i n buf).1 k = d (k - i))
  | 0, buf, _ => ⟨fun k _ => rfl, fun k h1 h2 => by omega⟩
  | n + 1, buf, hn => by
    have hlt : i + (7 - n) < maxLength := by omega
    simp only [copyUntilNul, if_pos hlt]
    by_cases h0 : d (7 - n) = 0
    · rw [if_pos h0]
      refine ⟨fun k hk => if_neg (by omega), fun k h1 h2 hz => ?_⟩
      have hk : k = i + (7 - n) := by
        refine Decidable.byContradiction fun hne => ?_
        exact hz (7 - n) (by omega) (by omega) h0
      subst hk
      simp
    · rw [if_neg h0]
      obtain ⟨ih1, ih2⟩ := copyUntilNul_fst d maxLength i hi n
        (fun k => if k = i + (7 - n) then d (7 - n) else buf k) (by omega)
      refine ⟨fun k hk => ?_, fun k h1 h2 hz => ?_⟩
      · rw [ih1 k (by omega)]; exact if_neg (by omega)
      · by_cases hk : k = i + (7 - n)
        · subst hk
          rw [ih1 _ (by omega)]
          simp
        · exact ih2 k (by omega) h2 fun j hj1 hj2 => hz j (by omega) hj2

/-- What a copy of the string at `addr` has put in the buffer: up to and including the first NUL
of the first `maxLength` bytes, the child's bytes. -/
def CopiedString (m : Memory) (addr : Address) (n : Nat) (buf : Buffer) : Prop :=
  ∀ k < n, NoNul m addr k → buf k = byteAt m (offset addr k)

theorem NoNul.word {m : Memory} {addr : Address} {i : Nat} (h : NoNul m addr i)
    (hm : WordMapped m (offset addr i)) (hz : ∀ j < 8, byteAt m (offset addr (i + j)) ≠ 0) :
    NoNul m addr (i + 8) := by
  intro j hj
  by_cases hji : j < i
  · exact h j hji
  · have hb := hm.byte (j := j - i) (by omega)
    rw [offset_offset, show i + (j - i) = j by omega] at hb
    have := hz (j - i) (by omega)
    rw [show i + (j - i) = j by omega] at this
    rw [hb]
    simpa using this

theorem not_noNul_of_byte {m : Memory} {addr : Address} {i j k : Nat}
    (hm : WordMapped m (offset addr i)) (hj : j < 8) (h0 : byteAt m (offset (offset addr i) j) = 0)
    (hk : i + j < k) : ¬ NoNul m addr k := by
  intro h
  have hb := hm.byte hj
  rw [h0, offset_offset] at hb
  exact h _ hk hb

/-- The state of the loop at `i`: whole words without a NUL, all of them read and copied. -/
structure CopiedWords (m : Memory) (addr : Address) (buf : Buffer) (i : Nat) : Prop where
  aligned : 8 ∣ i
  noNul : NoNul m addr i
  mapped : ∀ k < i, 8 ∣ k → WordMapped m (offset addr k)
  copied : ∀ k < i, buf k = byteAt m (offset addr k)

/-- A word without a NUL extends the copied prefix. -/
theorem CopiedWords.next {m : Memory} {addr : Address} {buf buf' : Buffer} {i : Nat}
    (h : CopiedWords m addr buf i) (hm : WordMapped m (offset addr i))
    (hz : ∀ j < 8, byteAt m (offset addr (i + j)) ≠ 0)
    (hlo : ∀ k < i, buf' k = buf k)
    (hhi : ∀ k, i ≤ k → k < i + 8 → buf' k = byteAt m (offset addr k)) :
    CopiedWords m addr buf' (i + 8) where
  aligned := by have := h.aligned; omega
  noNul := h.noNul.word hm hz
  mapped k hk h8 := by
    by_cases hki : k < i
    · exact h.mapped k hki h8
    · have := h.aligned
      rw [show k = i by omega]; exact hm
  copied k hk := by
    by_cases hki : k < i
    · rw [hlo k hki, h.copied k hki]
    · exact hhi k (by omega) hk

/-- All words below the one with a NUL are mapped, so is that one, and no later one is read. -/
theorem CopiedWords.readable {m : Memory} {addr : Address} {buf : Buffer} {i n : Nat}
    (h : CopiedWords m addr buf i) (hm : WordMapped m (offset addr i))
    (hz : ∃ j < 8, byteAt m (offset (offset addr i) j) = 0) : Readable m addr n := by
  intro k _ h8 hk
  have := h.aligned
  obtain ⟨j, hj, h0⟩ := hz
  by_cases hki : k < i
  · exact h.mapped k hki h8
  · by_cases hke : k = i
    · subst hke; exact hm
    · exact absurd hk (not_noNul_of_byte hm hj h0 (by omega))

/-- The word with the first NUL completes the string. -/
theorem CopiedWords.string {m : Memory} {addr : Address} {buf buf' : Buffer} {i n : Nat}
    (h : CopiedWords m addr buf i) (hm : WordMapped m (offset addr i))
    (hz : ∃ j < 8, byteAt m (offset (offset addr i) j) = 0)
    (hlo : ∀ k < i, buf' k = buf k)
    (hhi : ∀ k, i ≤ k → k < i + 8 → (∀ j, j < k - i → byteAt m (offset (offset addr i) j) ≠ 0) →
      buf' k = byteAt m (offset addr k)) : CopiedString m addr n buf' := by
  intro k _ hnn
  by_cases hki : k < i
  · rw [hlo k hki, h.copied k hki]
  · have hz' : ∀ j, j < k - i → j < 8 → byteAt m (offset (offset addr i) j) ≠ 0 :=
      fun j hj hj8 h0 => not_noNul_of_byte hm hj8 h0 (by omega) hnn
    have hk8 : k < i + 8 := by
      obtain ⟨j, hj, h0⟩ := hz
      refine Decidable.byContradiction fun hge => hz' j (by omega) hj h0
    exact hhi k (by omega) hk8 fun j hj => hz' j hj (by omega)

/-- How the loop of `copyString` ends: behind a NUL, before the last partial word, or at a word
that is not mapped. -/
theorem copyStringLoop_spec (addr : Address) (maxLength : Nat) (hmax : maxLength < 2 ^ 64) :
    ∀ (fuel i : Nat) (buf : Buffer) (s : Ptrace), maxLength - i ≤ fuel → i < maxLength →
      CopiedWords s.mem addr buf i →
      (∃ i' buf', copyStringLoop addr maxLength fuel i buf s = .ok (i', true, buf') { s with errno := 0 } ∧
        Readable s.mem addr maxLength ∧ CopiedString s.mem addr maxLength buf' ∧
        ∀ k, maxLength ≤ k → buf' k = buf k) ∨
      (∃ i' buf' e, copyStringLoop addr maxLength fuel i buf s = .ok (i', false, buf') { s with errno := e } ∧
        i' < maxLength ∧ maxLength ≤ i' + 8 ∧ CopiedWords s.mem addr buf' i' ∧
        ∀ k, maxLength ≤ k → buf' k = buf k) ∨
      (copyStringLoop addr maxLength fuel i buf s = .error .assertion { s with errno := EIO } ∧
        ¬ Readable s.mem addr maxLength)
  | 0, i, buf, s, hf, hi, hc => by omega
  | fuel + 1, i, buf, s, hf, hi, hc => by
    unfold copyStringLoop
    rw [usub_of_le (Nat.le_of_lt hi) hmax]
    by_cases hlt : maxLength - i > 8
    · rw [if_pos hlt]
      by_cases hm : WordMapped s.mem (offset addr i)
      · rw [bind_ok (peekData_mapped hm)]
        generalize hd : (fun j => byteAt s.mem (offset (offset addr i) j)) = d
        have hdj : ∀ j, d j = byteAt s.mem (offset (offset addr i) j) := fun j => by rw [← hd]
        obtain ⟨hout, hin⟩ := copyUntilNul_fst d maxLength i (by omega) 8 buf (by omega)
        have hend := copyUntilNul_snd d maxLength i (by omega) 8 buf (by omega)
        generalize copyUntilNul d maxLength i 8 buf = r at hout hin hend
        obtain ⟨buf', e⟩ := r
        simp only [Nat.sub_self, Nat.add_zero, Nat.zero_le, true_and, true_implies] at hout hin hend
        have hlo : ∀ k < i, buf' k = buf k := fun k hk => hout k (Or.inl hk)
        have hhi : ∀ k, i ≤ k → k < i + 8 → (∀ j, j < k - i → d j ≠ 0) →
            buf' k = byteAt s.mem (offset addr k) := fun k h1 h2 hz => by
          rw [hin k h1 h2 hz, hdj, offset_offset, show i + (k - i) = k by omega]
        have htop : ∀ k, maxLength ≤ k → buf' k = buf k := fun k hk => hout k (Or.inr (by omega))
        cases e with
        | true =>
          obtain ⟨j, hj, h0⟩ := hend.1 rfl
          have hz : ∃ j < 8, byteAt s.mem (offset (offset addr i) j) = 0 := ⟨j, hj, by rw [← hdj, h0]⟩
          exact Or.inl ⟨i + 8, buf', rfl, hc.readable hm hz,
            hc.string hm hz hlo fun k h1 h2 hz => hhi k h1 h2 fun j hj => by rw [hdj]; exact hz j hj,
            htop⟩
        | false =>
          have hz : ∀ j < 8, d j ≠ 0 := fun j hj h0 => by simpa using hend.2 ⟨j, hj, h0⟩
          have hc' : CopiedWords s.mem addr buf' (i + 8) :=
            hc.next hm (fun j hj => by rw [← offset_offset, ← hdj]; exact hz j hj) hlo
              fun k h1 h2 => hhi k h1 h2 fun j hj => hz j (by omega)
          rcases copyStringLoop_spec addr maxLength hmax fuel (i + 8) buf' { s with errno := 0 }
            (by omega) (by omega) hc' with ⟨i', b, h1, h2, h3, h4⟩ | ⟨i', b, e, h1, h2, h3, h4, h5⟩ | h
          · exact Or.inl ⟨i', b, h1, h2, h3, fun k hk => (h4 k hk).trans (htop k hk)⟩
          · exact Or.inr (Or.inl ⟨i', b, e, h1, h2, h3, h4, fun k hk => (h5 k hk).trans (htop k hk)⟩)
          · exact Or.inr (Or.inr h)
      · rw [bind_error (peekData_unmapped hm)]
        exact Or.inr (Or.inr ⟨rfl, fun h => hm (h i (by omega) hc.aligned hc.noNul)⟩)
    · rw [if_neg hlt]
      exact Or.inr (Or.inl ⟨i, buf, s.errno, rfl, hi, by omega, hc, fun _ _ => rfl⟩)

theorem copyLast_mapped {addr : Address} {maxLength i : Nat} {buf : Buffer} {s : Ptrace}
    (hi : i < maxLength) (hm : WordMapped s.mem (offset addr i)) :
    copyLast addr maxLength i false buf s =
      .ok (copyTail (fun j => byteAt s.mem (offset (offset addr i) j)) maxLength i buf)
        { s with errno := 0 } := by
  rw [copyLast, if_pos ⟨by omega, rfl⟩, bind_ok (peekData_mapped hm)]
  rfl

theorem copyLast_unmapped {addr : Address} {maxLength i : Nat} {buf : Buffer} {s : Ptrace}
    (hi : i < maxLength) (hm : ¬ WordMapped s.mem (offset addr i)) :
    copyLast addr maxLength i false buf s = .error .assertion { s with errno := EIO } := by
  rw [copyLast, if_pos ⟨by omega, rfl⟩, bind_error (peekData_unmapped hm)]

theorem CopiedWords.zero (m : Memory) (addr : Address) (buf : Buffer) : CopiedWords m addr buf 0 :=
  ⟨by omega, fun j hj => by omega, fun k hk => by omega, fun k hk => by omega⟩

/-- `copyString` after a loop that has found a NUL. -/
theorem copyString_ended {addr : Address} {maxLength i : Nat} {buf buf' : Buffer} {s : Ptrace}
    (hloop : copyStringLoop addr maxLength maxLength 0 buf s = .ok (i, true, buf') { s with errno := 0 }) :
    copyString addr maxLength buf s = .ok (buf', true) { s with errno := 0 } := by
  have hlast : copyLast addr maxLength i true buf' { s with errno := 0 } = .ok buf' { s with errno := 0 } := by
    rw [copyLast, if_neg (by simp)]
    rfl
  rw [copyString, bind_ok hloop]
  dsimp only
  rw [bind_ok hlast]
  rfl

theorem copyString_readable {addr : Address} {maxLength : Nat} (buf : Buffer) {s : Ptrace}
    (hpos : 0 < maxLength) (hmax : maxLength < 2 ^ 64) (h : Readable s.mem addr maxLength) :
    ∃ buf', copyString addr maxLength buf s = .ok (buf', true) { s with errno := 0 } ∧
      CopiedString s.mem addr maxLength buf' ∧ ∀ k, maxLength ≤ k → buf' k = buf k := by
  rcases copyStringLoop_spec addr maxLength hmax maxLength 0 buf s (by omega) hpos
      (CopiedWords.zero _ _ _) with
    ⟨i, b, hrun, _, hs, htop⟩ | ⟨i, b, e, hrun, hi, hi8, hc, htop⟩ | ⟨_, hn⟩
  · exact ⟨b, copyString_ended hrun, hs, htop⟩
  · have hm := h i hi hc.aligned hc.noNul
    refine ⟨copyTail (fun j => byteAt s.mem (offset (offset addr i) j)) maxLength i b, ?_, ?_, ?_⟩
    · rw [copyString, bind_ok hrun]
      dsimp only
      rw [bind_ok (copyLast_mapped (s := { s with errno := e }) hi hm)]
      rfl
    · intro k hk hnn
      unfold copyTail
      by_cases hki : i ≤ k
      · simp only [if_pos (show i ≤ k ∧ k < i + 8 ∧ k < maxLength by omega), offset_offset]
        rw [show i + (k - i) = k by omega]
      · rw [if_neg (by omega), hc.copied k (by omega)]
    · intro k hk
      rw [copyTail, if_neg (by omega), htop k hk]
  · exact absurd h hn

theorem copyString_unreadable {addr : Address} {maxLength : Nat} (buf : Buffer) {s : Ptrace}
    (hmax : maxLength < 2 ^ 64) (h : ¬ Readable s.mem addr maxLength) :
    copyString addr maxLength buf s = .error .assertion { s with errno := EIO } := by
  have hpos : 0 < maxLength := by
    refine Nat.pos_of_ne_zero fun h0 => h fun i hi => by omega
  rcases copyStringLoop_spec addr maxLength hmax maxLength 0 buf s (by omega) hpos
      (CopiedWords.zero _ _ _) with
    ⟨_, _, _, hr, _⟩ | ⟨i, b, e, hrun, hi, hi8, hc, htop⟩ | ⟨hrun, _⟩
  · exact absurd hr h
  · have hm : ¬ WordMapped s.mem (offset addr i) := fun hm => h fun k hk h8 hnn => by
      by_cases hki : k < i
      · exact hc.mapped k hki h8
      · have := hc.aligned
        rw [show k = i by omega]; exact hm
    rw [copyString, bind_ok hrun]
    dsimp only
    rw [bind_error (copyLast_unmapped (s := { s with errno := e }) hi hm)]
  · rw [copyString, bind_error hrun]

/-! ## `writeData` -/

/-- Where the last, partial word of a write of `length` bytes starts. -/
def lastWord (length : Nat) : Nat := 8 * ((length - 1) / 8)

/-- The one word of a write that `writeData` reads is mapped. -/
def TailMapped (m : Memory) (addr : Address) (length : Nat) : Prop :=
  0 < length → WordMapped m (offset addr (lastWord length))

instance (m : Memory) (addr : Address) (length : Nat) : Decidable (TailMapped m addr length) :=
  inferInstanceAs (Decidable (0 < length → WordMapped m (offset addr (lastWord length))))

theorem isSome_storeWord {m : Memory} {addr a : Address} {d : Buffer} (h : WordMapped m addr) :
    (storeWord m addr d a).isSome = (m a).isSome := by
  unfold storeWord
  by_cases ha : (a - addr).toNat < 8
  · have hj := h _ ha
    rw [offset, BitVec.ofNat_toNat, BitVec.setWidth_eq, BitVec.add_comm, BitVec.sub_add_cancel] at hj
    rw [if_pos ha, hj]; rfl
  · rw [if_neg ha]

theorem pokeData_run (addr : Address) (d : Buffer) (s : Ptrace) :
    ∃ s', pokeData addr d s = .ok () s' ∧ ∀ a, (s'.mem a).isSome = (s.mem a).isSome := by
  refine ⟨_, rfl, fun a => ?_⟩
  by_cases h : WordMapped s.mem addr
  · simp only [h, ite_true]; exact isSome_storeWord h
  · simp only [h, ite_false]

theorem WordMapped.of_isSome {m m' : Memory} {addr : Address} (h : WordMapped m addr)
    (he : ∀ a, (m' a).isSome = (m a).isSome) : WordMapped m' addr := fun j hj => by
  rw [he]; exact h j hj

theorem writeDataLoop_run (addr : Address) (length : Nat) (buf : Buffer) (hl : length < 2 ^ 64) :
    ∀ (fuel i : Nat) (s : Ptrace), length - i ≤ fuel → 8 ∣ i → i < length →
      ∃ s', writeDataLoop addr length buf fuel i s = .ok (lastWord length) s' ∧
        ∀ a, (s'.mem a).isSome = (s.mem a).isSome
  | 0, i, s, hf, _, hi => by omega
  | fuel + 1, i, s, hf, h8, hi => by
    unfold writeDataLoop
    rw [usub_of_le (Nat.le_of_lt hi) hl]
    by_cases hlt : length - i > 8
    · rw [if_pos hlt]
      obtain ⟨s1, h1, hs1⟩ := pokeData_run (offset addr i) (fun j => buf (i + j)) s
      obtain ⟨s2, h2, hs2⟩ := writeDataLoop_run addr length buf hl fuel (i + 8) s1 (by omega)
        (by omega) (by omega)
      exact ⟨s2, by rw [bind_ok h1, h2], fun a => (hs2 a).trans (hs1 a)⟩
    · rw [if_neg hlt]
      refine ⟨s, ?_, fun _ => rfl⟩
      rw [show lastWord length = i by unfold lastWord; omega]
      rfl

theorem writeLast_mapped {addr : Address} {length i : Nat} (buf : Buffer) {s : Ptrace}
    (hi : i ≠ length) (hm : WordMapped s.mem (offset addr i)) :
    ∃ s', writeLast addr length buf i s = .ok () s' := by
  rw [writeLast, if_pos hi, bind_ok (peekData_mapped hm)]
  exact ⟨_, rfl⟩

theorem writeLast_unmapped {addr : Address} {length i : Nat} {buf : Buffer} {s : Ptrace}
    (hi : i ≠ length) (hm : ¬ WordMapped s.mem (offset addr i)) :
    writeLast addr length buf i s = .error .assertion { s with errno := EIO } := by
  rw [writeLast, if_pos hi, bind_error (peekData_unmapped hm)]

theorem lastWord_lt {length : Nat} (h : 0 < length) : lastWord length < length := by
  unfold lastWord; omega

theorem writeData_mapped {addr : Address} {length : Nat} (buf : Buffer) {s : Ptrace}
    (hl : length < 2 ^ 64) (h : TailMapped s.mem addr length) :
    ∃ r s', writeData addr length buf s = .ok r s' := by
  by_cases h0 : length = 0
  · subst h0; exact ⟨_, _, rfl⟩
  · have hlt := lastWord_lt (Nat.pos_of_ne_zero h0)
    obtain ⟨s1, h1, hs1⟩ := writeDataLoop_run addr length buf hl length 0 s (by omega) (by omega)
      (by omega)
    have hm := (h (Nat.pos_of_ne_zero h0)).of_isSome hs1
    obtain ⟨s2, h2⟩ := writeLast_mapped buf (Nat.ne_of_lt hlt) hm
    rw [writeData, bind_ok h1, bind_ok h2]
    exact ⟨_, _, rfl⟩

theorem writeData_unmapped {addr : Address} {length : Nat} (buf : Buffer) {s : Ptrace}
    (hl : length < 2 ^ 64) (h : ¬ TailMapped s.mem addr length) :
    ∃ s', writeData addr length buf s = .error .assertion s' := by
  simp only [TailMapped, Classical.not_imp] at h
  obtain ⟨s1, h1, hs1⟩ := writeDataLoop_run addr length buf hl length 0 s (by omega) (by omega) h.1
  have hm : ¬ WordMapped s1.mem (offset addr (lastWord length)) := fun hm =>
    h.2 (hm.of_isSome fun a => (hs1 a).symm)
  rw [writeData, bind_ok h1, bind_error (writeLast_unmapped (Nat.ne_of_lt (lastWord_lt h.1)) hm)]
  exact ⟨_, rfl⟩

end CodiusSandbox
