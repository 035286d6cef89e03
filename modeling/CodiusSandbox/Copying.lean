import CodiusSandbox.WriteData
/-!
# What `copyData` and `copyString` leave in a buffer

`copyData` moves whole words. The bytes of the range are right for every length, but the last word is
written in full, up to seven bytes behind a buffer of that length (`copyData_fills_iff`).

`copyString` keeps within its buffer and reads no word behind the one with the NUL. Those it reads it
needs in full, and `peekData` asserts that it has them: a string that ends in the last bytes of what is
mapped ends the tracer (`copyString_copies_iff`).
-/
namespace CodiusSandbox

open Wp

/-! ## `copyData` -/

/-- The destination gets the bytes of the range, and is else as it was. -/
def FillsExactly (addr : Address) (length : Nat) (buf : Buffer) (s : Ptrace) : Prop :=
  Returns (copyData addr length buf) (fun r _ =>
    (∀ k < length, s.mem (offset addr k) = some (r.1 k)) ∧ ∀ k, length ≤ k → r.1 k = buf k) s

section
variable {addr : Address} {length : Nat} {buf : Buffer} {s : Ptrace}

theorem WordsMapped.byte {m : Memory} {k : Nat} (hm : WordsMapped m addr length) (hk : k < wholeWords length) :
    m (offset addr k) = some (byteAt m (offset addr k)) := by
  unfold wholeWords at hk
  have hword := (hm (8 * (k / 8)) (by omega) (Nat.dvd_mul_right 8 _)).byte (j := k % 8) (by omega)
  rw [offset_offset, Nat.div_add_mod] at hword
  exact hword

/-- The rest of the last word is copied too. -/
theorem fillsExactly_iff (hm : WordsMapped s.mem addr length) :
    FillsExactly addr length buf s ↔
      ∀ k, length ≤ k → k < wholeWords length → byteAt s.mem (offset addr k) = buf k := by
  obtain ⟨r, e, hrun⟩ := copyData_run buf hm
  unfold FillsExactly
  rw [returns_ok hrun]
  dsimp only
  constructor
  · rintro ⟨-, houtside⟩ k hlk hk
    rw [← houtside k hlk, copiedFrom, if_pos ⟨Nat.zero_le k, hk⟩]
  · intro h
    refine ⟨fun k hk => ?_, fun k hlk => ?_⟩
    · have hkw : k < wholeWords length := by unfold wholeWords; omega
      rw [copiedFrom, if_pos ⟨Nat.zero_le k, hkw⟩, hm.byte hkw]
    · unfold copiedFrom
      by_cases hkw : k < wholeWords length
      · rw [if_pos ⟨Nat.zero_le k, hkw⟩, h k hlk hkw]
      · rw [if_neg fun h => hkw h.2]

/-- The bytes behind the range have to be the child's already. -/
theorem copyData_fills_iff (hm : WordsMapped s.mem addr length) :
    FillsExactly addr length buf s ↔
      ∀ k, length ≤ k → k < wholeWords length → s.mem (offset addr k) = some (buf k) := by
  rw [fillsExactly_iff hm]
  refine forall_congr' fun k => forall_congr' fun _ => forall_congr' fun hk => ?_
  rw [hm.byte hk, Option.some.injEq]

/-- Every destination is filled exactly by a multiple of eight bytes, and by no other length. -/
theorem copyData_every_iff (hm : WordsMapped s.mem addr length) :
    (∀ buf, FillsExactly addr length buf s) ↔ 8 ∣ length := by
  constructor
  · intro h
    by_contra h8
    have hlt : length < wholeWords length := by unfold wholeWords; omega
    have hbyte := (fillsExactly_iff hm).1 (h fun k => byteAt s.mem (offset addr k) + 1) length (Nat.le_refl length) hlt
    have hnat := congrArg UInt8.toNat hbyte
    rw [UInt8.toNat_add, UInt8.toNat_one] at hnat
    omega
  · intro h8 buf
    refine (fillsExactly_iff hm).2 fun k hlk hk => ?_
    unfold wholeWords at hk
    omega

end

/-- `argc` is four bytes: the four behind it are overwritten. -/
theorem argc_overrun : ¬ FillsExactly 4096 4 (fun _ => 255) ⟨between 4096 8192, 0⟩ := by
  intro h
  have hm : WordsMapped (between 4096 8192) 4096 4 := by decide
  obtain ⟨r, e, hrun⟩ := copyData_run (s := ⟨between 4096 8192, 0⟩) (fun _ => 255) hm
  have hbyte := ((returns_ok hrun).1 h).2 4 (Nat.le_refl 4)
  dsimp only at hbyte
  revert hbyte
  decide

theorem copyData_fills_page : FillsExactly 4096 16 (fun _ => 255) ⟨between 4096 8192, 0⟩ ↔
    ∀ k, 16 ≤ k → k < wholeWords 16 → between 4096 8192 (offset 4096 k) = some 255 :=
  copyData_fills_iff (s := ⟨between 4096 8192, 0⟩) (by decide)

/-! ## `copyString` -/

/-- `maxLength - i` where it does not wrap. -/
def checkedSub (maxLength i : Nat) : PtraceM Nat :=
  if i ≤ maxLength then pure (maxLength - i) else throw .outOfRange

/-- `copyStringLoop`, ended by an error where the subtraction wraps. -/
def copyStringLoopChecked (addr : Address) (maxLength : Nat) :
    Nat → Nat → Buffer → PtraceM (Nat × Bool × Buffer)
  | 0, i, buf => pure (i, false, buf)
  | fuel + 1, i, buf => do
    let remaining ← checkedSub maxLength i
    if remaining > 8 then do
      let d ← peekData (offset addr i)
      match copyUntilNul d maxLength i 8 buf with
      | (buf, true) => pure (i + 8, true, buf)
      | (buf, false) => copyStringLoopChecked addr maxLength fuel (i + 8) buf
    else pure (i, false, buf)

/-- `copyString` with the checked loop. -/
def copyStringChecked (addr : Address) (maxLength : Nat) (buf : Buffer) : PtraceM (Buffer × Bool) := do
  let (i, endString, buf) ← copyStringLoopChecked addr maxLength maxLength 0 buf
  let buf ← copyLast addr maxLength i endString buf
  let s ← get
  return (buf, s.errno == 0)

/-- The first NUL behind `addr` is `n` bytes away. -/
def FirstNul (m : Memory) (addr : Address) (n : Nat) : Prop := m (offset addr n) = some 0 ∧ NoNul m addr n

/-- The memories are the same in the words up to the one with the byte `n`. -/
def AgreeUpTo (m m' : Memory) (addr : Address) (n : Nat) : Prop :=
  ∀ k < 8 * (n / 8) + 8, m' (offset addr k) = m (offset addr k)

/-- Whatever lies behind the word with the byte `n`, mapped or not, the run is the same. -/
def ReadsUpTo (addr : Address) (maxLength : Nat) (buf : Buffer) (s : Ptrace) (n : Nat) : Prop :=
  ∀ m', AgreeUpTo s.mem m' addr n → ∃ r e,
    copyString addr maxLength buf s = .ok r { s with errno := e } ∧
      copyString addr maxLength buf { s with mem := m' } = .ok r ⟨m', e⟩

/-- What `copyString` should do. The byte `k` is in front of the first NUL, or is it, if there is none
below `k`. -/
structure CopiesString (addr : Address) (maxLength : Nat) (buf : Buffer) (s : Ptrace) : Prop where
  copies : Returns (copyString addr maxLength buf) (fun r _ =>
    (∀ k < maxLength, NoNul s.mem addr k → s.mem (offset addr k) = some (r.1 k)) ∧
      ∀ k, maxLength ≤ k → r.1 k = buf k) s
  stops : ∀ n < lastWord maxLength, FirstNul s.mem addr n → ReadsUpTo addr maxLength buf s n
  noWrap : copyString addr maxLength buf s = copyStringChecked addr maxLength buf s

section
variable {addr : Address} {maxLength : Nat} {buf : Buffer} {s : Ptrace}

theorem checkedSub_of_le {i : Nat} {α : Type} (h : i ≤ maxLength) (f : Nat → PtraceM α) (s : Ptrace) :
    (checkedSub maxLength i >>= f) s = f (maxLength - i) s := by
  rw [checkedSub, if_pos h]
  rfl

/-- The loop goes on only where more than eight bytes are left. -/
theorem copyStringLoop_checked (hmax : maxLength < 2 ^ 64) : ∀ (fuel i : Nat) (buf : Buffer) (s : Ptrace),
    i ≤ maxLength → copyStringLoop addr maxLength fuel i buf s = copyStringLoopChecked addr maxLength fuel i buf s := by
  intro fuel
  induction fuel with
  | zero => exact fun _ _ _ _ => rfl
  | succ fuel ih =>
    intro i buf s hi
    unfold copyStringLoop copyStringLoopChecked
    rw [checkedSub_of_le hi, usub_of_le hi hmax]
    by_cases hlt : maxLength - i > 8
    · rw [if_pos hlt, if_pos hlt]
      by_cases hm : WordMapped s.mem (offset addr i)
      · rw [bind_ok (peekData_mapped hm), bind_ok (peekData_mapped hm)]
        generalize copyUntilNul _ maxLength i 8 buf = r
        obtain ⟨buf', endString⟩ := r
        cases endString with
        | true => rfl
        | false => exact ih (i + 8) buf' _ (by omega)
      · rw [bind_error (peekData_unmapped hm), bind_error (peekData_unmapped hm)]
    · rw [if_neg hlt, if_neg hlt]

theorem copyString_checked (hmax : maxLength < 2 ^ 64) :
    copyString addr maxLength buf s = copyStringChecked addr maxLength buf s := by
  have hloop : copyStringLoop addr maxLength maxLength 0 buf s = _ :=
    copyStringLoop_checked hmax maxLength 0 buf s (Nat.zero_le _)
  unfold copyString copyStringChecked
  cases hrun : copyStringLoopChecked addr maxLength maxLength 0 buf s with
  | ok r t =>
    rw [hrun] at hloop
    rw [bind_ok hloop, bind_ok hrun]
  | error e t =>
    rw [hrun] at hloop
    rw [bind_error hloop, bind_error hrun]

/-- Only the eight bytes of the word matter. -/
theorem copyUntilNul_congr {d d' : Buffer} (h : ∀ j < 8, d j = d' j) (i : Nat) : ∀ (n : Nat) (buf : Buffer),
    copyUntilNul d maxLength i n buf = copyUntilNul d' maxLength i n buf := by
  intro n
  induction n with
  | zero => exact fun _ => rfl
  | succ n ih =>
    intro buf
    simp only [copyUntilNul]
    rw [h (7 - n) (by omega), ih]

theorem AgreeUpTo.byte {m m' : Memory} {n i j : Nat} (ha : AgreeUpTo m m' addr n) (h8 : 8 ∣ i) (hi : i ≤ n)
    (hj : j < 8) : m' (offset (offset addr i) j) = m (offset (offset addr i) j) := by
  rw [offset_offset]
  exact ha (i + j) (by omega)

theorem AgreeUpTo.wordMapped {m m' : Memory} {n i : Nat} (ha : AgreeUpTo m m' addr n) (h8 : 8 ∣ i) (hi : i ≤ n)
    (hm : WordMapped m (offset addr i)) : WordMapped m' (offset addr i) := by
  intro j hj
  rw [ha.byte h8 hi hj]
  exact hm j hj

/-- Up to the word with the NUL the loop takes the same steps in both memories, and there it ends. -/
theorem copyStringLoop_agree {m m' : Memory} {n : Nat} (hmax : maxLength < 2 ^ 64) (hn : n < lastWord maxLength)
    (hnul : m (offset addr n) = some 0) (ha : AgreeUpTo m m' addr n)
    (hm : ∀ k ≤ n, 8 ∣ k → WordMapped m (offset addr k)) :
    ∀ (fuel i : Nat) (buf : Buffer) (e : Errno), maxLength - i ≤ fuel → 8 ∣ i → i ≤ n →
      ∃ i' buf', copyStringLoop addr maxLength fuel i buf ⟨m, e⟩ = .ok (i', true, buf') ⟨m, 0⟩ ∧
        copyStringLoop addr maxLength fuel i buf ⟨m', e⟩ = .ok (i', true, buf') ⟨m', 0⟩ := by
  intro fuel
  unfold lastWord at hn
  induction fuel with
  | zero => intro i _ _ hf _ hi; omega
  | succ fuel ih =>
    intro i buf e hf h8 hi
    have hlt : maxLength - i > 8 := by omega
    have hword := hm i hi h8
    have hpeek : peekData (offset addr i) ⟨m, e⟩ = .ok _ ⟨m, 0⟩ := peekData_mapped hword
    have hpeek' : peekData (offset addr i) ⟨m', e⟩ = .ok _ ⟨m', 0⟩ := peekData_mapped (ha.wordMapped h8 hi hword)
    have hsame : ∀ j < 8, byteAt m' (offset (offset addr i) j) = byteAt m (offset (offset addr i) j) := by
      intro j hj
      rw [byteAt, byteAt, ha.byte h8 hi hj]
    have hend := copyUntilNul_snd (fun j => byteAt m (offset (offset addr i) j)) maxLength i (by omega) 8 buf (by omega)
    unfold copyStringLoop
    rw [usub_of_le (by omega) hmax, if_pos hlt, bind_ok hpeek, bind_ok hpeek', copyUntilNul_congr hsame]
    generalize copyUntilNul _ maxLength i 8 buf = r at hend
    obtain ⟨buf', endString⟩ := r
    cases endString with
    | true => exact ⟨i + 8, buf', rfl, rfl⟩
    | false =>
      -- the word has no NUL, so the first one lies behind it
      have hbehind : i + 8 ≤ n := by
        by_contra hle
        have hsum : i + (n - i) = n := by omega
        refine Bool.noConfusion (hend.2 ⟨n - i, by omega, by omega, ?_⟩)
        rw [offset_offset, hsum, byteAt, hnul]
        rfl
      exact ih (i + 8) buf' 0 (by omega) (by omega) hbehind

/-- The words up to the one with the first NUL are those that are read. -/
theorem Readable.word {m : Memory} {k : Nat} (h : Readable m addr maxLength) (hk : k < maxLength)
    (hnn : NoNul m addr k) : WordMapped m (wordOf addr k) := by
  refine h (8 * (k / 8)) (by omega) (Nat.dvd_mul_right 8 _) fun j hj => hnn j (by omega)

theorem readsUpTo_firstNul {n : Nat} (hmax : maxLength < 2 ^ 64) (h : Readable s.mem addr maxLength)
    (hn : n < lastWord maxLength) (hnul : FirstNul s.mem addr n) : ReadsUpTo addr maxLength buf s n := by
  intro m' ha
  have hlt : lastWord maxLength ≤ maxLength := by unfold lastWord; omega
  have hm : ∀ k ≤ n, 8 ∣ k → WordMapped s.mem (offset addr k) := fun k hk h8 =>
    h k (by omega) h8 fun j hj => hnul.2 j (by omega)
  obtain ⟨i, buf', hrun, hrun'⟩ := copyStringLoop_agree hmax hn hnul.1 ha hm maxLength 0 buf s.errno (by omega)
    (by omega) (Nat.zero_le n)
  exact ⟨(buf', true), 0, copyString_ended hrun, copyString_ended hrun'⟩

theorem copyString_copies (buf : Buffer) (hmax : maxLength < 2 ^ 64) (h : Readable s.mem addr maxLength) :
    Returns (copyString addr maxLength buf) (fun r _ =>
      (∀ k < maxLength, NoNul s.mem addr k → s.mem (offset addr k) = some (r.1 k)) ∧
        ∀ k, maxLength ≤ k → r.1 k = buf k) s := by
  rcases Nat.eq_zero_or_pos maxLength with rfl | hpos
  · exact ⟨fun k hk => absurd hk (Nat.not_lt_zero k), fun _ _ => rfl⟩
  · obtain ⟨buf', hrun, hcopied, hout⟩ := copyString_readable buf hpos hmax h
    rw [returns_ok hrun]
    refine ⟨fun k hk hnn => ?_, hout⟩
    have hbyte := (h.word hk hnn).byte (j := k % 8) (Nat.mod_lt _ (by decide))
    rw [wordOf, offset_offset, Nat.div_add_mod] at hbyte
    rw [hbyte, ← hcopied k hk hnn]

/-- `copyString` does all of it wherever it can read the words that it needs. -/
theorem copyString_copies_iff (hmax : maxLength < 2 ^ 64) :
    CopiesString addr maxLength buf s ↔ Readable s.mem addr maxLength := by
  constructor
  · intro h
    by_contra hr
    exact not_returns_of_error (copyString_unreadable buf hmax hr) h.copies
  · intro h
    exact ⟨copyString_copies buf hmax h, fun n hn hnul => readsUpTo_firstNul hmax h hn hnul,
      copyString_checked hmax⟩

end

/-- The empty string, four bytes before the end of what is mapped. -/
theorem string_at_end : FirstNul (between 4092 4096) 4092 0 ∧
    ¬ CopiesString 4092 1024 (fun _ => 255) ⟨between 4092 4096, 0⟩ := by
  refine ⟨⟨by decide, fun j hj => by omega⟩, fun h => ?_⟩
  have hr : ¬ Readable (between 4092 4096) 4092 1024 := fun hr => by
    have hword := hr 0 (by decide) (Nat.dvd_zero 8) fun j hj => by omega
    revert hword
    decide
  exact not_returns_of_error (copyString_unreadable (s := ⟨between 4092 4096, 0⟩) _ (by decide) hr) h.copies

theorem copyString_copies_page : CopiesString 4096 1024 (fun _ => 255) ⟨between 4096 8192, 0⟩ ↔
    Readable (between 4096 8192) 4096 1024 :=
  copyString_copies_iff (s := ⟨between 4096 8192, 0⟩) (by decide)

end CodiusSandbox
