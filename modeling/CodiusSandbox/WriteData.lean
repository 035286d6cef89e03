import CodiusSandbox.VfsProofs
/-!
# What `writeData` stores, and what it says it has

`stored m addr length buf` is the memory behind a `writeData` that returns: each byte of the range holds
that of the buffer where its word is mapped, and nothing else has changed, whatever the length and the
alignment (`writeData_stored`). Where all words are mapped that is the range exactly (`writeData_exact`).

The result is `errno == 0`, and `errno` is what the read of the last word left: a word before it that could
not be stored is not reported, and a write of no bytes reports an error that is not its own
(`writeData_reports_iff`).
-/
namespace CodiusSandbox

open Wp

/-- How far `a` lies behind `addr`. -/
def distance (addr a : Address) : Nat := (a - addr).toNat

/-- The word that holds byte `k` of a write to `addr`. -/
def wordOf (addr : Address) (k : Nat) : Address := offset addr (8 * (k / 8))

def stored (m : Memory) (addr : Address) (length : Nat) (buf : Buffer) : Memory := fun a =>
  if distance addr a < length ∧ WordMapped m (wordOf addr (distance addr a)) then some (buf (distance addr a))
  else m a

section
variable {m : Memory} {addr a : Address} {buf : Buffer} {i length : Nat}

theorem distance_lt (addr a : Address) : distance addr a < 2 ^ 64 := BitVec.isLt _

theorem distance_offset (h : i < 2 ^ 64) : distance addr (offset addr i) = i := by
  unfold distance offset
  rw [BitVec.add_comm, BitVec.add_sub_cancel, BitVec.toNat_ofNat]
  exact Nat.mod_eq_of_lt h

/-- An address is as far behind another as it is. -/
theorem offset_distance (addr a : Address) : offset addr (distance addr a) = a := by
  unfold distance offset
  rw [BitVec.ofNat_toNat, BitVec.setWidth_eq, BitVec.add_comm, BitVec.sub_add_cancel]

theorem distance_from (h : i ≤ distance addr a) : distance (offset addr i) a = distance addr a - i := by
  have hlt := distance_lt addr a
  have ha : a = offset (offset addr i) (distance addr a - i) := by
    rw [offset_offset, show i + (distance addr a - i) = distance addr a by omega, offset_distance]
  rw [ha, distance_offset (by omega), ← ha]

/-- Which bytes the word at `i` has. -/
theorem inWord_iff (hi : i + 8 ≤ 2 ^ 64) :
    distance (offset addr i) a < 8 ↔ i ≤ distance addr a ∧ distance addr a < i + 8 := by
  constructor
  · intro h
    have ha : distance addr a = i + distance (offset addr i) a := by
      conv_lhs => rw [← offset_distance (offset addr i) a, offset_offset]
      exact distance_offset (by omega)
    omega
  · rintro ⟨hle, hlt⟩
    rw [distance_from hle]
    omega

theorem stored_zero : stored m addr 0 buf = m := by
  funext a
  rw [stored, if_neg fun h => absurd h.1 (Nat.not_lt_zero _)]

theorem isSome_stored : (stored m addr length buf a).isSome = (m a).isSome := by
  unfold stored
  split
  · rename_i h
    have hbyte := h.2.byte (j := distance addr a % 8) (Nat.mod_lt _ (by decide))
    rw [wordOf, offset_offset, Nat.div_add_mod, offset_distance] at hbyte
    rw [hbyte]
    rfl
  · rfl

theorem wordMapped_stored {w : Address} : WordMapped (stored m addr length buf) w ↔ WordMapped m w := by
  unfold WordMapped
  simp only [isSome_stored]

/-- One more word: it is poked where it is mapped. -/
theorem stored_word (h8 : 8 ∣ i) (hi : i + 8 ≤ 2 ^ 64) :
    stored m addr (i + 8) buf =
      if WordMapped m (offset addr i) then storeWord (stored m addr i buf) (offset addr i) fun j => buf (i + j)
      else stored m addr i buf := by
  funext a
  have hin : (a - offset addr i).toNat < 8 ↔ i ≤ distance addr a ∧ distance addr a < i + 8 := inWord_iff hi
  by_cases hw : i ≤ distance addr a ∧ distance addr a < i + 8
  · have hword : wordOf addr (distance addr a) = offset addr i := by
      unfold wordOf
      congr 1
      omega
    have hdist : (a - offset addr i).toNat = distance addr a - i := distance_from hw.1
    by_cases hm : WordMapped m (offset addr i)
    · rw [if_pos hm, storeWord, if_pos (hin.2 hw), stored, hword, if_pos ⟨hw.2, hm⟩, hdist,
        show i + (distance addr a - i) = distance addr a by omega]
    · rw [if_neg hm, stored, stored, hword, if_neg fun h => hm h.2, if_neg fun h => hm h.2]
  · have hsame : stored m addr (i + 8) buf a = stored m addr i buf a := by
      unfold stored
      by_cases hlt : distance addr a < i
      · have hlt8 : distance addr a < i + 8 := by omega
        simp only [hlt, hlt8]
      · have hge : ¬ distance addr a < i + 8 := by omega
        simp only [hlt, hge]
    split
    · rw [storeWord, if_neg fun h => hw (hin.1 h), hsame]
    · exact hsame

end

/-! ## The run -/

section
variable (m : Memory) (addr : Address) (buf : Buffer) {length : Nat}

theorem pokeData_stored {i : Nat} (h8 : 8 ∣ i) (hi : i + 8 ≤ 2 ^ 64) (e : Errno) :
    ∃ e', pokeData (offset addr i) (fun j => buf (i + j)) ⟨stored m addr i buf, e⟩ =
      .ok () ⟨stored m addr (i + 8) buf, e'⟩ := by
  rw [stored_word h8 hi]
  by_cases hm : WordMapped m (offset addr i)
  · refine ⟨e, ?_⟩
    rw [if_pos hm]
    exact congrArg (EStateM.Result.ok ()) (if_pos (wordMapped_stored.2 hm))
  · refine ⟨ EIO, ?_⟩
    rw [if_neg hm]
    exact congrArg (EStateM.Result.ok ()) (if_neg fun h => hm (wordMapped_stored.1 h))

theorem writeDataLoop_stored (hl : length < 2 ^ 64) :
    ∀ (fuel i : Nat) (e : Errno), length - i ≤ fuel → 8 ∣ i → i < length →
      ∃ e', writeDataLoop addr length buf fuel i ⟨stored m addr i buf, e⟩ =
        .ok (lastWord length) ⟨stored m addr (lastWord length) buf, e'⟩
  | 0, i, e, hf, _, hi => by omega
  | fuel + 1, i, e, hf, h8, hi => by
    unfold writeDataLoop
    rw [usub_of_le (Nat.le_of_lt hi) hl]
    by_cases hlt : length - i > 8
    · obtain ⟨e1, h1⟩ := pokeData_stored m addr buf h8 (by omega) e
      obtain ⟨e2, h2⟩ := writeDataLoop_stored hl fuel (i + 8) e1 (by omega) (by omega) (by omega)
      rw [if_pos hlt, bind_ok h1, h2]
      exact ⟨e2, rfl⟩
    · rw [if_neg hlt, show lastWord length = i by unfold lastWord; omega]
      exact ⟨e, rfl⟩

/-- The last word keeps the bytes behind the range. -/
theorem storeWord_stored {i : Nat} (h8 : 8 ∣ i) (hi : i + 8 ≤ 2 ^ 64) (hlt : i < length)
    (hend : length ≤ i + 8) (hm : WordMapped m (offset addr i)) :
    storeWord (stored m addr i buf) (offset addr i) (fun j =>
      if i + j < length then buf (i + j) else byteAt (stored m addr i buf) (offset (offset addr i) j)) =
      stored m addr length buf := by
  funext a
  have hin : (a - offset addr i).toNat < 8 ↔ i ≤ distance addr a ∧ distance addr a < i + 8 := inWord_iff hi
  unfold storeWord
  by_cases hw : i ≤ distance addr a ∧ distance addr a < i + 8
  · have hdist : (a - offset addr i).toNat = distance addr a - i := distance_from hw.1
    have hword : wordOf addr (distance addr a) = offset addr i := by
      unfold wordOf
      congr 1
      omega
    have hsum : i + (distance addr a - i) = distance addr a := by omega
    have ha : offset (offset addr i) (distance addr a - i) = a := by
      rw [offset_offset, hsum, offset_distance]
    rw [if_pos (hin.2 hw), hdist]
    dsimp only
    rw [hsum, ha]
    by_cases hk : distance addr a < length
    · rw [if_pos hk, stored, hword, if_pos ⟨hk, hm⟩]
    · have hold : stored m addr i buf a = m a := if_neg fun h => absurd h.1 (by omega)
      have hnew : stored m addr length buf a = m a := if_neg fun h => absurd h.1 hk
      have hbyte := hm.byte (j := distance addr a - i) (by omega)
      rw [ha] at hbyte
      rw [if_neg hk, hnew, byteAt, hold, hbyte]
      rfl
  · rw [if_neg fun h => hw (hin.1 h)]
    unfold stored
    by_cases hlt' : distance addr a < i
    · have hlen : distance addr a < length := by omega
      simp only [hlt', hlen]
    · have hge : ¬ distance addr a < length := by omega
      simp only [hlt', hge]

/-- What `errno` is behind a `writeData` that returns: the read of the last word clears it. -/
def errnoAfter (length : Nat) (e : Errno) : Errno := if length = 0 then e else 0

/-- `writeData` where the word it reads is mapped. The result is that of the read. -/
theorem writeData_run {s : Ptrace} (hl : length < 2 ^ 64) (h : TailMapped s.mem addr length) :
    writeData addr length buf s = .ok (errnoAfter length s.errno == 0)
      ⟨stored s.mem addr length buf, errnoAfter length s.errno⟩ := by
  rcases Nat.eq_zero_or_pos length with rfl | hpos
  · rw [stored_zero]
    rfl
  · have hlt := lastWord_lt hpos
    have hm := h hpos
    obtain ⟨e1, h1⟩ := writeDataLoop_stored s.mem addr buf hl length 0 s.errno (by omega) (by omega) hpos
    rw [stored_zero] at h1
    have hpeek := peekData_mapped (s := ⟨stored s.mem addr (lastWord length) buf, e1⟩) (wordMapped_stored.2 hm)
    have hlast : writeLast addr length buf (lastWord length) ⟨stored s.mem addr (lastWord length) buf, e1⟩ =
        .ok () ⟨stored s.mem addr length buf, 0⟩ := by
      rw [writeLast, if_pos (Nat.ne_of_lt hlt), bind_ok hpeek]
      have hle : lastWord length + 8 ≤ 2 ^ 64 := by unfold lastWord at *; omega
      have hend : length ≤ lastWord length + 8 := by unfold lastWord; omega
      rw [← storeWord_stored s.mem addr buf (Nat.dvd_mul_right 8 _) hle hlt hend hm]
      exact congrArg (EStateM.Result.ok ()) (if_pos (wordMapped_stored.2 hm))
    rw [writeData, bind_ok h1, bind_ok hlast, errnoAfter, if_neg (Nat.ne_of_gt hpos)]
    rfl

/-- `writeData` returns where the word it reads is mapped, and stores what can be stored. -/
theorem writeData_stored {s : Ptrace} (hl : length < 2 ^ 64) (h : TailMapped s.mem addr length) :
    ∃ r e, writeData addr length buf s = .ok r ⟨stored s.mem addr length buf, e⟩ :=
  ⟨_, _, writeData_run addr buf hl h⟩

end

/-! ## What it promises -/

/-- The `length` bytes of the buffer are in the child's memory. -/
def AllStored (m : Memory) (addr : Address) (length : Nat) (buf : Buffer) : Prop :=
  ∀ k < length, m (offset addr k) = some (buf k)

instance (m : Memory) (addr : Address) (length : Nat) (buf : Buffer) : Decidable (AllStored m addr length buf) :=
  inferInstanceAs (Decidable (∀ k < length, m (offset addr k) = some (buf k)))

/-- A call that returns says whether all bytes were stored (`sandbox.h:154-162`). -/
def ReportsStored (addr : Address) (length : Nat) (buf : Buffer) (s : Ptrace) : Prop :=
  ∀ r t, writeData addr length buf s = .ok r t → (r = true ↔ AllStored t.mem addr length buf)

section
variable {m : Memory} {addr : Address} {buf : Buffer} {length : Nat} {s : Ptrace}

theorem stored_offset {k : Nat} (hk : k < length) (hl : length < 2 ^ 64) :
    stored m addr length buf (offset addr k) =
      if WordMapped m (wordOf addr k) then some (buf k) else m (offset addr k) := by
  have hd : distance addr (offset addr k) = k := distance_offset (by omega)
  unfold stored
  rw [hd]
  simp only [hk, true_and]

theorem stored_outside {a : Address} (h : length ≤ distance addr a) : stored m addr length buf a = m a :=
  if_neg fun hlt => absurd hlt.1 (Nat.not_lt.2 h)

/-- An address outside a range lies behind its end. -/
theorem length_le_distance {a : Address} (ha : ∀ k < length, offset addr k ≠ a) : length ≤ distance addr a := by
  refine Nat.le_of_not_lt fun hlt => ha (distance addr a) hlt ?_
  exact offset_distance addr a

theorem WordsMapped.tail (h : WordsMapped m addr length) : TailMapped m addr length := fun hpos =>
  h (lastWord length) (lastWord_lt hpos) (Nat.dvd_mul_right 8 _)

theorem WordsMapped.wordOf {k : Nat} (h : WordsMapped m addr length) (hk : k < length) :
    WordMapped m (wordOf addr k) :=
  h (8 * (k / 8)) (by omega) (Nat.dvd_mul_right 8 _)

/-- Where all touched words are mapped, the bytes of the range become those of the buffer and no other
byte changes. -/
theorem writeData_exact (hl : length < 2 ^ 64) (hm : WordsMapped s.mem addr length) :
    Returns (writeData addr length buf)
      (fun _ t => AllStored t.mem addr length buf ∧
        ∀ a, (∀ k < length, offset addr k ≠ a) → t.mem a = s.mem a) s := by
  rw [returns_ok (writeData_run addr buf hl hm.tail)]
  refine ⟨fun k hk => ?_, fun a ha => stored_outside (length_le_distance ha)⟩
  dsimp only
  rw [stored_offset hk hl, if_pos (hm.wordOf hk)]

/-- A word that is not mapped has a byte that is not stored. -/
theorem allStored_iff (hl : length < 2 ^ 64) (ht : TailMapped m addr length) :
    AllStored (stored m addr length buf) addr length buf ↔ WordsMapped m addr length := by
  constructor
  · intro h i hi h8
    -- the last word has been read; any other lies within the range
    by_cases hlast : i = lastWord length
    · rw [hlast]
      exact ht (by omega)
    · have hfull : i + 8 ≤ length := by unfold lastWord at hlast; omega
      intro j hj
      have hbyte := h (i + j) (by omega)
      have hsome : (stored m addr length buf (offset addr (i + j))).isSome = _ := isSome_stored
      rw [offset_offset, ← hsome, hbyte]
      rfl
  · intro h k hk
    rw [stored_offset hk hl, if_pos (h.wordOf hk)]

theorem tailMapped_of_returns (hl : length < 2 ^ 64)
    (hret : Returns (writeData addr length buf) (fun _ _ => True) s) : TailMapped s.mem addr length := by
  by_contra h
  obtain ⟨t, herror⟩ := writeData_unmapped buf hl h
  exact not_returns_of_error herror hret

/-- The result is that of the last read: words that could not be stored before it do not count, and
without it an old error does. -/
theorem writeData_reports_iff (hl : length < 2 ^ 64)
    (hret : Returns (writeData addr length buf) (fun _ _ => True) s) :
    ReportsStored addr length buf s ↔ (length = 0 → s.errno = 0) ∧ WordsMapped s.mem addr length := by
  have ht := tailMapped_of_returns hl hret
  have hrun := writeData_run addr buf hl ht
  have hresult : (errnoAfter length s.errno == 0) = true ↔ (length = 0 → s.errno = 0) := by
    unfold errnoAfter
    by_cases h0 : length = 0
    · simp [h0]
    · simp [h0]
  have hstored : AllStored (stored s.mem addr length buf) addr length buf ↔ _ := allStored_iff hl ht
  constructor
  · intro h
    have hreport := h _ _ hrun
    rw [hresult, hstored] at hreport
    have hnone : length = 0 → WordsMapped s.mem addr length := by
      intro h0 i hi
      omega
    by_cases h0 : length = 0
    · exact ⟨hreport.2 (hnone h0), hnone h0⟩
    · exact ⟨fun h => absurd h h0, hreport.1 fun h => absurd h h0⟩
  · rintro ⟨herrno, hm⟩ r t hrt
    rw [hrun] at hrt
    cases hrt
    rw [hresult, hstored]
    exact ⟨fun _ => hm, fun _ => herrno⟩

end

/-! ## A write that is reported as complete -/

/-- The bytes from `lo` up to `hi` are mapped, and hold zeros. -/
def between (lo hi : Nat) : Memory := fun a => if lo ≤ a.toNat ∧ a.toNat < hi then some 0 else none

/-- The second word of sixteen bytes can be stored, the first cannot. -/
theorem lost_word_reported : ¬ ReportsStored 4088 16 (fun _ => 1) ⟨between 4096 8192, 0⟩ := by
  intro h
  have ht : TailMapped (between 4096 8192) 4088 16 := by decide
  have hrun := writeData_run (s := ⟨between 4096 8192, 0⟩) 4088 (fun _ => 1) (by decide : 16 < 2 ^ 64) ht
  have hstored := (h _ _ hrun).1 rfl
  revert hstored
  decide

theorem writeData_exact_page : Returns (writeData 4099 13 fun _ => 1)
    (fun _ t => AllStored t.mem 4099 13 (fun _ => 1) ∧
      ∀ a, (∀ k < 13, offset 4099 k ≠ a) → t.mem a = between 4096 8192 a) ⟨between 4096 8192, 0⟩ :=
  writeData_exact (s := ⟨between 4096 8192, 0⟩) (by decide) (by decide)

theorem writeData_reports_page :
    ReportsStored 4096 16 (fun _ => 1) ⟨between 4096 8192, 0⟩ ↔
      (16 = 0 → (0 : Errno) = 0) ∧ WordsMapped (between 4096 8192) 4096 16 := by
  have ht : TailMapped (between 4096 8192) 4096 16 := by decide
  refine writeData_reports_iff (s := ⟨between 4096 8192, 0⟩) (by decide) ?_
  rw [returns_ok (writeData_run (s := ⟨between 4096 8192, 0⟩) 4096 (fun _ => 1) (by decide) ht)]
  trivial

end CodiusSandbox
