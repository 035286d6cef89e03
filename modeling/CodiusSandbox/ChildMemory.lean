import CodiusSandbox.Exchange
import CodiusSandbox.Reachability
/-!
# The child's memory after a call that fills a buffer

| call                      | asked of the filesystem | answer         | bytes copied on success |
|---------------------------|-------------------------|----------------|-------------------------|
| `read`                    | `args[2]`               | `ssize_t`      | the answer              |
| `getdents`                | `(unsigned) args[2]`    | `int`          | the answer              |
| `readlink`                | `args[2]`               | `ssize_t`      | the answer              |
| `fstat`, `stat`, `lstat`  | a `struct stat`         | `int`, 0       | `sizeof (struct stat)`  |

On success each of them changes the bytes it should and no other. On failure all but one change nothing:
`do_readlink` takes `std::min (call.args[2], call.returnVal)` of two unsigned numbers, and a negative
answer is the larger one. The vector then goes to the child whole (`child_memory_iff`).
-/
namespace CodiusSandbox

open Wp

variable {F W : Type}

def FullyMapped (m : Memory) : Prop := ∀ a, (m a).isSome = true

/-- `m` with `count` bytes of `buf` at `addr`. -/
def overwritten (m : Memory) (addr : Address) (count : Nat) (buf : Buffer) : Memory := fun a =>
  if distance addr a < count then some (buf (distance addr a)) else m a

/-- The calls that have the child's second argument filled. -/
def Fills (call : SyscallCall) : Prop :=
  call.id ∈ [SYS_read, SYS_getdents, SYS_readlink, SYS_fstat, SYS_stat, SYS_lstat]

instance (call : SyscallCall) : Decidable (Fills call) :=
  inferInstanceAs (Decidable (call.id ∈ [SYS_read, SYS_getdents, SYS_readlink, SYS_fstat, SYS_stat, SYS_lstat]))

/-- A `struct stat` has one size. -/
def IsStat (call : SyscallCall) : Prop :=
  call.id = SYS_fstat ∨ call.id = SYS_stat ∨ call.id = SYS_lstat

instance (call : SyscallCall) : Decidable (IsStat call) :=
  inferInstanceAs (Decidable (call.id = SYS_fstat ∨ call.id = SYS_stat ∨ call.id = SYS_lstat))

/-- How many bytes are asked for, as the operation gets the number. -/
def askedBytes (call : SyscallCall) : Nat :=
  if call.id = SYS_getdents then (call.args 2).toNat % 2 ^ 32 else (call.args 2).toNat

/-- A negative number of the operation's type, or the number of bytes stored, which were asked for. -/
def WellAnswered (x : Exchange F W) (call : SyscallCall) : Prop :=
  if IsStat call then IsInt x.result ∧ x.result ≤ 0
  else if call.id = SYS_getdents then IsInt x.result ∧ x.result ≤ askedBytes call
  else -(2 ^ 63) ≤ x.result ∧ x.result ≤ askedBytes call

/-- The bytes that a successful answer stands for. -/
def Exchange.filled (x : Exchange F W) (call : SyscallCall) : Nat :=
  if IsStat call then sizeofStat else x.result.toNat

/-- What the child's memory should be after the call. -/
def Exchange.expected (x : Exchange F W) (call : SyscallCall) (m : Memory) : Memory :=
  if x.result < 0 then m else overwritten m (call.args 1) (x.filled call) x.buffer

section
variable {m : Memory} {addr : Address} {count : Nat} {buf : Buffer}

theorem FullyMapped.word (h : FullyMapped m) (w : Address) : WordMapped m w := fun _ _ => h _

theorem stored_fullyMapped (h : FullyMapped m) : stored m addr count buf = overwritten m addr count buf := by
  funext a
  unfold stored overwritten
  simp only [h.word, and_true]

theorem overwritten_zero : overwritten m addr 0 buf = m := by
  funext a
  rw [overwritten, if_neg (Nat.not_lt_zero _)]

/-- Only bytes that are there already change nothing. -/
theorem overwritten_eq_iff (hc : count ≤ 2 ^ 64) :
    overwritten m addr count buf = m ↔ ∀ k < count, m (offset addr k) = some (buf k) := by
  constructor
  · intro h k hk
    have hd : distance addr (offset addr k) = k := distance_offset (by omega)
    rw [← congrFun h (offset addr k), overwritten, hd, if_pos hk]
  · intro h
    funext a
    unfold overwritten
    split
    · rename_i hlt
      rw [← h _ hlt, offset_distance]
    · rfl

end

section
variable {call : SyscallCall} {x : Exchange F W}

theorem fills_cases (h : Fills call) :
    IsStat call ∨ call.id = SYS_getdents ∨ call.id = SYS_read ∨ call.id = SYS_readlink := by
  simp only [Fills, List.mem_cons, List.not_mem_nil, or_false] at h
  unfold IsStat
  tauto

theorem isStat_ne (h : IsStat call) :
    call.id ≠ SYS_read ∧ call.id ≠ SYS_getdents ∧ call.id ≠ SYS_readlink := by
  rcases h with h | h | h <;> rw [h] <;> decide

theorem length_stat (hs : IsStat call) (hzero : x.result = 0) : x.length call = sizeofStat := by
  obtain ⟨hread, hdents, hlink⟩ := isStat_ne hs
  unfold IsStat at hs
  have hword : toWord x.result = 0 := by
    rw [hzero]
    rfl
  unfold Exchange.length
  rw [if_neg hread, if_neg hdents, if_neg hlink, if_pos hs, if_pos hword]

theorem length_getdents (hd : call.id = SYS_getdents) (hint : IsInt x.result) (h0 : 0 ≤ x.result) :
    x.length call = x.result.toNat := by
  have hread : call.id ≠ SYS_read := by rw [hd]; decide
  unfold Exchange.length
  rw [if_neg hread, if_pos hd, asInt_toWord hint, toNat_toWord h0 hint.long.2]
  split
  · rfl
  · omega

theorem length_read (hr : call.id = SYS_read) (h0 : 0 ≤ x.result) (h63 : x.result < 2 ^ 63) :
    x.length call = x.result.toNat := by
  have hge : x.result ≥ 0 := h0
  unfold Exchange.length
  rw [if_pos hr, if_pos hge, toNat_toWord h0 h63]

theorem length_readlink (hl : call.id = SYS_readlink) (h0 : 0 ≤ x.result) (h63 : x.result < 2 ^ 63)
    (hle : x.result ≤ (call.args 2).toNat) : x.length call = x.result.toNat := by
  have hread : call.id ≠ SYS_read := by rw [hl]; decide
  have hdents : call.id ≠ SYS_getdents := by rw [hl]; decide
  unfold Exchange.length
  rw [if_neg hread, if_neg hdents, if_pos hl, toNat_toWord h0 h63]
  omega

/-- On success the handlers copy what the filesystem stored. -/
theorem length_of_nonneg (hfill : Fills call) (hans : WellAnswered x call) (h : ¬ x.result < 0)
    (h63 : call.id = SYS_read ∨ call.id = SYS_readlink → (call.args 2).toNat < 2 ^ 63) :
    x.length call = x.filled call := by
  unfold WellAnswered askedBytes at hans
  unfold Exchange.filled
  by_cases hs : IsStat call
  · rw [if_pos hs] at hans ⊢
    exact length_stat hs (by omega)
  · rw [if_neg hs] at hans ⊢
    rcases fills_cases hfill with hs' | hd | hr | hl
    · exact absurd hs' hs
    · rw [if_pos hd] at hans
      exact length_getdents hd hans.1 (by omega)
    · have hdents : call.id ≠ SYS_getdents := by rw [hr]; decide
      have hn := h63 (.inl hr)
      rw [if_neg hdents, if_neg hdents] at hans
      exact length_read hr (by omega) (by omega)
    · have hdents : call.id ≠ SYS_getdents := by rw [hl]; decide
      have hn := h63 (.inr hl)
      rw [if_neg hdents, if_neg hdents] at hans
      exact length_readlink hl (by omega) (by omega) hans.2

end

section
variable [Filesystem F W] {σ : Tracer F W} {call : SyscallCall} {x : Exchange F W}

omit [Filesystem F W] in
theorem fits_lt (h : Fits σ (call.args 2).toNat) : (call.args 2).toNat < 2 ^ 63 := by
  have hle := h.1
  unfold vectorMaxSize at hle
  omega

/-- The bytes a `readlink` that fails would change are the buffer's already. -/
def SameBuffer (m : Memory) (call : SyscallCall) (buf : Buffer) : Prop :=
  ∀ k < (call.args 2).toNat, m (offset (call.args 1) k) = some (buf k)

omit [Filesystem F W] in
theorem WellAnswered.long (hans : WellAnswered x call) :
    -(2 ^ 63) ≤ x.result ∧ (call.id = SYS_getdents → IsInt x.result) := by
  unfold WellAnswered at hans
  split at hans
  · rename_i hs
    exact ⟨hans.1.long.1, fun _ => hans.1⟩
  split at hans
  · exact ⟨hans.1.long.1, fun _ => hans.1⟩
  · rename_i hd
    exact ⟨hans.1, fun hid => absurd hid hd⟩

omit [Filesystem F W] in
/-- Nothing is answered for no bytes. -/
theorem WellAnswered.backed (hfill : Fills call) (hans : WellAnswered x call) :
    x.Backed call := by
  by_cases hneg : x.result < 0
  · exact backed_of_neg hans.long.1 hneg hans.long.2
  · intro hid h0
    have hs : ¬ IsStat call := fun hs => by
      obtain ⟨hread, hdents, -⟩ := isStat_ne hs
      exact hid.elim hread hdents
    have h63 : call.id = SYS_read ∨ call.id = SYS_readlink → (call.args 2).toNat < 2 ^ 63 := fun _ => by omega
    rw [length_of_nonneg hfill hans hneg h63, Exchange.filled, if_neg hs]
    unfold WellAnswered askedBytes at hans
    rw [if_neg hs, h0] at hans
    split at hans
    · rw [Nat.zero_mod] at hans
      omega
    · omega

/-- What the memory is after the call, whatever it was. -/
theorem memory_after (hm : FullyMapped σ.mem) (hfill : Fills call) (hx : σ.exchange call = some x)
    (hans : WellAnswered x call) :
    ∃ ret t, handleSyscall call σ = .ok ret t ∧
      t.mem = overwritten σ.mem (call.args 1) (x.length call) x.buffer := by
  obtain ⟨t, hrun, hmem⟩ := (exchange_run hx (hans.backed hfill)).run fun _ => hm.word _
  exact ⟨_, t, hrun, hmem.trans (stored_fullyMapped hm)⟩

/-- The child's memory changes where the call says, unless a `readlink` fails. -/
theorem child_memory_iff (hm : FullyMapped σ.mem) (hfill : Fills call) (hx : σ.exchange call = some x)
    (hans : WellAnswered x call) :
    Returns (handleSyscall call) (fun _ t => t.mem = x.expected call σ.mem) σ ↔
      (call.id = SYS_readlink → x.result < 0 → SameBuffer σ.mem call x.buffer) := by
  obtain ⟨ret, t, hrun, hmem⟩ := memory_after hm hfill hx hans
  rw [returns_ok hrun, hmem]
  have hfits : call.id = SYS_read ∨ call.id = SYS_readlink → (call.args 2).toNat < 2 ^ 63 := by
    rintro (hr | hl)
    · exact fits_lt (exchange_read hx hr).2
    · exact fits_lt (exchange_readlink hx hl)
  unfold Exchange.expected
  by_cases hneg : x.result < 0
  · obtain ⟨hlo, hdents⟩ := hans.long
    rw [if_pos hneg, length_of_neg hlo hneg hdents fun hl => (exchange_readlink hx hl).1]
    split
    · rename_i hl
      have hn := hfits (.inr hl)
      rw [overwritten_eq_iff (by omega)]
      exact ⟨fun h _ _ => h, fun h => h hl hneg⟩
    · rename_i hl
      exact iff_of_true overwritten_zero fun hl' => absurd hl' hl
  · rw [if_neg hneg, length_of_nonneg hfill hans hneg hfits]
    exact iff_of_true rfl fun _ h => absurd h hneg

end

/-! ## A link that cannot be read -/

/-- A child with all of its memory mapped, and one filesystem. -/
def fullChild (bytes : Str) (fs : Fixed) : Tracer Fixed Unit :=
  { Tracer.start { page bytes with mem := fun a => some (bytes.getD a.toNat 65) } with
    vfs := VFS.empty.mountFilesystem (str "/") fs }

theorem fullChild_reachable (bytes : Str) (fs : Fixed) : Reachable (fullChild bytes fs) :=
  .step (.start _) (.mount _ _ _)

/-- `readlink ("/a")` into eight bytes that hold something. -/
def readlinkA : SyscallCall := .of SYS_readlink [0, 4096, 8]

/-- One byte shows that the memory has changed. -/
theorem changed_at {σ : Tracer Fixed Unit} {call : SyscallCall} (a : Address) (b : Option UInt8)
    (h : Returns (handleSyscall call) (fun _ t => t.mem a = b) σ) (hne : σ.mem a ≠ b) :
    Returns (handleSyscall call) (fun _ t => t.mem ≠ σ.mem) σ := by
  refine h.mono fun _ t ht hsame => hne ?_
  rw [← hsame, ht]

/-- `readlinkA` with a filesystem that fails. -/
theorem readlinkA_wipes {σ : Tracer Fixed Unit} (hσ : σ = fullChild (str "/a" ++ [0]) ⟨-2⟩) :
    (σ.exchange readlinkA).map Exchange.result = some (-2) ∧ σ.mem 4096 ≠ some 0 ∧
      Returns (handleSyscall readlinkA) (fun _ t => t.mem 4096 = some 0) σ := by
  have hholds : HoldsPath σ.mem 0 (str "/a") := by subst hσ; decide +kernel
  have hfound : σ.vfs.getFilesystem (str "/a") = .ok (some (str "/a", ⟨-2⟩)) := by subst hσ; decide +kernel
  obtain ⟨hread, hw, hg⟩ := hholds.resolves (by subst hσ; decide +kernel) (by decide +kernel) hfound
  have hfits : Fits σ (readlinkA.args 2).toNat := by subst hσ; decide
  have hx : σ.exchange readlinkA = _ := exchange_readlink_of hread hw hg rfl hfits
  refine ⟨by rw [hx]; rfl, ?_⟩
  subst hσ
  decide +kernel

/-- The filesystem stores nothing and returns `-ENOENT`, and the child's eight bytes are zeros. -/
theorem readlink_wipes : ∃ σ : Tracer Fixed Unit, ∃ x, Reachable σ ∧ FullyMapped σ.mem ∧
    σ.exchange readlinkA = some x ∧ WellAnswered x readlinkA ∧ x.result = -2 ∧
      Returns (handleSyscall readlinkA) (fun _ t => t.mem ≠ σ.mem) σ := by
  generalize hσ : fullChild (str "/a" ++ [0]) ⟨-2⟩ = σ
  obtain ⟨hx, hne, hbyte⟩ := readlinkA_wipes hσ.symm
  obtain ⟨x, hx, heq⟩ := Option.map_eq_some_iff.1 hx
  have hreach : Reachable σ := hσ ▸ fullChild_reachable _ _
  have hmapped : FullyMapped σ.mem := hσ ▸ fun a => rfl
  have hans : WellAnswered x readlinkA := by
    have hlink : ¬ IsStat readlinkA := by decide
    have hdents : readlinkA.id ≠ SYS_getdents := by decide
    unfold WellAnswered
    rw [heq, if_neg hlink, if_neg hdents]
    exact ⟨by decide, by omega⟩
  exact ⟨σ, x, hreach, hmapped, hx, hans, heq, changed_at 4096 (some 0) hbyte hne⟩

theorem child_memory_readlinkA : ∃ σ : Tracer Fixed Unit, ∃ x : Exchange Fixed Unit,
    (Returns (handleSyscall readlinkA) (fun _ t => t.mem = x.expected readlinkA σ.mem) σ ↔
      (readlinkA.id = SYS_readlink → x.result < 0 → SameBuffer σ.mem readlinkA x.buffer)) := by
  obtain ⟨σ, x, -, hm, hx, hans, -, -⟩ := readlink_wipes
  exact ⟨σ, x, child_memory_iff hm (by decide) hx hans⟩

end CodiusSandbox
