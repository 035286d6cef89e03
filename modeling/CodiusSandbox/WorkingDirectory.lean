import CodiusSandbox.ChildMemory
import CodiusSandbox.NativeFilesystem
/-!
# The working directory of the child

The kernel has a working directory for the child and so has the VFS, in `m_cwd`. For the child to see the
second one, `chdir`, `fchdir` and `getcwd` must not be left to the kernel (`VirtualCwd`):

| call     | in `handleSyscall`                    | what comes back                              |
|----------|---------------------------------------|----------------------------------------------|
| `chdir`  | `do_chdir` moves `m_cwd`              | the call as it was, and a result             |
| `fchdir` | not there, though `do_fchdir` is      | the call as it was                           |
| `getcwd` | `do_getcwd` writes a part of the path | the call as it was, and the path's length    |

None of them is diverted, so the kernel runs it on its own directory and puts its result in place of the
handler's (`virtual_cwd_iff`). What `do_getcwd` does write has no NUL (`getcwd_run`).
-/
namespace CodiusSandbox

open Wp

def ERANGE : Errno := 34

variable {F W : Type}

/-- The calls that are about the working directory. -/
def cwdCalls : List Word := [SYS_chdir, SYS_fchdir, SYS_getcwd]

/-- A call that was handled. -/
structure Handled (F W : Type) where
  before : Tracer F W
  call : SyscallCall
  ret : SyscallCall
  after : Tracer F W

/-- The calls of a run, one after the other. -/
def IsRun [Filesystem F W] : Tracer F W → List (Handled F W) → Prop
  | _, [] => True
  | σ, h :: rest => h.before = σ ∧ handleSyscall h.call σ = .ok h.ret h.after ∧ IsRun h.after rest

/-! ## What the child should see -/

/-- The directory a `chdir` or an `fchdir` goes to. -/
def destination (σ : Tracer F W) (call : SyscallCall) : Option (List Str) :=
  if call.id = SYS_chdir then
    σ.vfs.cwd.map fun c => resolve (resolve [] c.path) (σ.nameAt (call.args 0))
  else if call.id = SYS_fchdir then
    (σ.vfs.openFiles[asInt (call.args 0)]?).map fun f => resolve [] f.path
  else none

/-- The directory of the last move that returned 0. -/
def Handled.entered (h : Handled F W) (entered : Option (List Str)) : Option (List Str) :=
  if h.ret.returnVal = 0 then (destination h.before h.call).or entered else entered

/-- What a `getcwd` with the path `p` does: the path, its NUL and their length, or `-ERANGE` and nothing. -/
def Handled.Stores (h : Handled F W) (p : Str) : Prop :=
  if p.length + 1 ≤ (h.call.args 1).toNat then
    h.after.mem = overwritten h.before.mem (h.call.args 0) (p.length + 1) (fun i => p.getD i 0) ∧
      h.ret.returnVal = BitVec.ofNat 64 (p.length + 1)
  else h.after.mem = h.before.mem ∧ h.ret.returnVal = toWord (-ERANGE)

/-- A handled call keeps to the working directory of the VFS, and `entered` is where the child went last. -/
structure Handled.Sound (h : Handled F W) (entered : Option (List Str)) : Prop where
  diverted : h.call.id ∈ cwdCalls → h.ret.id = toWord (-1)
  reports : h.call.id = SYS_getcwd → ∀ c, h.before.vfs.cwd = some c → ∀ d, entered = some d → resolve [] c.path = d
  stores : h.call.id = SYS_getcwd → ∀ c, h.before.vfs.cwd = some c → h.Stores c.path

/-- Every call of a run does. -/
def VirtualCwd : Option (List Str) → List (Handled F W) → Prop
  | _, [] => True
  | entered, h :: rest => h.Sound entered ∧ VirtualCwd (h.entered entered) rest

/-! ## What the handlers do -/

section
variable [Filesystem F W] {σ t : Tracer F W} {call ret : SyscallCall}

theorem chdir_id (hid : call.id = SYS_chdir) (h : handleSyscall call σ = .ok ret t) : ret.id = call.id := by
  obtain ⟨id, args, returnVal⟩ := call
  dsimp only at hid
  subst hid
  have hdo : doChdir ⟨SYS_chdir, args, returnVal⟩ σ = .ok ret t := h
  unfold doChdir at hdo
  obtain ⟨n, u, _, hdo⟩ := of_bind_ok hdo
  obtain ⟨r, v, _, hdo⟩ := of_bind_ok hdo
  cases hdo
  rfl

theorem handleSyscall_fchdir (hid : call.id = SYS_fchdir) : handleSyscall call σ = .ok call σ := by
  obtain ⟨id, args, returnVal⟩ := call
  dsimp only at hid
  subst hid
  rfl

/-- `do_getcwd` writes the path as far as the buffer goes, and no NUL. -/
theorem getcwd_run (hid : call.id = SYS_getcwd) (h : handleSyscall call σ = .ok ret t) :
    ∃ c, σ.vfs.cwd = some c ∧ ret = { call with returnVal := BitVec.ofNat 64 c.path.length } ∧
      t.mem = stored σ.mem (call.args 0) (min (call.args 1).toNat c.path.length) fun i => c.path.getD i 0 := by
  obtain ⟨id, args, returnVal⟩ := call
  dsimp only at hid
  subst hid
  have hdo : doGetcwd ⟨SYS_getcwd, args, returnVal⟩ σ = .ok ret t := h
  unfold doGetcwd getCWD at hdo
  cases hc : σ.vfs.cwd with
  | none =>
    rw [bind_assoc, bind_get, hc] at hdo
    cases hdo
  | some c =>
    rw [bind_assoc, bind_get, hc] at hdo
    have hlen : min (args 1).toNat c.path.length < 2 ^ 64 := by omega
    exact ⟨c, rfl, (writes_answer hlen).of_ok hdo⟩

/-- A call about the working directory comes back as it was. -/
theorem cwdCall_id (hid : call.id ∈ cwdCalls) (h : handleSyscall call σ = .ok ret t) : ret.id = call.id := by
  simp only [cwdCalls, List.mem_cons, List.not_mem_nil, or_false] at hid
  rcases hid with hid | hid | hid
  · exact chdir_id hid h
  · rw [handleSyscall_fchdir hid] at h
    cases h
    rfl
  · obtain ⟨c, _, hret, _⟩ := getcwd_run hid h
    rw [hret]

theorem cwdCall_ne {id : Word} (hid : id ∈ cwdCalls) : id ≠ toWord (-1) := by
  simp only [cwdCalls, List.mem_cons, List.not_mem_nil, or_false] at hid
  rcases hid with rfl | rfl | rfl <;> decide

/-- No `getcwd` does what the child expects: the length it returns leaves the NUL out, and there is no error. -/
theorem not_stores (hid : call.id = SYS_getcwd) (h : handleSyscall call σ = .ok ret t) {c : File F}
    (hc : σ.vfs.cwd = some c) (hlen : c.path.length < 2 ^ 63) : ¬ (Handled.mk σ call ret t).Stores c.path := by
  obtain ⟨c', hc', hret, _⟩ := getcwd_run hid h
  rw [hc] at hc'
  cases hc'
  unfold Handled.Stores
  split
  · rintro ⟨_, hword⟩
    rw [hret] at hword
    have hnat := congrArg BitVec.toNat hword
    simp only [BitVec.toNat_ofNat] at hnat
    omega
  · rintro ⟨_, hword⟩
    rw [hret] at hword
    have hnat := congrArg BitVec.toNat hword
    have hrange : (toWord (-ERANGE)).toNat = 2 ^ 64 - 34 := by decide
    rw [hrange] at hnat
    simp only [BitVec.toNat_ofNat] at hnat
    omega

/-! ## Runs -/

/-- A call keeps to the VFS's working directory exactly when it is not about it. -/
theorem sound_iff (h : handleSyscall call σ = .ok ret t) (entered : Option (List Str)) :
    (Handled.mk σ call ret t).Sound entered ↔ call.id ∉ cwdCalls := by
  constructor
  · intro hs hid
    have hid' : (Handled.mk σ call ret t).ret.id = toWord (-1) := hs.diverted hid
    rw [show (Handled.mk σ call ret t).ret.id = call.id from cwdCall_id hid h] at hid'
    exact cwdCall_ne hid hid'
  · intro hid
    have hgetcwd : call.id ≠ SYS_getcwd := fun he => hid (by rw [he]; decide)
    exact ⟨fun hid' => absurd hid' hid, fun he => absurd he hgetcwd, fun he => absurd he hgetcwd⟩

/-- The child sees the VFS's working directory in the runs that have no call about it, and in no other. -/
theorem virtual_cwd_iff {hs : List (Handled F W)} (hrun : IsRun σ hs) :
    VirtualCwd none hs ↔ ∀ h ∈ hs, h.call.id ∉ cwdCalls := by
  generalize none = entered
  induction hs generalizing σ entered with
  | nil => exact iff_of_true trivial fun h hh => absurd hh List.not_mem_nil
  | cons h rest ih =>
    obtain ⟨before, call, ret, after⟩ := h
    obtain ⟨hbefore, hcall, hrest⟩ := hrun
    dsimp only at hbefore hcall hrest
    subst hbefore
    rw [VirtualCwd, sound_iff hcall, ih hrest, List.forall_mem_cons]

end

/-! ## A `chdir` and a `getcwd` -/

/-- `chdir` to the path at 0. -/
def chdirA : SyscallCall := .of SYS_chdir [0]

/-- `getcwd` into the sixteen bytes at 4096. -/
def getcwdB : SyscallCall := .of SYS_getcwd [4096, 16]

/-- The directory is set, and the child goes on to "/a" and asks where it is. -/
def chdirGetcwd : TracerM Fixed Unit (Bool × SyscallCall × SyscallCall) := do
  let _ ← setCWD (str "/home")
  let s ← get
  let moved ← handleSyscall chdirA
  let reported ← handleSyscall getcwdB
  return (s.vfs.cwd.isSome, moved, reported)

/-- Its states. -/
theorem chdirGetcwd_states {σ₀ : Tracer Fixed Unit}
    {Q : Bool × SyscallCall × SyscallCall → Tracer Fixed Unit → Prop} (h : Returns chdirGetcwd Q σ₀) :
    ∃ n σ τ t ret ret', setCWD (str "/home") σ₀ = .ok n σ ∧ handleSyscall chdirA σ = .ok ret τ ∧
      handleSyscall getcwdB τ = .ok ret' t ∧ Q (σ.vfs.cwd.isSome, ret, ret') t := by
  obtain ⟨r, t, hrun, hq⟩ := returns_iff.1 h
  obtain ⟨n, σ, hset, hrun⟩ := of_bind_ok hrun
  obtain ⟨s, σ', hget, hrun⟩ := of_bind_ok hrun
  cases hget
  obtain ⟨ret, τ, hchdir, hrun⟩ := of_bind_ok hrun
  obtain ⟨ret', t', hgetcwd, hrun⟩ := of_bind_ok hrun
  cases hrun
  exact ⟨n, σ, τ, t, ret, ret', hset, hchdir, hgetcwd, hq⟩

theorem chdirGetcwd_run {σ₀ : Tracer Fixed Unit} (h : σ₀ = fullChild (str "/a" ++ [0]) ⟨3⟩) :
    Returns chdirGetcwd (fun r t => r.1 = true ∧ (r.2.1.id = SYS_chdir ∧ r.2.1.returnVal = 0) ∧
      r.2.2.id = SYS_getcwd ∧ r.2.2.returnVal = 2 ∧ t.mem 4098 = some 65) σ₀ := by
  subst h
  decide +kernel

/-- Both calls are left to the kernel, `getcwd` has returned 2 for "/a", and the byte behind it is what it
was. -/
theorem cwd_left_to_kernel : ∃ σ : Tracer Fixed Unit, ∃ moved reported : Handled Fixed Unit, Reachable σ ∧
    σ.vfs.cwd.isSome = true ∧ IsRun σ [moved, reported] ∧ moved.ret.id = SYS_chdir ∧ moved.ret.returnVal = 0 ∧
      reported.ret.id = SYS_getcwd ∧ reported.ret.returnVal = 2 ∧ reported.after.mem 4098 = some 65 ∧
        ¬ VirtualCwd none [moved, reported] := by
  generalize hstart : fullChild (str "/a" ++ [0]) ⟨3⟩ = σ₀
  have hreach₀ : Reachable σ₀ := hstart ▸ fullChild_reachable _ _
  obtain ⟨_, σ, τ, t, ret, ret', hset, hchdir, hgetcwd, hcwd, ⟨hid, hzero⟩, hid', hlen, hbyte⟩ :=
    chdirGetcwd_states (chdirGetcwd_run hstart.symm)
  have hreach : Reachable σ := .step hreach₀ (.setCWD hset)
  refine ⟨σ, ⟨σ, chdirA, ret, τ⟩, ⟨τ, getcwdB, ret', t⟩, hreach, hcwd, ⟨rfl, hchdir, rfl, hgetcwd, trivial⟩, hid, hzero,
    hid', hlen, hbyte, fun h => ?_⟩
  exact (sound_iff hchdir none).1 h.1 (by decide)

theorem virtual_cwd_chdir : ∃ moved : Handled Fixed Unit,
    VirtualCwd none [moved] ↔ ∀ h ∈ [moved], h.call.id ∉ cwdCalls := by
  generalize hstart : fullChild (str "/a" ++ [0]) ⟨3⟩ = σ₀
  obtain ⟨_, σ, τ, _, ret, _, _, hchdir, _⟩ := chdirGetcwd_states (chdirGetcwd_run hstart.symm)
  exact ⟨⟨σ, chdirA, ret, τ⟩, virtual_cwd_iff ⟨rfl, hchdir, trivial⟩⟩

end CodiusSandbox
