import CodiusSandbox.Reachability
/-!
# What reaches the kernel, and what ends the tracer

`path_mediated_iff`: a path call is decided on the string the child passed, except for an `openat`
whose relative name, glued to the directory's path without a separator, spells a whitelisted path.
`tolerated_iff`: a call is answered exactly if it `Survives`; one on a virtual descriptor that is not open
never is, since `getFile` throws where its callers expect a null pointer.
-/
namespace CodiusSandbox

open Wp

variable {F W : Type} [Filesystem F W] {σ : Tracer F W} {call : SyscallCall}

/-! ## Paths -/

def IsPathCall (id : Word) : Prop :=
  id ∈ [SYS_open, SYS_openat, SYS_access, SYS_stat, SYS_lstat, SYS_readlink]

instance (id : Word) : Decidable (IsPathCall id) :=
  inferInstanceAs (Decidable (id ∈ [SYS_open, SYS_openat, SYS_access, SYS_stat, SYS_lstat, SYS_readlink]))

/-- Where the path of a path call is. -/
def pathArg (call : SyscallCall) : Address :=
  if call.id = SYS_openat then call.args 1 else call.args 0

/-- The call on path `n` is left to the kernel only if `n` is absolute and whitelisted, and is
answered otherwise. -/
def Mediated (σ : Tracer F W) (call : SyscallCall) (n : Str) : Prop :=
  Returns (handleSyscall call) (fun r _ =>
    (r.id = call.id → n ∈ whitelist ∧ n.head? = some slash) ∧
    (r.id ≠ call.id → r.id = toWord (-1))) σ

instance (n : Str) : Decidable (Mediated σ call n) :=
  inferInstanceAs (Decidable (Returns (handleSyscall call) (fun r _ =>
    (r.id = call.id → n ∈ whitelist ∧ n.head? = some slash) ∧
    (r.id ≠ call.id → r.id = toWord (-1))) σ))

/-- An `openat` of a relative name that is whitelisted behind the path of its directory. -/
def Escapes (v : VFS F) (call : SyscallCall) (n : Str) : Prop :=
  call.id = SYS_openat ∧ n.head? ≠ some slash ∧
    ∃ p ∈ whitelist, openatTarget v (call.args 0) n = some p

theorem whitelist_absolute : ∀ p ∈ whitelist, p.head? = some slash := by decide

theorem isWhitelisted_iff {n : Str} : isWhitelisted n = true ↔ n ∈ whitelist := by
  simp [isWhitelisted]

theorem IsPathCall.ne_answered (h : IsPathCall call.id) : call.id ≠ toWord (-1) := by
  intro h1
  rw [h1] at h
  exact absurd h (by decide)

/-- The verdict on `n` itself is right. -/
theorem pathId_mediates {n : Str} (h : IsPathCall call.id) :
    (pathId call n = call.id → n ∈ whitelist ∧ n.head? = some slash) ∧
      (pathId call n ≠ call.id → pathId call n = toWord (-1)) := by
  unfold pathId
  cases hw : isWhitelisted n with
  | true =>
    have hn := isWhitelisted_iff.1 hw
    exact ⟨fun _ => ⟨hn, whitelist_absolute n hn⟩, fun hne => absurd rfl hne⟩
  | false => exact ⟨fun he => absurd he.symm h.ne_answered, fun _ => rfl⟩

/-- The verdict on another name `p` is right for a relative `n` exactly if `p` is not whitelisted. -/
theorem pathId_mediates_iff {n p : Str} (h : IsPathCall call.id) (hn : n.head? ≠ some slash) :
    ((pathId call p = call.id → n ∈ whitelist ∧ n.head? = some slash) ∧
      (pathId call p ≠ call.id → pathId call p = toWord (-1))) ↔ p ∉ whitelist := by
  unfold pathId
  cases hw : isWhitelisted p with
  | true =>
    have hp := isWhitelisted_iff.1 hw
    exact ⟨fun hm => absurd (hm.1 rfl).2 hn, fun hp' => absurd hp hp'⟩
  | false =>
    have hp : p ∉ whitelist := fun hp => by simp [isWhitelisted_iff.2 hp] at hw
    exact ⟨fun _ => hp, fun _ => ⟨fun he => absurd he.symm h.ne_answered, fun _ => rfl⟩⟩

omit [Filesystem F W] in
theorem answerId_path (h : IsPathCall call.id) (ho : call.id ≠ SYS_openat) :
    answerId σ call = pathId call (σ.nameAt (call.args 0)) := by
  simp only [IsPathCall, List.mem_cons, List.not_mem_nil, or_false] at h
  rcases h with h | h | h | h | h | h
  all_goals first | exact absurd h ho | simp [answerId, h, SYS_open, SYS_openat, SYS_access, SYS_stat,
    SYS_lstat, SYS_readlink, SYS_close, SYS_read, SYS_fstat, SYS_getdents, SYS_lseek, SYS_write,
    SYS_chdir, SYS_getcwd]

omit [Filesystem F W] in
theorem answerId_openat (h : call.id = SYS_openat) :
    answerId σ call =
      pathId call ((openatTarget σ.vfs (call.args 0) (σ.nameAt (call.args 1))).getD []) := by
  simp [answerId, h, SYS_open, SYS_openat, SYS_close, SYS_read, SYS_fstat, SYS_getdents]

/-- The calls that hand a filesystem no vector of their own length. -/
theorem contained_of_ne (hread : call.id ≠ SYS_read) (hdents : call.id ≠ SYS_getdents) : Contained σ call := by
  unfold Contained
  rw [if_neg hread, if_neg hdents]
  trivial

theorem IsPathCall.contained (h : IsPathCall call.id) : Contained σ call := by
  refine contained_of_ne ?_ ?_
  all_goals
    intro hid
    rw [hid] at h
    exact absurd h (by decide)

theorem completes_openat (h : call.id = SYS_openat) : Completes σ call ↔ OpenatCompletes σ call := by
  simp [Completes, h, SYS_open, SYS_openat, SYS_close, SYS_read, SYS_fstat, SYS_getdents]

theorem path_mediated_iff {n : Str} (hp : IsPathCall call.id)
    (hn : HoldsPath σ.mem (pathArg call) n) :
    Mediated σ call n ↔ Survives σ call ∧ ¬ Escapes σ.vfs call n := by
  unfold Mediated
  rw [returns_handleSyscall (P := fun id => (id = call.id → n ∈ whitelist ∧ n.head? = some slash) ∧
    (id ≠ call.id → id = toWord (-1)))]
  rw [Survives, and_iff_left hp.contained]
  refine and_congr_right fun hs => ?_
  by_cases ho : call.id = SYS_openat
  · rw [pathArg, if_pos ho] at hn
    have hname : σ.nameAt (call.args 1) = n := nameAt_of_holds hn
    rw [answerId_openat ho, hname]
    by_cases habs : n.head? = some slash
    · have htarget : openatTarget σ.vfs (call.args 0) n = some n := by rw [openatTarget, if_pos habs]
      rw [htarget]
      exact ⟨fun _ he => he.2.1 habs, fun _ => pathId_mediates hp⟩
    · obtain ⟨_, p, htarget, _⟩ := (completes_openat ho).1 hs
      rw [hname] at htarget
      rw [htarget, Option.getD_some, pathId_mediates_iff hp habs]
      constructor
      · rintro hpw ⟨_, _, q, hq, hqt⟩
        rw [htarget, Option.some.injEq] at hqt
        exact hpw (hqt ▸ hq)
      · intro he hpw
        exact he ⟨ho, habs, p, hpw, htarget⟩
  · rw [pathArg, if_neg ho] at hn
    have hname : σ.nameAt (call.args 0) = n := nameAt_of_holds hn
    rw [answerId_path hp ho, hname]
    exact ⟨fun _ he => ho he.1, fun _ => pathId_mediates hp⟩

theorem path_mediated_whitelisted :
    HoldsPath (mounted (str "/etc/ld.so.cache") ⟨3⟩).mem 0 (str "/etc/ld.so.cache") ∧
      (Mediated (mounted (str "/etc/ld.so.cache") ⟨3⟩) (.of SYS_open [0]) (str "/etc/ld.so.cache") ↔
        Survives (mounted (str "/etc/ld.so.cache") ⟨3⟩) (.of SYS_open [0]) ∧
          ¬ Escapes (mounted (str "/etc/ld.so.cache") ⟨3⟩).vfs (.of SYS_open [0])
            (str "/etc/ld.so.cache")) :=
  ⟨by decide +kernel, path_mediated_iff (by decide) (by decide +kernel)⟩

/-- `chdir ("/etc/ld.so.cach")` and then `openat (AT_FDCWD, "e")`, which the kernel resolves in the
directory the child has there. -/
theorem openat_escapes : ∃ σ : Tracer Fixed Unit, Reachable σ ∧
    σ.vfs.cwd.map File.path = some (str "/etc/ld.so.cach") ∧
    HoldsPath σ.mem (pathArg (.of SYS_openat [toWord AT_FDCWD, 16])) (str "e") ∧
    ¬ Mediated σ (.of SYS_openat [toWord AT_FDCWD, 16]) (str "e") := by
  refine (mounted_reachable (str "/etc/ld.so.cach" ++ 0 :: str "e") ⟨3⟩).after (.of SYS_chdir [0]) ?_
  decide +kernel

/-! ## Survival -/

/-- A close, read, write, fstat, getdents or lseek of a virtual descriptor that is not open, or an
`openat` relative to one. -/
def NamesMissingFile (σ : Tracer F W) (call : SyscallCall) : Prop :=
  isVirtualFD (asInt (call.args 0)) = true ∧ σ.vfs.openFiles[asInt (call.args 0)]? = none ∧
    (call.id ∈ [SYS_close, SYS_read, SYS_write, SYS_fstat, SYS_getdents, SYS_lseek] ∨
      call.id = SYS_openat ∧ (σ.nameAt (call.args 1)).head? ≠ some slash)

/-- The tracer handles the call within its own objects and returns one with `Q`. -/
def Answers (σ : Tracer F W) (call : SyscallCall) (Q : SyscallCall → Tracer F W → Prop) : Prop :=
  Contained σ call ∧ Returns (handleSyscall call) Q σ

/-- The call is answered, with `EBADF` and nothing changed if its descriptor is not open. -/
def Tolerated (σ : Tracer F W) (call : SyscallCall) : Prop :=
  Answers σ call fun r t => NamesMissingFile σ call →
    r.id = toWord (-1) ∧ r.returnVal = toWord (-EBADF) ∧ t.vfs = σ.vfs

omit [Filesystem F W] in
theorem openatTarget_missing {v : VFS F} {dirfd : Word} {n : Str} (hn : n.head? ≠ some slash)
    (hv : isVirtualFD (asInt dirfd) = true) (hf : v.openFiles[asInt dirfd]? = none) :
    openatTarget v dirfd n = none := by
  have hcwd : dirfd ≠ toWord AT_FDCWD := by
    intro h
    rw [h] at hv
    exact absurd hv (by decide)
  rw [openatTarget, if_neg hn, if_neg hcwd, if_pos hv, hf]
  rfl

/-- `getFile` throws before the branch for a null file is reached. -/
theorem NamesMissingFile.not_completes (h : NamesMissingFile σ call) : ¬ Completes σ call := by
  obtain ⟨hv, hf, hid | ⟨hid, hn⟩⟩ := h
  · have hfd : ∀ after : File F → Prop, ¬ FdCompletes σ (asInt (call.args 0)) after := by
      intro after hs
      obtain ⟨f, hf', _⟩ := hs hv
      rw [hf] at hf'
      cases hf'
    simp only [List.mem_cons, List.not_mem_nil, or_false] at hid
    rcases hid with hid | hid | hid | hid | hid | hid
    all_goals simp [Completes, hid, hfd, ReadCompletes, WriteCompletes, FstatCompletes, GetdentsCompletes,
      SYS_close, SYS_read, SYS_write, SYS_fstat, SYS_getdents, SYS_lseek, SYS_open, SYS_openat]
  · rw [completes_openat hid]
    rintro ⟨_, p, hp, _⟩
    rw [openatTarget_missing hn hv hf] at hp
    cases hp

theorem completes_iff_returns : Completes σ call ↔ Returns (handleSyscall call) (fun _ _ => True) σ := by
  rw [returns_handleSyscall (P := fun _ => True), and_true]

theorem tolerated_iff : Tolerated σ call ↔ Survives σ call := by
  constructor
  · rintro ⟨hc, h⟩
    exact ⟨completes_iff_returns.2 (h.mono fun _ _ _ => trivial), hc⟩
  · rintro ⟨h, hc⟩
    exact ⟨hc, (completes_iff_returns.1 h).mono fun _ _ _ hmiss => absurd h hmiss.not_completes⟩

/-- `close (4096)` before anything was opened. -/
theorem close_unopened_throws : Reachable (mounted [] ⟨3⟩) ∧
    NamesMissingFile (mounted [] ⟨3⟩) (.of SYS_close [4096]) ∧
    wp (handleSyscall (.of SYS_close [4096])) (fun _ _ => False) (fun e _ => e = .outOfRange)
      (mounted [] ⟨3⟩) ∧
    ¬ Tolerated (mounted [] ⟨3⟩) (.of SYS_close [4096]) := by
  have hthrow : wp (handleSyscall (.of SYS_close [4096])) (fun _ _ => False)
      (fun e _ => e = .outOfRange) (mounted [] ⟨3⟩) := by decide +kernel
  exact ⟨mounted_reachable _ _, ⟨by decide, by decide +kernel, Or.inl (by decide)⟩, hthrow,
    fun h => not_returns_of_throws hthrow h.2⟩

end CodiusSandbox
