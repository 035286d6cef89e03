import CodiusSandbox.Mediation
/-!
# What a relative name resolves to

`question v n` is what the VFS asks about when it resolves a name `n` itself: the filesystem and the
local path. `handleSyscall_asks` says for each path call which question reaches a filesystem.

An `openat` resolves what it glued together, the other calls the name they were given; `stat` and
`lstat` then ask about that name and not about the local path.
-/
namespace CodiusSandbox

open Wp PrefixTable

variable {F W : Type} {σ : Tracer F W} {call : SyscallCall}

/-! ## Questions -/

/-- The path an event asks its filesystem about. -/
def FsEvent.question (e : FsEvent F) : Option (F × Str) := e.request.path?.map fun p => (e.fs, p)

/-- The paths filesystems have been asked about, in order. -/
def Tracer.questions (σ : Tracer F W) : List (F × Str) := σ.calls.filterMap FsEvent.question

/-- However `x` ends, it has asked about `q`. -/
@[irreducible] def Asks {α : Type} (q : List (F × Str)) (x : TracerM F W α) (σ : Tracer F W) : Prop :=
  wp x (fun _ t => t.questions = σ.questions ++ q) (fun _ t => t.questions = σ.questions ++ q) σ

/-- `x` asks about no path. -/
abbrev Quiet {α : Type} (x : TracerM F W α) : Prop := Preserves Tracer.questions x

section
variable {α β : Type} {x : TracerM F W β} {f : β → TracerM F W α} {q q' : List (F × Str)}

theorem quiet_of_outside (h : Preserves Tracer.outside x) : Quiet x :=
  h.mono fun o => o.2.2.2.2.2.2.filterMap FsEvent.question

theorem Quiet.asks (h : Quiet x) : Asks [] x σ := by
  unfold Asks
  simp only [List.append_nil]
  exact h σ

/-- An error ends the questions. -/
theorem asks_error (h : Quiet x) (hx : ∃ e t, x σ = .error e t) : Asks [] (x >>= f) σ := by
  obtain ⟨e, t, hx⟩ := hx
  have := h σ
  unfold Asks wp at *
  simp only [hx, bind_error hx, List.append_nil] at this ⊢
  exact this

theorem Quiet.asks_bind {b : β} {t : Tracer F W} (h : Quiet x) (hx : x σ = .ok b t)
    (hf : Asks q (f b) t) : Asks q (x >>= f) σ := by
  have ht : t.questions = σ.questions := h.of_ok hx
  unfold Asks at *
  rw [wp_bind, wp_ok hx, ← ht]
  exact hf

theorem Asks.bind_quiet (hx : Asks q x σ) (hf : ∀ b, Quiet (f b)) : Asks q (x >>= f) σ := by
  unfold Asks at *
  rw [wp_bind]
  refine wp_mono (fun b t ht => ?_) (fun _ _ => id) hx
  exact wp_mono (fun _ _ hu => hu.trans ht) (fun _ _ hu => hu.trans ht) (hf b t)

/-- A run asks one list of questions. -/
theorem Asks.unique (h : Asks q x σ) (h' : Asks q' x σ) : q = q' := by
  unfold Asks wp at *
  cases hx : x σ with
  | ok a t =>
    rw [hx] at h h'
    exact List.append_cancel_left (h.symm.trans h')
  | error e t =>
    rw [hx] at h h'
    exact List.append_cancel_left (h.symm.trans h')

theorem fsCall_quiet {fs : F} {request : Request} {result : α → Int} {op : StateM (Host W) α}
    (h : request.path? = none) : Quiet (fsCall fs request result op) := fun σ => by
  rw [wp_fsCall]
  simp [Tracer.after, Tracer.questions, FsEvent.question, h]

theorem fsCall_asks {fs : F} {request : Request} {result : α → Int} {op : StateM (Host W) α} {p : Str}
    (h : request.path? = some p) : Asks [(fs, p)] (fsCall fs request result op) σ := by
  unfold Asks
  rw [wp_fsCall]
  simp [Tracer.after, Tracer.questions, FsEvent.question, h]

end

/-- The questions `ask` about what `n` resolves to. -/
def lookupAsks (v : VFS F) (n : Str) (ask : Str → F → List (F × Str)) : List (F × Str) :=
  if isWhitelisted n then []
  else match v.getFilesystem n with
    | .ok (some (path, fs)) => ask path fs
    | _ => []

/-- What resolving `n` asks about. -/
def question (v : VFS F) (n : Str) : List (F × Str) := lookupAsks v n fun path fs => [(fs, path)]

/-- What an `openat` asks about. -/
def openatQuestions (v : VFS F) (dirfd : Word) (n : Str) : List (F × Str) :=
  match openatTarget v dirfd n with
  | some p => question v p
  | none => []

/-- What a call asks about once its name `n` has resolved to `path` on `fs`. -/
def asked (σ : Tracer F W) (call : SyscallCall) (n path : Str) (fs : F) : List (F × Str) :=
  -- `do_stat` and `do_lstat` hand on the name as the child gave it
  if call.id = SYS_stat ∨ call.id = SYS_lstat then [(fs, n)]
  -- `do_readlink` first makes room for the answer
  else if call.id = SYS_readlink ∧ ¬ Fits σ (call.args 2).toNat then []
  else [(fs, path)]

/-- What a path call asks about, once its path could be read. -/
def pathQuestions (σ : Tracer F W) (call : SyscallCall) : List (F × Str) :=
  if call.id = SYS_openat then openatQuestions σ.vfs (call.args 0) (σ.nameAt (pathArg call))
  else lookupAsks σ.vfs (σ.nameAt (pathArg call)) (asked σ call (σ.nameAt (pathArg call)))

theorem asks_lookup {v : VFS F} (hv : σ.vfs = v) {n : Str} {k : Option (Str × F) → TracerM F W SyscallCall}
    {ask : Str → F → List (F × Str)} (hnone : Quiet (k none))
    (hsome : ∀ path fs, Asks (ask path fs) (k (some (path, fs))) σ) :
    Asks (lookupAsks v n ask) (if isWhitelisted n then pure call else getFilesystem n >>= k) σ := by
  subst hv
  unfold lookupAsks
  cases isWhitelisted n with
  | true => exact Quiet.asks (.pure call)
  | false =>
    simp only [Bool.false_eq_true, if_false]
    have hq : Quiet (getFilesystem n : TracerM F W _) := quiet_of_outside (getFilesystem_outside n)
    cases h : σ.vfs.getFilesystem n with
    | error e => exact asks_error hq ⟨e, σ, by simp only [getFilesystem, h]⟩
    | ok r =>
      have hrun : getFilesystem n σ = .ok r σ := by simp only [getFilesystem, h]
      rcases r with _ | ⟨path, fs⟩
      · exact hq.asks_bind hrun hnone.asks
      · exact hq.asks_bind hrun (hsome path fs)

section
variable [Filesystem F W]

omit [Filesystem F W] in
theorem path_asks {addr : Address} {f : Str → TracerM F W SyscallCall} {q : List (F × Str)}
    (hr : Readable σ.mem addr 1024) (hf : Asks q (f (σ.nameAt addr)) { σ with errno := 0 }) :
    Asks q (getFilename addr >>= f) σ :=
  (quiet_of_outside (getFilename_outside addr)).asks_bind (getFilename_readable hr) hf

theorem close_quiet (f : File F) : Quiet (f.close : TracerM F W _) :=
  .ite (.bind (fsCall_quiet rfl) fun _ => .pure _) (.pure _)

theorem destroy_quiet (f : File F) : Quiet (f.destroy : TracerM F W _) :=
  .bind (close_quiet f) fun _ => .pure _

omit [Filesystem F W] in
theorem makeFile_quiet (fd : Int) (p : Str) (fs : F) : Quiet (makeFile fd p fs : TracerM F W _) :=
  fun _ => rfl

theorem openFile_asks {v : VFS F} (hv : σ.vfs = v) (n : Str) (flags mode : Int) :
    Asks (question v n) (openFile call n flags mode) σ := by
  refine asks_lookup hv (.pure _) fun path fs => ?_
  refine (fsCall_asks rfl).bind_quiet fun fd => .ite (.bind .get fun s => ?_) (.bind .get fun _ => .pure _)
  exact .bind (makeFile_quiet _ _ _) fun file => .ite (.bind (destroy_quiet _) fun _ => .pure _) (.pure _)

theorem doOpen_asks (hr : Readable σ.mem (call.args 0) 1024) :
    Asks (question σ.vfs (σ.nameAt (call.args 0))) (doOpen call) σ :=
  path_asks hr (openFile_asks (σ := { σ with errno := 0 }) rfl _ _ _)

theorem doAccess_asks (hr : Readable σ.mem (call.args 0) 1024) :
    Asks (question σ.vfs (σ.nameAt (call.args 0))) (doAccess call) σ := by
  apply path_asks hr
  apply asks_lookup (σ := { σ with errno := 0 }) (v := σ.vfs) rfl (Preserves.pure _)
  intro path fs
  exact (fsCall_asks rfl).bind_quiet fun _ => .pure _

omit [Filesystem F W] in
theorem vectorAnswer_quiet (addr : Address) (length : Nat) (buf : Buffer) (size : Nat) (r : SyscallCall) :
    Quiet (writeVector addr length buf size >>= fun _ => pure r : TracerM F W SyscallCall) :=
  .bind (quiet_of_outside (writeVector_outside _ _ _ _)) fun _ => .pure _

omit [Filesystem F W] in
theorem writeAnswer_quiet (addr : Address) (length : Nat) (buf : Buffer) (r : SyscallCall) :
    Quiet (ptrace (writeData addr length buf) >>= fun _ => pure r : TracerM F W SyscallCall) :=
  .bind (quiet_of_outside (ptrace_outside _)) fun _ => .pure _

omit [Filesystem F W] in
theorem statWith_asks {request : Str → Request} (hreq : ∀ n, (request n).path? = some n)
    {op : F → Str → Buffer → StateM (Host W) (Int × Buffer)} (hr : Readable σ.mem (call.args 0) 1024) :
    Asks (lookupAsks σ.vfs (σ.nameAt (call.args 0)) fun _ fs => [(fs, σ.nameAt (call.args 0))])
      (statWith request op call) σ := by
  apply path_asks hr
  apply asks_lookup (σ := { σ with errno := 0 }) (v := σ.vfs) rfl (Preserves.pure _)
  intro path fs
  refine Quiet.asks_bind .get rfl ?_
  refine (fsCall_asks (hreq _)).bind_quiet fun r => .ite ?_ (.pure _)
  exact writeAnswer_quiet _ _ _ _

theorem doReadlink_asks (hr : Readable σ.mem (call.args 0) 1024) :
    Asks (lookupAsks σ.vfs (σ.nameAt (call.args 0)) fun path fs =>
      if ¬ Fits σ (call.args 2).toNat then [] else [(fs, path)]) (doReadlink call) σ := by
  apply path_asks hr
  apply asks_lookup (σ := { σ with errno := 0 }) (v := σ.vfs) rfl (Preserves.pure _)
  intro path fs
  have hq : Quiet (newVector (call.args 2).toNat : TracerM F W Buffer) :=
    quiet_of_outside (newVector_outside _)
  dsimp only
  split
  · rename_i hfits
    exact asks_error hq (newVector_error (σ := { σ with errno := 0 }) hfits)
  · rename_i hfits
    apply hq.asks_bind (newVector_fits (σ := { σ with errno := 0 }) (Decidable.not_not.1 hfits))
    exact (fsCall_asks rfl).bind_quiet fun _ => vectorAnswer_quiet _ _ _ _ _

theorem openatName_asks {v : VFS F} (hv : σ.vfs = v) (dirfd : Word) (n : Str) (flags mode : Int) :
    Asks (openatQuestions v dirfd n)
      (openatName dirfd n >>= fun p => openFile call p flags mode) σ := by
  subst hv
  have hq : Quiet (openatName dirfd n : TracerM F W Str) :=
    quiet_of_outside (openatName_outside dirfd n)
  unfold openatQuestions
  cases hp : openatTarget σ.vfs dirfd n with
  | some p => exact hq.asks_bind (openatName_run hp) (openFile_asks rfl p flags mode)
  | none => exact asks_error hq (openatName_error hp)

theorem doOpenat_asks (hr : Readable σ.mem (call.args 1) 1024) :
    Asks (openatQuestions σ.vfs (call.args 0) (σ.nameAt (call.args 1))) (doOpenat call) σ := by
  apply path_asks hr
  exact openatName_asks (σ := { σ with errno := 0 }) rfl _ _ _ _

/-- Which question a path call asks. -/
theorem handleSyscall_asks (h : IsPathCall call.id) (hr : Readable σ.mem (pathArg call) 1024) :
    Asks (pathQuestions σ call) (handleSyscall call) σ := by
  unfold pathQuestions asked pathArg at *
  simp only [IsPathCall, List.mem_cons, List.not_mem_nil, or_false] at h
  rcases h with h | h | h | h | h | h
  all_goals simp only [handleSyscall, h, SYS_open, SYS_openat, SYS_access, SYS_stat, SYS_lstat,
    SYS_readlink, SYS_close, SYS_read, SYS_fstat, SYS_getdents, SYS_lseek, SYS_write, SYS_chdir,
    SYS_getcwd, BitVec.reduceEq, if_true, if_false, or_false, or_true, true_and, false_and] at hr ⊢
  · exact doOpen_asks hr
  · exact doOpenat_asks hr
  · exact doAccess_asks hr
  · exact statWith_asks (fun _ => rfl) hr
  · exact statWith_asks (fun _ => rfl) hr
  · exact doReadlink_asks hr

theorem handleSyscall_asks_unreadable (h : IsPathCall call.id)
    (hr : ¬ Readable σ.mem (pathArg call) 1024) : Asks [] (handleSyscall call) σ := by
  have hread : ∀ (addr : Address) (f : Str → TracerM F W SyscallCall),
      ¬ Readable σ.mem addr 1024 → Asks [] (getFilename addr >>= f) σ := by
    intro addr f hr
    exact asks_error (quiet_of_outside (getFilename_outside addr)) ⟨_, _, getFilename_unreadable hr⟩
  unfold pathArg at hr
  simp only [IsPathCall, List.mem_cons, List.not_mem_nil, or_false] at h
  rcases h with h | h | h | h | h | h
  all_goals simp only [handleSyscall, h, SYS_open, SYS_openat, SYS_access, SYS_stat, SYS_lstat,
    SYS_readlink, SYS_close, SYS_read, SYS_fstat, SYS_getdents, SYS_lseek, SYS_write, SYS_chdir,
    SYS_getcwd, BitVec.reduceEq, if_true, if_false] at hr ⊢
  all_goals exact hread _ _ hr

end

end CodiusSandbox
