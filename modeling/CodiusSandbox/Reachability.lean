import CodiusSandbox.Survival
/-!
# The states a VFS can be in

The host mounts filesystems and sets the current directory, the child makes calls, and in between
the child's memory, `errno`, the filesystems and the tracer's heap and stack change at will. Another
VFS of the same process draws from the same descriptor counter. A call that crashes the tracer leads
nowhere.

`TableStep` says what one call can do to the tables; the invariants over runs are derived from it.
-/
namespace CodiusSandbox

open Wp

variable {F W : Type}

/-- Everything that may change between two calls, other than the tables. -/
structure Environment (W : Type) where
  mem : Memory
  errno : Errno
  world : W
  slack : List UInt8
  stack : Buffer
  allocLimit : Nat

/-- The tables of `σ` in another environment. -/
def Tracer.moveTo (σ : Tracer F W) (e : Environment W) : Tracer F W :=
  { σ with
    mem := e.mem
    errno := e.errno
    world := e.world
    slack := e.slack
    stack := e.stack
    allocLimit := e.allocLimit }

/-- A new VFS. -/
def Tracer.start (e : Environment W) : Tracer F W :=
  ⟨.empty, firstVirtualFD, e.mem, e.errno, e.world, e.slack, e.stack, e.allocLimit, []⟩

/-- A child with one page, at address 0. -/
def page (bytes : Str) : Environment Unit :=
  { mem := fun a => if a.toNat < 4096 then some (bytes.getD a.toNat 0) else none
    errno := 0
    world := ()
    slack := []
    stack := fun _ => 0
    allocLimit := 2 ^ 32 }

/-- A call by number and arguments. -/
def SyscallCall.of (id : Word) (args : List Word) : SyscallCall := ⟨id, fun i => args.getD i 0, 0⟩

section
variable [Filesystem F W]

inductive Step : Tracer F W → Tracer F W → Prop
  | mount (σ : Tracer F W) (path : Str) (fs : F) :
      Step σ { σ with vfs := σ.vfs.mountFilesystem path fs }
  | setCWD {σ t : Tracer F W} {name : Str} {ret : Int} (h : setCWD name σ = .ok ret t) : Step σ t
  | syscall {σ t : Tracer F W} {call ret : SyscallCall} (h : handleSyscall call σ = .ok ret t) :
      Step σ t
  | environment (σ : Tracer F W) (e : Environment W) : Step σ (σ.moveTo e)
  /-- A `File` of another VFS. -/
  | otherFile (σ : Tracer F W) : Step σ { σ with nextFD := succInt σ.nextFD }

inductive Reachable : Tracer F W → Prop
  | start (e : Environment W) : Reachable (.start e)
  | step {σ t : Tracer F W} (hσ : Reachable σ) (h : Step σ t) : Reachable t

/-- A call that returns in a state with `Q` leads to a state with `Q`. -/
theorem Reachable.after {σ : Tracer F W} (hσ : Reachable σ) (call : SyscallCall)
    {Q : Tracer F W → Prop} (h : Returns (handleSyscall call) (fun _ t => Q t) σ) :
    ∃ t, Reachable t ∧ Q t := by
  obtain ⟨r, t, ht, hq⟩ := returns_iff.1 h
  exact ⟨t, .step hσ (.syscall ht), hq⟩

/-- Induction over a run. -/
theorem Reachable.invariant {I : Tracer F W → Prop} (hstart : ∀ e, I (.start e))
    (hstep : ∀ σ t, I σ → Step σ t → I t) {σ : Tracer F W} (h : Reachable σ) : I σ := by
  induction h with
  | start e => exact hstart e
  | step _ hs ih => exact hstep _ _ ih hs

end

/-! ## What a call does to the tables -/

/-- From tables `v` and counter `n`: nothing, a file opened, a file closed, or a new directory. -/
inductive TableStep (v : VFS F) (n : Int) : VFS F → Int → Prop
  | same : TableStep v n v n
  | opened {p path : Str} {fs : F} (fd : Int) (h : v.getFilesystem p = .ok (some (path, fs))) :
      TableStep v n { v with openFiles := v.openFiles.insertIfNew n ⟨fd, n, p, fs⟩ } (succInt n)
  | closed {fd : Int} {f : File F} (h : v.openFiles[fd]? = some f) :
      TableStep v n { v with openFiles := v.openFiles.erase f.virtualFD } n
  | moved {p path : Str} {fs : F} (fd : Int) (h : v.getFilesystem p = .ok (some (path, fs))) :
      TableStep v n { v with cwd := some ⟨fd, n, p, fs⟩ } (succInt n)

/-- Where `x` returns from `σ`, the tables have made one step. -/
def Acts {α : Type} (v : VFS F) (n : Int) (x : TracerM F W α) (σ : Tracer F W) : Prop :=
  wp x (fun _ t => TableStep v n t.vfs t.nextFD) (fun _ _ => True) σ

/-- The tables and the counter. -/
def Tracer.tables (σ : Tracer F W) : VFS F × Int := (σ.vfs, σ.nextFD)

/-- `x` leaves the tables alone. -/
abbrev Keeps {α : Type} (x : TracerM F W α) : Prop := Preserves Tracer.tables x

section
variable {α β : Type} {x : TracerM F W β} {f : β → TracerM F W α} {σ t : Tracer F W}

theorem sameTables_iff : σ.SameTables t ↔ t.tables = σ.tables := by
  simp only [Tracer.tables, Prod.mk.injEq]
  exact ⟨fun h => ⟨h.vfs, h.nextFD⟩, fun h => ⟨h.1, h.2⟩⟩

theorem keeps_of_outside (h : Preserves Tracer.outside x) : Keeps x := h.mono fun o => (o.1, o.2.1)

theorem Keeps.acts (hx : Keeps x) : Acts σ.vfs σ.nextFD x σ := by
  refine wp_mono (fun _ t ht => ?_) (fun _ _ _ => trivial) (hx σ)
  rw [(sameTables_iff.2 ht).vfs, (sameTables_iff.2 ht).nextFD]
  exact .same

/-- What leaves the tables alone may come before. -/
theorem Keeps.bind_acts (hx : Keeps x) (hf : ∀ b t, σ.SameTables t → Acts σ.vfs σ.nextFD (f b) t) :
    Acts σ.vfs σ.nextFD (x >>= f) σ := by
  unfold Acts
  rw [wp_bind]
  exact wp_mono (fun b t ht => hf b t (sameTables_iff.2 ht)) (fun _ _ _ => trivial) (hx σ)

end

section
variable [Filesystem F W] {call : SyscallCall} {σ : Tracer F W}

theorem openFile_acts (n : Str) (flags mode : Int) :
    Acts σ.vfs σ.nextFD (openFile call n flags mode) σ := by
  cases hw : isWhitelisted n with
  | true =>
    rw [openFile, if_pos hw]
    exact Keeps.acts (.pure _)
  | false =>
    unfold Acts
    by_cases h : ∃ path fs, σ.vfs.getFilesystem n = .ok (some (path, fs))
    · obtain ⟨path, fs, h⟩ := h
      obtain ⟨t, ht, hs⟩ := openFile_run call flags mode hw h
      rw [wp_ok ht, hs.vfs, hs.nextFD]
      split
      · exact .opened _ h
      · exact .same
    · rw [openFile, hw, if_neg (by decide), wp_bind, wp_getFilesystem]
      refine ⟨fun r hr => ?_, fun _ _ => trivial⟩
      rcases r with _ | ⟨path, fs⟩
      · exact .same
      · exact absurd ⟨path, fs, hr⟩ h

theorem setCWD_acts (n : Str) : Acts σ.vfs σ.nextFD (setCWD n) σ := by
  unfold Acts
  rcases getFilesystem_cases σ.vfs (trimSlash n) with ⟨_, r, hok⟩ | ⟨_, e, herr⟩
  · rcases r with _ | ⟨path, fs⟩
    · rw [wp_ok (setCWD_none hok)]
      exact .same
    · obtain ⟨t, ht, hs⟩ := setCWD_some hok
      rw [wp_ok ht, hs.vfs, hs.nextFD]
      exact .moved _ hok
  · exact (wp_error (setCWD_error herr)).2 trivial

theorem doOpen_acts : Acts σ.vfs σ.nextFD (doOpen call) σ :=
  (keeps_of_outside (getFilename_outside _)).bind_acts fun n t ht => by
    rw [← ht.vfs, ← ht.nextFD]
    exact openFile_acts n _ _

theorem doOpenat_acts : Acts σ.vfs σ.nextFD (doOpenat call) σ := by
  refine (keeps_of_outside (getFilename_outside _)).bind_acts fun n t ht => ?_
  rw [← ht.vfs, ← ht.nextFD]
  refine (keeps_of_outside (openatName_outside _ _)).bind_acts fun p u hu => ?_
  rw [← hu.vfs, ← hu.nextFD]
  exact openFile_acts p _ _

theorem doChdir_acts : Acts σ.vfs σ.nextFD (doChdir call) σ := by
  refine (keeps_of_outside (getFilename_outside _)).bind_acts fun n t ht => ?_
  rw [← ht.vfs, ← ht.nextFD]
  unfold Acts
  rw [wp_bind]
  exact setCWD_acts n

theorem doClose_acts : Acts σ.vfs σ.nextFD (doClose call) σ := by
  unfold doClose
  split
  · rename_i hv
    unfold Acts
    rw [wp_bind, wp_getFile hv]
    refine ⟨fun f hf => ?_, fun _ => trivial⟩
    obtain ⟨a, t, hclose, hfd, ht⟩ := close_run f σ
    dsimp only
    rw [wp_bind, wp_ok hclose, wp_bind, wp_modify]
    obtain ⟨u, hdestroy, hu⟩ := destroy_run a.2
      { t with vfs := { t.vfs with openFiles := t.vfs.openFiles.erase a.2.virtualFD } }
    rw [wp_bind, wp_ok hdestroy, wp_pure, hu.vfs, hu.nextFD, hfd, ht.vfs, ht.nextFD]
    exact .closed hf
  · exact Keeps.acts (.pure _)

/-! ## The handlers that change no table -/

/-- `R` holds between the states before and after a request to a filesystem, and between states that only differ
in what concerns the child. -/
structure Admits (R : Tracer F W → Tracer F W → Prop) : Prop where
  trans : ∀ {s t u}, R s t → R t u → R s u
  outside : ∀ {s t}, t.outside = s.outside → R s t
  request : ∀ {α : Type} (fs : F) (request : Request) (result : α → Int) (op : StateM (Host W) α),
    Advances R (fsCall fs request result op)

omit [Filesystem F W] in
/-- The tables stay as they are. -/
theorem tables_admits : Admits fun σ t : Tracer F W => t.tables = σ.tables where
  trans := fun h h' => h'.trans h
  outside := fun h => congrArg (fun o => (o.1, o.2.1)) h
  request := fun _ _ _ _ => fun _ => rfl

namespace Admits

variable {α β : Type} {R : Tracer F W → Tracer F W → Prop} (h : Admits R)
include h

omit [Filesystem F W] in
theorem child {x : TracerM F W α} (hx : Preserves Tracer.outside x) : Advances R x :=
  .of_preserves hx fun _ _ => h.outside

omit [Filesystem F W] in
theorem pure (a : α) : Advances R (pure a : TracerM F W α) := h.child (.pure a)

omit [Filesystem F W] in
theorem get : Advances R (get : TracerM F W (Tracer F W)) := h.child .get

omit [Filesystem F W] in
theorem bind {x : TracerM F W β} {f : β → TracerM F W α} (hx : Advances R x) (hf : ∀ b, Advances R (f b)) :
    Advances R (x >>= f) :=
  Advances.bind (R := R) h.trans hx hf

omit [Filesystem F W] in
theorem writeAnswer (addr : Address) (length : Nat) (buf : Buffer) (r : SyscallCall) :
    Advances R (ptrace (writeData addr length buf) >>= fun _ => Pure.pure r : TracerM F W SyscallCall) :=
  h.bind (h.child (ptrace_outside _)) fun _ => h.pure _

omit [Filesystem F W] in
theorem vectorAnswer (addr : Address) (length : Nat) (buf : Buffer) (size : Nat) (r : SyscallCall) :
    Advances R (writeVector addr length buf size >>= fun _ => Pure.pure r : TracerM F W SyscallCall) :=
  h.bind (h.child (writeVector_outside _ _ _ _)) fun _ => h.pure _

omit [Filesystem F W] in
theorem file {k : Option (File F) → TracerM F W SyscallCall} {fd : Int} (hk : ∀ f, Advances R (k f)) :
    Advances R (if isVirtualFD fd then getFile fd >>= k else Pure.pure call : TracerM F W SyscallCall) :=
  .ite (h.bind (h.child (getFile_outside _)) hk) (h.pure _)

omit [Filesystem F W] in
theorem path {k : Str → Option (Str × F) → TracerM F W SyscallCall} {addr : Address}
    (hk : ∀ n r, Advances R (k n r)) :
    Advances R (getFilename addr >>= fun n =>
      if isWhitelisted n then Pure.pure call else getFilesystem n >>= k n : TracerM F W SyscallCall) :=
  h.bind (h.child (getFilename_outside _)) fun _ =>
    .ite (h.pure _) (h.bind (h.child (getFilesystem_outside _)) fun _ => hk _ _)

theorem doRead : Advances R (doRead call : TracerM F W SyscallCall) := by
  refine h.file fun f => h.bind (h.child (newVector_outside _)) fun buf => ?_
  split
  · refine h.bind (h.request _ _ _ _) fun r => .ite (h.vectorAnswer _ _ _ _ _) ?_
    exact h.bind h.get fun _ => h.pure _
  · exact h.pure _

theorem doFstat : Advances R (doFstat call : TracerM F W SyscallCall) := by
  refine h.file fun f => ?_
  split
  · refine h.bind h.get fun s => h.bind (h.request _ _ _ _) fun r => .ite ?_ (h.pure _)
    exact h.writeAnswer _ _ _ _
  · exact h.pure _

theorem doGetdents : Advances R (doGetdents call : TracerM F W SyscallCall) := by
  refine h.file fun f => ?_
  split
  · refine h.bind (h.child (newVector_outside _)) fun buf => ?_
    refine h.bind (h.request _ _ _ _) fun r => .ite ?_ (h.pure _)
    exact h.vectorAnswer _ _ _ _ _
  · exact h.pure _

theorem doWrite : Advances R (doWrite call : TracerM F W SyscallCall) := by
  refine h.file fun f => ?_
  split
  · refine h.bind (h.child (newVector_outside _)) fun s => ?_
    refine h.bind (h.child (ptrace_outside _)) fun r => ?_
    exact h.bind (h.request _ _ _ _) fun _ => h.pure _
  · exact h.pure _

theorem doLseek : Advances R (doLseek call : TracerM F W SyscallCall) := by
  refine h.file fun f => ?_
  split
  · exact h.bind (h.request _ _ _ _) fun _ => h.pure _
  · exact h.pure _

theorem doAccess : Advances R (doAccess call : TracerM F W SyscallCall) := by
  refine h.path fun n r => ?_
  split
  · exact h.bind (h.request _ _ _ _) fun _ => h.pure _
  · exact h.pure _

omit [Filesystem F W] in
theorem statWith {request : Str → Request} {op : F → Str → Buffer → StateM (Host W) (Int × Buffer)} :
    Advances R (statWith request op call : TracerM F W SyscallCall) := by
  refine h.path fun n r => ?_
  split
  · refine h.bind h.get fun s => h.bind (h.request _ _ _ _) fun r => .ite ?_ (h.pure _)
    exact h.writeAnswer _ _ _ _
  · exact h.pure _

theorem doReadlink : Advances R (doReadlink call : TracerM F W SyscallCall) := by
  refine h.path fun n r => ?_
  split
  · refine h.bind (h.child (newVector_outside _)) fun buf => ?_
    exact h.bind (h.request _ _ _ _) fun r => h.vectorAnswer _ _ _ _ _
  · exact h.pure _

omit [Filesystem F W] in
theorem doGetcwd : Advances R (doGetcwd call : TracerM F W SyscallCall) := by
  refine h.bind (h.bind h.get fun s => ?_) fun c => h.bind (h.child (ptrace_outside _)) fun _ => h.pure _
  split
  · exact h.pure _
  · exact h.child (.throw _)

end Admits

omit [Filesystem F W] in
theorem Acts.ite {c : Prop} [Decidable c] {x y : TracerM F W SyscallCall}
    (hx : Acts σ.vfs σ.nextFD x σ) (hy : Acts σ.vfs σ.nextFD y σ) :
    Acts σ.vfs σ.nextFD (if c then x else y) σ := by
  split
  · exact hx
  · exact hy

theorem handleSyscall_acts : Acts σ.vfs σ.nextFD (handleSyscall call) σ := by
  refine Acts.ite doOpen_acts (Acts.ite doClose_acts ?_)
  have h : Admits fun σ t : Tracer F W => t.tables = σ.tables := tables_admits
  refine Acts.ite (Keeps.acts h.doRead) (Acts.ite (Keeps.acts h.doFstat) (Acts.ite (Keeps.acts h.doGetdents) ?_))
  refine Acts.ite doOpenat_acts (Acts.ite (Keeps.acts h.doLseek) (Acts.ite (Keeps.acts h.doWrite) ?_))
  refine Acts.ite (Keeps.acts h.doAccess) (Acts.ite doChdir_acts ?_)
  refine Acts.ite (Keeps.acts h.statWith) (Acts.ite (Keeps.acts h.statWith) ?_)
  exact Acts.ite (Keeps.acts h.doGetcwd) (Acts.ite (Keeps.acts h.doReadlink) (Keeps.acts (.pure _)))

/-- One step of a run, seen from the tables. -/
theorem Step.tables {t : Tracer F W} (h : Step σ t) :
    (∃ path fs, t.vfs = σ.vfs.mountFilesystem path fs ∧ t.nextFD = σ.nextFD) ∨
      TableStep σ.vfs σ.nextFD t.vfs t.nextFD ∨ (t.vfs = σ.vfs ∧ t.nextFD = succInt σ.nextFD) := by
  cases h with
  | mount path fs => exact Or.inl ⟨path, fs, rfl, rfl⟩
  | setCWD h => exact Or.inr (Or.inl ((wp_ok h).1 (setCWD_acts _)))
  | syscall h => exact Or.inr (Or.inl ((wp_ok h).1 handleSyscall_acts))
  | environment e => exact Or.inr (Or.inl .same)
  | otherFile => exact Or.inr (Or.inr ⟨rfl, rfl⟩)

end

/-- A VFS with one filesystem, mounted at `/`. -/
def mounted (bytes : Str) (fs : Fixed) : Tracer Fixed Unit :=
  { Tracer.start (page bytes) with vfs := VFS.empty.mountFilesystem (str "/") fs }

theorem mounted_reachable (bytes : Str) (fs : Fixed) : Reachable (mounted bytes fs) :=
  .step (.start (page bytes)) (.mount _ _ _)

end CodiusSandbox
