import CodiusSandbox.Scratch
import CodiusSandbox.Seccomp
import CodiusSandbox.SeccompStop
import CodiusSandbox.Lib.Runs
/-!
# A sandbox with all of its processes

Many processes and threads have calls under way at a time, and the handlers of one call may wait while those of
another run: `CodiusNodeFilesystem::doVFS` runs the event loop, and the loop runs `handle_trap`. `Session` is the
sandbox between these moments, `Session.act` what may happen next.

| here | there |
| --- | --- |
| `Regs.filtered`     | the verdict of the filter that `Sandbox::execChild` loads (`sandbox.cpp:199-327`) |
| `Session.begin`     | `SandboxPrivate::handleSeccompEvent` (`sandbox.cpp:396`) up to the first operation of a filesystem |
| `Session.finish`    | the rest of it, and the `PTRACE_CONT` of `handle_trap` |
| `Session.execEvent` | `SandboxPrivate::handleExecEvent` (`sandbox.cpp:71`) |
| `Activity.emit`     | an event for JavaScript, as from `handleSignal` and `handleExit` |
| `Activity.release`  | `releaseChild`, as from `kill`, `launchDebugger` and `handle_trap` |

Each handler of the VFS sets `call.id` before its first operation of a filesystem and nothing but `call.returnVal`
behind it, so the number is settled when a call begins, and the rest may take as long as it likes. Where no other
event comes in between, this is the code's own event (`handleSeccompEvent_session`).

Taken from the kernel: behind a stop it executes what the registers then hold, unless the number is -1, and reads the
memory when it does; the filter sees the number and the first argument alone. Calls from before the main program has
been entered are not logged.
-/
namespace CodiusSandbox

open Wp Runs

variable {F W : Type}

/-! ## State -/

def Regs.filtered (regs : Regs) : Action := seccompAction (regs.readCall 0)

/-- A call that is stopped, as `VFS::handleSyscall` gets it. -/
structure Stop (F W : Type) where
  pid : Int
  /-- `getChildPID ()`. -/
  main : Int
  /-- The process has the memory of the main process, which `writeScratch` writes to. -/
  shared : Bool
  /-- As the call was made. -/
  regs : Regs
  tracer : Tracer F W
  call : SyscallCall

/-- A call that the kernel has executed, on the memory of that moment. -/
structure Executed (F W : Type) where
  made : Regs
  stop : Option (Stop F W)
  call : Word × List Word
  mem : Memory

structure Session (F W : Type) where
  priv : SandboxPrivate F W
  /-- The address space of a process. -/
  space : Int → Nat
  mem : Nat → Memory
  /-- The handlers that wait, the innermost first. -/
  waiting : List (Stop F W)
  /-- The calls whose processes go on, and their registers. -/
  resumed : List (Stop F W × Regs)
  executed : List (Executed F W)

def Session.memory (s : Session F W) (pid : Int) : Memory := s.mem (s.space pid)

/-- The registers that the process goes on with, the VFS having returned `returnVal`. -/
def Stop.answered (w : Stop F W) (returnVal : Word) : Regs :=
  w.regs.writeCall { w.call with id := answerId w.tracer w.call, returnVal := returnVal }

/-! ## Steps -/

/-- The helpers work on the memory `m`. -/
def Sandbox.within (s : Sandbox F W) (m : Memory) : Sandbox F W := { s with tracer := { s.tracer with mem := m } }

def SandboxPrivate.within (s : SandboxPrivate F W) (m : Memory) : SandboxPrivate F W :=
  { s with sandbox := s.sandbox.within m }

/-- What precedes `VFS::handleSyscall` (`sandbox.cpp:428-429`). -/
def prepare (call : SyscallCall) : SandboxM F W SyscallCall := do
  resetScratch
  NodeSandbox.handleSyscall call

/-- The memory behind `writeScratch` is that of the main process, whoever has made the call. -/
def Session.begin (pid : Int) (regs : Regs) (s : Session F W) : Option (Session F W) :=
  let main := s.priv.sandbox.pid
  match prepare (s.priv.call regs) (s.priv.sandbox.within (s.memory main)) with
  | .ok call u =>
    let mem := Function.update s.mem (s.space main) u.tracer.mem
    let u := u.within (mem (s.space pid))
    some { s with
      priv := { s.priv with sandbox := u }
      mem := mem
      waiting := ⟨pid, main, s.space pid = s.space main, regs, u.tracer, call⟩ :: s.waiting }
  | .error _ _ => none

/-- The innermost handler comes to its end. -/
def Session.finish (returnVal : Word) (s : Session F W) : Option (Session F W) :=
  match s.waiting with
  | [] => none
  | w :: rest =>
    if s.priv.sandbox.Detached w.pid then none
    else some { s with waiting := rest, resumed := s.resumed ++ [(w, w.answered returnVal)] }

/-- The kernel goes on with a call. -/
def Session.execute (i : Nat) (s : Session F W) : Option (Session F W) :=
  (s.resumed[i]?).map fun (w, regs) =>
    { s with
      resumed := s.resumed.eraseIdx i
      executed := s.executed ++
        if regs.origRax = toWord (-1) then [] else [⟨w.regs, some w, regs.kernelCall, s.memory w.pid⟩] }

/-- As far as `fuel` rounds go. -/
def Session.execEvent (pid : Int) (regs : Regs) (fuel : Nat) (s : Session F W) : Option (Session F W) :=
  let priv := { s.priv with regs := Function.update s.priv.regs pid (some regs) }
  match handleExecEvent pid fuel (priv.within (s.memory pid)) with
  | .ok true t => some { s with priv := t }
  | _ => none

inductive Activity (F W : Type) where
  /-- The processes have changed their memory, or who shares it. -/
  | processes (space : Int → Nat) (mem : Nat → Memory)
  /-- What handlers that wait, `setCWD` and `mountFilesystem` do to the tables, and anyone to the filesystems. -/
  | tracer (t : Tracer F W)
  | emit (name : Str) (args : List Str)
  | release (signal : Int)
  | execEvent (pid : Int) (regs : Regs) (fuel : Nat)
  /-- A call that the filter lets pass. -/
  | pass (pid : Int) (regs : Regs)
  /-- A call that it stops. -/
  | begin (pid : Int) (regs : Regs)
  | finish (returnVal : Word)
  | execute (i : Nat)

def Session.act : Activity F W → Session F W → Option (Session F W)
  | .processes space mem, s => some { s with space := space, mem := mem }
  | .tracer t, s => some { s with priv.sandbox.tracer := t }
  | .emit name args, s => some { s with priv.sandbox.emitted := s.priv.sandbox.emitted ++ [(name, args)] }
  | .release signal, s => some { s with priv.sandbox.released := s.priv.sandbox.released ++ [signal] }
  | .execEvent pid regs fuel, s => s.execEvent pid regs fuel
  | .pass pid regs, s =>
    if s.priv.enteredMain ∧ regs.filtered = .allow then
      some { s with executed := s.executed ++ [⟨regs, none, regs.kernelCall, s.memory pid⟩] }
    else none
  | .begin pid regs, s =>
    if s.priv.enteredMain ∧ regs.filtered = .trace ∧ ¬ s.priv.sandbox.Detached pid then s.begin pid regs else none
  | .finish returnVal, s => s.finish returnVal
  | .execute i, s => s.execute i

/-- `fork` has returned `pid`; nothing sets `nextScratchSegment`. -/
def Session.start (e : Environment W) (pid : Int) (h : IsInt pid) (segment : Address) : Session F W :=
  ⟨⟨⟨.start e, pid, h, 0, segment, [], []⟩, false, fun _ => none, []⟩, fun _ => 0, fun _ => e.mem, [], [], []⟩

/-- Activities in any order lead to `s`, for a child with number `pid`. -/
def Session.Reached (pid : Int) (s : Session F W) : Prop :=
  ∃ e h segment, Run Session.act (fun _ _ => True) (.start e pid h segment) s

/-- A handler leaves the number of a call, or makes it -1. -/
theorem answerId_cases (σ : Tracer F W) (call : SyscallCall) :
    answerId σ call = call.id ∨ answerId σ call = toWord (-1) := by
  have hpath : ∀ n, pathId call n = call.id ∨ pathId call n = toWord (-1) := by
    intro n
    unfold pathId
    split
    · exact .inl rfl
    · exact .inr rfl
  have hfd : ∀ fd, fdId call fd = call.id ∨ fdId call fd = toWord (-1) := by
    intro fd
    unfold fdId
    split
    · exact .inr rfl
    · exact .inl rfl
  unfold answerId
  iterate 14
    refine (em _).elim (fun h => by rw [if_pos h]; first | exact hpath _ | exact hfd _ | exact .inl rfl) fun h => ?_
    rw [if_neg h]
  exact .inl rfl

/-- Where `x` returns, the arguments are those of `call`. -/
def KeepsArgs (call : SyscallCall) (x : TracerM F W SyscallCall) : Prop :=
  ∀ σ, wp x (fun r _ => r.args = call.args) (fun _ _ => True) σ

namespace KeepsArgs

variable {call : SyscallCall} {α : Type}

theorem pure {r : SyscallCall} (h : r.args = call.args) : KeepsArgs call (pure r : TracerM F W SyscallCall) :=
  fun _ => h

theorem bind {x : TracerM F W α} {f : α → TracerM F W SyscallCall} (hf : ∀ a, KeepsArgs call (f a)) :
    KeepsArgs call (x >>= f) := wp_bind_of_forall hf

theorem ite {c : Prop} [Decidable c] {x y : TracerM F W SyscallCall} (hx : KeepsArgs call x) (hy : KeepsArgs call y) :
    KeepsArgs call (if c then x else y) := by
  split
  · exact hx
  · exact hy

/-- A handler for a descriptor. -/
theorem file {k : Option (File F) → TracerM F W SyscallCall} {fd : Int} (hk : ∀ f, KeepsArgs call (k f)) :
    KeepsArgs call (if isVirtualFD fd then getFile fd >>= k else Pure.pure call) := .ite (.bind hk) (.pure rfl)

/-- A handler for a path. -/
theorem path {k : Option (Str × F) → TracerM F W SyscallCall} {addr : Address} (hk : ∀ r, KeepsArgs call (k r)) :
    KeepsArgs call (getFilename addr >>= fun n =>
      if isWhitelisted n then Pure.pure call else getFilesystem n >>= k) :=
  .bind fun _ => .ite (.pure rfl) (.bind hk)

variable [Filesystem F W]

theorem openFile (n : Str) (flags mode : Int) : KeepsArgs call (openFile call n flags mode : TracerM F W SyscallCall) := by
  refine .ite (.pure rfl) (.bind fun found => ?_)
  rcases found with _ | ⟨path, fs⟩
  · exact .pure rfl
  · exact .bind fun _ => .ite (.bind fun _ => .bind fun _ => .ite (.bind fun _ => .pure rfl) (.pure rfl))
      (.bind fun _ => .pure rfl)

theorem doClose : KeepsArgs call (doClose call : TracerM F W SyscallCall) := by
  refine .file fun f => ?_
  cases f with
  | none => exact .pure rfl
  | some f => exact .bind fun _ => .bind fun _ => .bind fun _ => .pure rfl

theorem doRead : KeepsArgs call (doRead call : TracerM F W SyscallCall) := by
  refine .file fun f => .bind fun _ => ?_
  cases f with
  | none => exact .pure rfl
  | some f => exact .bind fun _ => .ite (.bind fun _ => .pure rfl) (.bind fun _ => .pure rfl)

theorem doFstat : KeepsArgs call (doFstat call : TracerM F W SyscallCall) := by
  refine .file fun f => ?_
  cases f with
  | none => exact .pure rfl
  | some f =>
    refine .bind fun _ => .bind fun _ => .ite ?_ (.pure rfl)
    -- the size would be unfolded to a literal
    generalize sizeofStat = n
    exact .bind fun _ => .pure rfl

theorem doWrite : KeepsArgs call (doWrite call : TracerM F W SyscallCall) := by
  refine .file fun f => ?_
  cases f with
  | none => exact .pure rfl
  | some f => exact .bind fun _ => .bind fun _ => .bind fun _ => .pure rfl

theorem doGetdents : KeepsArgs call (doGetdents call : TracerM F W SyscallCall) := by
  refine .file fun f => ?_
  cases f with
  | none => exact .pure rfl
  | some f => exact .bind fun _ => .bind fun _ => .ite (.bind fun _ => .pure rfl) (.pure rfl)

theorem doLseek : KeepsArgs call (doLseek call : TracerM F W SyscallCall) := by
  refine .file fun f => ?_
  cases f with
  | none => exact .pure rfl
  | some f => exact .bind fun _ => .pure rfl

theorem doAccess : KeepsArgs call (doAccess call : TracerM F W SyscallCall) := by
  refine .path fun r => ?_
  cases r with
  | none => exact .pure rfl
  | some r => exact .bind fun _ => .pure rfl

omit [Filesystem F W] in
theorem statWith {request : Str → Request} {op : F → Str → Buffer → StateM (Host W) (Int × Buffer)} :
    KeepsArgs call (statWith request op call : TracerM F W SyscallCall) := by
  refine .bind fun _ => .ite (.pure rfl) (.bind fun r => ?_)
  cases r with
  | none => exact .pure rfl
  | some r =>
    refine .bind fun _ => .bind fun _ => .ite ?_ (.pure rfl)
    -- the size would be unfolded to a literal
    generalize sizeofStat = n
    exact .bind fun _ => .pure rfl

theorem doReadlink : KeepsArgs call (doReadlink call : TracerM F W SyscallCall) := by
  refine .path fun r => ?_
  cases r with
  | none => exact .pure rfl
  | some r => exact .bind fun _ => .bind fun _ => .bind fun _ => .pure rfl

theorem handleSyscall : KeepsArgs call (handleSyscall call : TracerM F W SyscallCall) := by
  refine .ite (.bind fun _ => .openFile _ _ _) (.ite .doClose (.ite .doRead (.ite .doFstat (.ite .doGetdents ?_))))
  refine .ite (.bind fun _ => .bind fun _ => .openFile _ _ _) (.ite .doLseek (.ite .doWrite (.ite .doAccess ?_)))
  refine .ite (.bind fun _ => .bind fun _ => .pure rfl) (.ite .statWith (.ite .statWith ?_))
  exact .ite (.bind fun _ => .bind fun _ => .pure rfl) (.ite .doReadlink (.pure rfl))

end KeepsArgs

/-- The number is settled where the VFS gets the call, and the arguments stay. -/
theorem of_handleSyscall_ok [Filesystem F W] {σ t : Tracer F W} {call ret : SyscallCall}
    (h : handleSyscall call σ = .ok ret t) : ret = { call with id := answerId σ call, returnVal := ret.returnVal } := by
  have hargs : ret.args = call.args := (wp_ok h).1 (KeepsArgs.handleSyscall σ)
  have hcompletes : Completes σ call := completes_iff_returns.2 ((returns_ok h).2 trivial)
  have hid : ret.id = answerId σ call :=
    (returns_ok h).1 ((returns_handleSyscall (P := fun id => id = answerId σ call)).2 ⟨hcompletes, rfl⟩)
  cases ret
  subst hargs hid
  rfl

/-! ## The code's own event -/

section
variable [Filesystem F W] {s : Session F W} {t : SandboxPrivate F W} {pid : Int} {regs : Regs}

theorem of_node_run {call ret : SyscallCall} {u v : Sandbox F W} (h : SyscallHandlers.node.run call u = .ok ret v) :
    ∃ mid x σ, prepare call u = .ok mid x ∧ handleSyscall mid x.tracer = .ok ret σ ∧ v = { x with tracer := σ } := by
  have hsplit : SyscallHandlers.node.run call u =
      (prepare call >>= fun call => onTracer (handleSyscall call)) u := rfl
  rw [hsplit] at h
  obtain ⟨mid, x, hprepare, h⟩ := of_bind_ok h
  obtain ⟨σ, hvfs, rfl⟩ := of_onTracer_ok h
  exact ⟨mid, x, σ, hprepare, hvfs, rfl⟩

/-- With no event in between, the event of a stop begins the call and finishes it. -/
theorem handleSeccompEvent_session (hmain : s.priv.enteredMain = true) (hv : regs.filtered = .trace)
    (hr : s.priv.stopped pid = some regs) (hspace : s.space pid = s.space s.priv.sandbox.pid)
    (hmem : s.priv.sandbox.tracer.mem = s.memory pid) (h : handleSeccompEvent .node pid s.priv = .ok () t) :
    ∃ w u returnVal, after Session.act [.begin pid regs, .tracer t.sandbox.tracer,
        .processes s.space (Function.update s.mem (s.space pid) t.sandbox.tracer.mem), .finish returnVal] s = some u ∧
      u.priv.sandbox = t.sandbox ∧ u.waiting = s.waiting ∧ u.resumed = s.resumed ++ [(w, w.answered returnVal)] ∧
      w.regs = regs ∧ t.stopped pid = some (w.answered returnVal) := by
  rcases handleSeccompEvent_cases .node hmain hr with ⟨e, rest, u, herror, -⟩ | ⟨second, ret, u, hok, -, hregs, hrun, hd⟩
  · rw [herror] at h
    cases h
  · rw [hok] at h
    cases h
    obtain ⟨mid, x, σ, hprepare, hvfs, hsandbox⟩ := of_node_run hrun
    have hret := of_handleSyscall_ok hvfs
    have hwithin : s.priv.sandbox.within (s.memory s.priv.sandbox.pid) = s.priv.sandbox := by
      rw [Session.memory, ← hspace, ← Session.memory, ← hmem]
      rfl
    have hback : x.within (Function.update s.mem (s.space pid) x.tracer.mem (s.space pid)) = x := by
      rw [Function.update_self]
      rfl
    have hdetached : ¬ s.priv.sandbox.Detached pid := by
      intro hdet
      rw [SandboxPrivate.stopped, if_pos hdet] at hr
      cases hr
    let w : Stop F W := ⟨pid, s.priv.sandbox.pid, true, regs, x.tracer, mid⟩
    have hbegin : Session.act (.begin pid regs) s = some { s with
        priv := { s.priv with sandbox := x }
        mem := Function.update s.mem (s.space pid) x.tracer.mem
        waiting := w :: s.waiting } := by
      rw [Session.act, if_pos ⟨hmain, hv, hdetached⟩, Session.begin, hwithin, hprepare]
      simp only [← hspace, hback, decide_true]
      rfl
    have hanswer : regs.writeCall ret = w.answered ret.returnVal := congrArg regs.writeCall hret
    let u : Session F W := { s with
      priv := { s.priv with sandbox := t.sandbox }
      mem := Function.update s.mem (s.space pid) t.sandbox.tracer.mem
      resumed := s.resumed ++ [(w, w.answered ret.returnVal)] }
    have hfinish : Session.finish ret.returnVal { u with waiting := w :: s.waiting, resumed := s.resumed } = some u :=
      if_neg hd
    refine ⟨w, u, ret.returnVal, ?_, rfl, rfl, rfl, rfl, hregs.trans (congrArg some hanswer)⟩
    rw [after, hbegin, Option.bind_some, ← hfinish]
    simp only [after, Session.act, Option.bind_some, Option.bind_fun_some, u, hsandbox]

end

/-- The registers of a call with up to three arguments. -/
def Regs.of (id : Word) (args : List Word) : Regs := ⟨id, 0, args.getD 0 0, args.getD 1 0, args.getD 2 0, 0, 0, 0, 0, 0⟩

/-- `open ("/f")`, of a process that is stopped for it. -/
def openStop : Session Fixed Unit :=
  ⟨stoppedWith (.of SYS_open [0]), fun _ => 0, fun _ => (mounted (str "/f") ⟨3⟩).mem, [], [], []⟩

theorem openStop_returns : ∃ a t, handleSeccompEvent .node 1 openStop.priv = .ok a t ∧ t.stopped 1 ≠ none := by
  refine returns_iff.1 ?_
  decide +kernel

theorem handleSeccompEvent_session_open : ∃ (t : SandboxPrivate Fixed Unit) (w : Stop Fixed Unit)
    (u : Session Fixed Unit) (returnVal : Word), handleSeccompEvent .node 1 openStop.priv = .ok () t ∧
      after Session.act [.begin 1 (.of SYS_open [0]), .tracer t.sandbox.tracer,
        .processes openStop.space (Function.update openStop.mem (openStop.space 1) t.sandbox.tracer.mem),
        .finish returnVal] openStop = some u ∧
      u.priv.sandbox = t.sandbox ∧ t.stopped 1 = some (w.answered returnVal) := by
  obtain ⟨_, t, ht, -⟩ := openStop_returns
  have hv : (Regs.of SYS_open [0]).filtered = .trace := by decide +kernel
  have hstopped : openStop.priv.stopped 1 = some (.of SYS_open [0]) := by decide +kernel
  obtain ⟨w, u, returnVal, hu, hsandbox, -, -, -, hregs⟩ :=
    handleSeccompEvent_session rfl hv hstopped rfl rfl ht
  exact ⟨t, w, u, returnVal, ht, hu, hsandbox, hregs⟩

end CodiusSandbox
