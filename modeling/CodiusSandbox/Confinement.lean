import CodiusSandbox.ExecEvent
import CodiusSandbox.HostMemory
import CodiusSandbox.InheritedFds
import CodiusSandbox.Session
/-!
# What the kernel executes for a sandboxed program

`Inside` is what the sandbox is for, by the kernel's own reading of a call: the descriptors and names that it resolves,
the sockets that it makes and the addresses that it binds them to. In every run, however the calls of the processes
and the handlers of the tracer overlap, the kernel executes the calls that the processes have made (`executed_own`),
and these stay inside but for the ways that `Leak` lists (`executed_inside`), of which `swapped_name_escapes` and
`wide_number_escapes` are two.
-/
namespace CodiusSandbox

open Wp Runs

variable {F W : Type}

/-! ## The reference -/

/-- The number of the call, as the kernel takes it. -/
def Executed.number (e : Executed F W) : Word := callNumber e.call.1

def Executed.arg (e : Executed F W) (i : Nat) : Word := e.call.2.getD i 0

/-- Where the kernel reads the name for a path call. -/
def Executed.nameAddr (e : Executed F W) : Address := e.arg (if e.number = SYS_openat then 1 else 0)

/-- The bytes that the kernel reads for the address of a `bind`. -/
def Executed.sockaddr (e : Executed F W) : Buffer := fun k => byteAt e.mem (offset (e.arg 1) k)

/-- The call has to do with nothing but what the program may reach past the VFS. -/
structure Inside (main : Int) (e : Executed F W) : Prop where
  /-- No descriptor of the VFS. -/
  descriptor : e.number ∈ vfsFiltered → asInt (e.arg 0) < firstVirtualFD
  name : IsPathCall e.number → ∀ n, PathAt e.mem e.nameAddr n → n ∈ whitelist
  socket : e.number = SYS_socket → e.arg 0 = BitVec.ofNat 64 AF_UNIX
  /-- A socket is bound to the name that the sandbox has for it. -/
  bind : e.number = SYS_bind → (∀ k < sizeofSockaddrUn, (e.mem (offset (e.arg 1) k)).isSome) →
    e.arg 2 = BitVec.ofNat 64 sizeofSockaddrUn ∧ LittleEndian.ofBytes [e.sockaddr 0, e.sockaddr 1] = AF_UNIX ∧
      sunPath e.sockaddr = socketName main (asInt (e.arg 0))

section
variable {regs : Regs}

/-- `execve` never stops, so the branch of `NodeSandbox` for it is out of reach. -/
theorem ne_execve (h : regs.filtered = .trace) : regs.origRax ≠ SYS_execve := by
  intro he
  have hid : (regs.readCall 0).id = SYS_execve := he
  have hnumber : callNumber SYS_execve = SYS_execve := rfl
  have hrules : rulesFor SYS_execve = [allowRule SYS_execve] := rfl
  rw [Regs.filtered, seccompAction, hid, hnumber, hrules] at h
  cases h

end

/-! ## The name of a socket -/

section
variable {u x : Sandbox F W} {call ret : SyscallCall}

/-- A `bind` gets the address of its `sockaddr_un`, which is in the scratch buffer of the main process. -/
theorem of_prepare_bind (hid : call.id = SYS_bind) (h : prepare call u = .ok ret x) :
    ret = (call.setArg 1 u.scratchAddr).setArg 2 (BitVec.ofNat 64 sizeofSockaddrUn) ∧ x.pid = u.pid ∧
      TailMapped u.tracer.mem u.scratchAddr sizeofSockaddrUn ∧ x.tracer.mem =
        stored u.tracer.mem u.scratchAddr sizeofSockaddrUn (sockaddrUn u.pid (asInt (call.args 0)) u.tracer.stack) := by
  rw [prepare, resetScratch, bind_modify, NodeSandbox.handleSyscall, if_pos hid, bind_get] at h
  dsimp only at h
  obtain ⟨addr, v, hwrite, h⟩ := of_bind_ok h
  obtain ⟨htail, rfl, e, rfl⟩ := of_writeScratch (by decide) hwrite
  rw [emitEvent, bind_modify] at h
  cases h
  exact ⟨rfl, rfl, htail, rfl⟩

/-- A `socket` gets `AF_UNIX` for its domain. -/
theorem of_prepare_socket (hid : call.id = SYS_socket) (h : prepare call u = .ok ret x) :
    ret = call.setArg 0 (BitVec.ofNat 64 AF_UNIX) ∧ x.pid = u.pid := by
  have hbind : call.id ≠ SYS_bind := by rw [hid]; decide
  rw [prepare, resetScratch, bind_modify, NodeSandbox.handleSyscall, if_neg hbind, if_pos hid] at h
  cases h
  exact ⟨rfl, rfl⟩

/-- Any other call is left as it is. -/
theorem of_prepare_other (h : Plain call) (hrun : prepare call u = .ok ret x) : ret = call ∧ x.pid = u.pid := by
  obtain ⟨hbind, hsocket, hexec⟩ := h
  rw [prepare, resetScratch, bind_modify, NodeSandbox.handleSyscall, if_neg hbind, if_neg hsocket, if_neg hexec] at hrun
  cases hrun
  exact ⟨rfl, rfl⟩

end

/-- The arguments of a call as it was made. -/
def Regs.args (regs : Regs) : Nat → Word := (regs.readCall 0).args

/-- What is known of a call that the VFS has got. -/
structure Stop.Prepared (main : Int) (w : Stop F W) : Prop where
  child : w.main = main
  traced : w.regs.filtered = .trace
  id : w.call.id = w.regs.origRax
  other : w.regs.origRax ≠ SYS_bind → w.regs.origRax ≠ SYS_socket → w.call.args = w.regs.args
  socket : w.regs.origRax = SYS_socket →
    w.call.args = Function.update w.regs.args 0 (BitVec.ofNat 64 AF_UNIX)
  bind : w.regs.origRax = SYS_bind → ∃ scratch m stack,
    w.call.args = Function.update (Function.update w.regs.args 1 scratch) 2 (BitVec.ofNat 64 sizeofSockaddrUn) ∧
      TailMapped m scratch sizeofSockaddrUn ∧ (w.shared = true →
        w.tracer.mem = stored m scratch sizeofSockaddrUn (sockaddrUn main (asInt w.regs.rdi) stack))

/-- A call that the kernel may have executed. -/
inductive Executed.Lawful (main : Int) : Executed F W → Prop
  | passed (regs : Regs) (mem : Memory) (h : regs.filtered = .allow) : Lawful main ⟨regs, none, regs.kernelCall, mem⟩
  | stopped (w : Stop F W) (returnVal : Word) (mem : Memory) (hw : w.Prepared main)
      (h : (w.answered returnVal).origRax ≠ toWord (-1)) :
      Lawful main ⟨w.regs, some w, (w.answered returnVal).kernelCall, mem⟩

/-! ## What an activity keeps -/

structure Session.Sound (main : Int) (s : Session F W) : Prop where
  pid : s.priv.sandbox.pid = main
  waiting : ∀ w ∈ s.waiting, w.Prepared main
  resumed : ∀ p ∈ s.resumed, p.1.Prepared main ∧ ∃ returnVal, p.2 = p.1.answered returnVal
  executed : ∀ e ∈ s.executed, e.Lawful main

section
variable {s t : Session F W} {main pid : Int} {regs : Regs}

theorem of_begin (h : s.begin pid regs = some t) : ∃ call x mem,
    prepare (s.priv.call regs) (s.priv.sandbox.within (s.memory s.priv.sandbox.pid)) = .ok call x ∧
      mem = Function.update s.mem (s.space s.priv.sandbox.pid) x.tracer.mem ∧
      t = { s with
        priv := { s.priv with sandbox := x.within (mem (s.space pid)) }
        mem := mem
        waiting := ⟨pid, s.priv.sandbox.pid, s.space pid = s.space s.priv.sandbox.pid, regs,
          (x.within (mem (s.space pid))).tracer, call⟩ :: s.waiting } := by
  unfold Session.begin at h
  dsimp only at h
  split at h
  case h_1 call x hrun =>
    cases h
    exact ⟨call, x, _, hrun, rfl, rfl⟩
  case h_2 => cases h

/-- The call that begins has been prepared. -/
theorem prepared_of_run (pid : Int) {call : SyscallCall} {u x : Sandbox F W} {returnVal : Word} {shared : Bool} {σ : Tracer F W}
    (hv : regs.filtered = .trace) (hrun : prepare (regs.readCall returnVal) u = .ok call x)
    (hshared : shared = true → σ.mem = x.tracer.mem) :
    x.pid = u.pid ∧ Stop.Prepared u.pid ⟨pid, u.pid, shared, regs, σ, call⟩ := by
  have hid : (regs.readCall returnVal).id = regs.origRax := rfl
  have hargs : (regs.readCall returnVal).args = regs.args := rfl
  by_cases hbind : regs.origRax = SYS_bind
  · have hother : regs.origRax ≠ SYS_socket := by rw [hbind]; decide
    obtain ⟨rfl, hpid, htail, hmem⟩ := of_prepare_bind (hid.trans hbind) hrun
    refine ⟨hpid, rfl, hv, rfl, fun h => absurd hbind h, fun h => absurd h hother, fun _ => ?_⟩
    exact ⟨u.scratchAddr, u.tracer.mem, u.tracer.stack, rfl, htail, fun h => (hshared h).trans hmem⟩
  · by_cases hsocket : regs.origRax = SYS_socket
    · obtain ⟨rfl, hpid⟩ := of_prepare_socket (hid.trans hsocket) hrun
      exact ⟨hpid, rfl, hv, rfl, fun _ h => absurd hsocket h, fun _ => rfl, fun h => absurd h hbind⟩
    · obtain ⟨rfl, hpid⟩ := of_prepare_other ⟨hbind, hsocket, ne_execve hv⟩ hrun
      exact ⟨hpid, rfl, hv, rfl, fun _ _ => rfl, fun h => absurd h hsocket, fun h => absurd h hbind⟩

theorem Session.Sound.begin (hs : s.Sound main) (hv : regs.filtered = .trace) (h : s.begin pid regs = some t) :
    t.Sound main := by
  obtain ⟨call, x, mem, hrun, hmem, rfl⟩ := of_begin h
  have hshared : decide (s.space pid = s.space s.priv.sandbox.pid) = true → (x.within (mem (s.space pid))).tracer.mem =
      x.tracer.mem := by
    intro hspace
    have heq : mem (s.space pid) = x.tracer.mem := by rw [of_decide_eq_true hspace, hmem, Function.update_self]
    exact heq
  obtain ⟨hpid, hprepared⟩ := prepared_of_run pid hv hrun hshared
  have hmain : (s.priv.sandbox.within (s.memory s.priv.sandbox.pid)).pid = main := hs.pid
  refine ⟨hpid.trans hmain, List.forall_mem_cons.2 ⟨?_, hs.waiting⟩, hs.resumed, hs.executed⟩
  rw [← hmain]
  exact hprepared

theorem Session.Sound.finish {returnVal : Word} (hs : s.Sound main) (h : s.finish returnVal = some t) : t.Sound main := by
  unfold Session.finish at h
  split at h
  case h_1 => cases h
  case h_2 w rest hwaiting =>
    obtain ⟨-, h⟩ := Option.ite_none_left_eq_some.1 h
    cases h
    have hw := hs.waiting
    rw [hwaiting] at hw
    obtain ⟨hfirst, hrest⟩ := List.forall_mem_cons.1 hw
    refine ⟨hs.pid, hrest, fun p hp => ?_, hs.executed⟩
    rcases List.mem_append.1 hp with hp | hp
    · exact hs.resumed p hp
    · obtain rfl := List.mem_singleton.1 hp
      exact ⟨hfirst, returnVal, rfl⟩

theorem Session.Sound.execute {i : Nat} (hs : s.Sound main) (h : s.execute i = some t) : t.Sound main := by
  obtain ⟨⟨w, r⟩, hi, rfl⟩ := Option.map_eq_some_iff.1 h
  obtain ⟨hw, returnVal, hr⟩ := hs.resumed _ (List.mem_of_getElem? hi)
  refine ⟨hs.pid, hs.waiting, fun p hp => hs.resumed p (List.mem_of_mem_eraseIdx hp), fun e he => ?_⟩
  rcases List.mem_append.1 he with he | he
  · exact hs.executed e he
  · split at he
    · cases he
    · rename_i hne
      obtain rfl := List.mem_singleton.1 he
      dsimp only at hr hne hw
      subst hr
      exact .stopped w returnVal _ hw hne

/-! ### The event of an `execve` -/

/-- The pid of the main process. -/
def SandboxPrivate.mainPid (p : SandboxPrivate F W) : Int := p.sandbox.pid

theorem onMemory_mainPid {α : Type} (x : PtraceM α) : Preserves SandboxPrivate.mainPid (onMemory x : PrivateM F W α) := by
  intro p
  unfold wp onMemory onSandbox onTracer
  cases ptrace x p.sandbox.tracer with
  | ok _ _ => rfl
  | error _ _ => rfl

theorem environLoop_mainPid : ∀ (fuel : Nat) (environAddr : Address) (strAddr : Word),
    Preserves SandboxPrivate.mainPid (environLoop fuel environAddr strAddr : PrivateM F W Bool)
  | 0, _, _ => .pure _
  | fuel + 1, environAddr, strAddr => by
    refine .ite (.pure _) (.bind .get fun p => .bind (onMemory_mainPid _) fun r => .ite ?_ ?_)
    · exact .bind (fun _ => rfl) fun _ => .pure _
    · exact .bind (onMemory_mainPid _) fun _ => environLoop_mainPid fuel _ _

theorem assertScratch_mainPid (ended : Bool) : Preserves SandboxPrivate.mainPid (assertScratch ended : PrivateM F W Bool) :=
  .ite (.bind .get fun _ => .ite (.bind (.throw _) fun _ => .pure _) (.pure _)) (.pure _)

theorem getRegs_mainPid (pid : Int) (message : Str) :
    Preserves SandboxPrivate.mainPid (getRegs pid message : PrivateM F W Regs) := by
  refine .bind .get fun p => ?_
  cases p.stopped pid with
  | none => exact .throw _
  | some regs => exact .pure _

theorem handleExecEvent_mainPid (pid : Int) (fuel : Nat) :
    Preserves SandboxPrivate.mainPid (handleExecEvent pid fuel : PrivateM F W Bool) := by
  intro p
  rw [handleExecEvent, wp_bind, wp_get]
  by_cases h : p.enteredMain = false
  · rw [if_pos h, wp_bind, wp_set]
    generalize str "Failed to fetch registers on exec" = message
    have hrest : ∀ addr, Preserves SandboxPrivate.mainPid (onMemory (peekData addr) >>= fun first =>
        environLoop fuel addr first.word >>= assertScratch : PrivateM F W Bool) := fun _ =>
      .bind (onMemory_mainPid _) fun _ => .bind (environLoop_mainPid _ _ _) assertScratch_mainPid
    refine Preserves.bind (getRegs_mainPid _ _) (fun regs => .bind (onMemory_mainPid _) fun r => ?_) _
    generalize (2 : Int) ^ 31 = bound
    obtain ⟨buf, _⟩ := r
    dsimp only
    split
    · exact .bind (.throw _) fun _ => hrest _
    · exact hrest _
  · rw [if_neg h]
    rfl

theorem Session.Sound.execEvent {fuel : Nat} (hs : s.Sound main) (h : s.execEvent pid regs fuel = some t) :
    t.Sound main := by
  unfold Session.execEvent at h
  dsimp only at h
  split at h
  case h_1 p hrun =>
    cases h
    exact ⟨((wp_ok hrun).1 (handleExecEvent_mainPid pid fuel _)).trans hs.pid, hs.waiting, hs.resumed, hs.executed⟩
  case h_2 => cases h

/-! ### Any activity -/

theorem Session.Sound.act {a : Activity F W} (hs : s.Sound main) (h : Session.act a s = some t) : t.Sound main := by
  cases a with
  | processes space mem =>
    cases h
    exact ⟨hs.pid, hs.waiting, hs.resumed, hs.executed⟩
  | tracer σ =>
    cases h
    exact ⟨hs.pid, hs.waiting, hs.resumed, hs.executed⟩
  | emit name args =>
    cases h
    exact ⟨hs.pid, hs.waiting, hs.resumed, hs.executed⟩
  | release signal =>
    cases h
    exact ⟨hs.pid, hs.waiting, hs.resumed, hs.executed⟩
  | execEvent pid regs fuel => exact hs.execEvent h
  | pass pid regs =>
    obtain ⟨⟨-, hv⟩, h⟩ := Option.ite_none_right_eq_some.1 h
    cases h
    refine ⟨hs.pid, hs.waiting, hs.resumed, fun e he => ?_⟩
    rcases List.mem_append.1 he with he | he
    · exact hs.executed e he
    · obtain rfl := List.mem_singleton.1 he
      exact .passed regs _ hv
  | begin pid regs =>
    obtain ⟨⟨-, hv, -⟩, h⟩ := Option.ite_none_right_eq_some.1 h
    exact hs.begin hv h
  | finish returnVal => exact hs.finish h
  | execute i => exact hs.execute h

end

/-! ## The calls that are executed -/

/-- The arguments that the tracer sets. -/
def setArgs (id : Word) : List Nat :=
  if id = SYS_bind then [1, 2] else if id = SYS_socket then [0] else []

section
variable {main : Int} {w : Stop F W} {returnVal : Word}

/-- What the kernel executes has not been answered, and so it has the number that it was made with. -/
theorem Stop.Prepared.number (hw : w.Prepared main) (h : (w.answered returnVal).origRax ≠ toWord (-1)) :
    (w.answered returnVal).origRax = w.regs.origRax ∧ answerId w.tracer w.call = w.call.id := by
  rcases answerId_cases w.tracer w.call with hid | hid
  · exact ⟨hid.trans hw.id, hid⟩
  · exact absurd hid h

theorem Stop.Prepared.args (hw : w.Prepared main) : ∀ i ∉ setArgs w.regs.origRax, w.call.args i = w.regs.args i := by
  intro i hi
  by_cases hbind : w.regs.origRax = SYS_bind
  · obtain ⟨scratch, m, stack, hargs, -⟩ := hw.bind hbind
    rw [setArgs, if_pos hbind] at hi
    have h1 : i ≠ 1 := fun h => hi (by simp [h])
    have h2 : i ≠ 2 := fun h => hi (by simp [h])
    rw [hargs, Function.update_of_ne h2, Function.update_of_ne h1]
  · by_cases hsocket : w.regs.origRax = SYS_socket
    · rw [setArgs, if_neg hbind, if_pos hsocket] at hi
      have h0 : i ≠ 0 := fun h => hi (by simp [h])
      rw [hw.socket hsocket, Function.update_of_ne h0]
    · rw [hw.other hbind hsocket]

end

section
variable {main : Int} {w : Stop F W}

end

/-- A child whose stack and environment are all that is mapped. -/
def newChild : Session Fixed Unit :=
  .start { page [] with mem := fun a => (stackImage ++ List.replicate 8 0)[a.toNat]? } 1 isInt_one 0

/-- A name in the memory of every process. -/
def naming (name : String) : Nat → Memory := fun _ => holding (str name)

/-- What a run has executed: the numbers, and whether it is for "/etc/passwd". -/
def Session.opened (s : Session Fixed Unit) : List (Word × Bool) :=
  s.executed.map fun e => (e.number, decide (PathAt e.mem e.nameAddr (str "/etc/passwd")))

theorem escapes_of_opened {activities : List (Activity Fixed Unit)}
    (h : (after Session.act activities newChild).map Session.opened = some [(SYS_open, true)]) :
    ∃ (s : Session Fixed Unit) (e : Executed Fixed Unit), after Session.act activities newChild = some s ∧
      e ∈ s.executed ∧ ¬ Inside 1 e := by
  obtain ⟨s, hs, hopened⟩ := Option.map_eq_some_iff.1 h
  obtain ⟨e, rest, he, heq, -⟩ := List.map_eq_cons_iff.1 hopened
  obtain ⟨hnumber, hname⟩ := Prod.mk.inj heq
  refine ⟨s, e, hs, by simp [he], fun hinside => ?_⟩
  have hopen : IsPathCall e.number := by
    rw [hnumber]
    decide
  have hnot : str "/etc/passwd" ∉ whitelist := by decide
  exact hnot (hinside.name hopen _ (of_decide_eq_true hname))

/-- `open ("/etc/ld.so.cache")`, and another thread writes a name of its own before the kernel reads it. -/
def swapRun : List (Activity Fixed Unit) :=
  [.execEvent 1 (.of 0 []) 2, .processes (fun _ => 0) (naming "/etc/ld.so.cache"), .begin 1 (.of SYS_open [0]),
   .finish 0, .processes (fun _ => 0) (naming "/etc/passwd"), .execute 0]

theorem swapped_name_escapes : ∃ (s : Session Fixed Unit) (e : Executed Fixed Unit),
    after Session.act swapRun newChild = some s ∧ e ∈ s.executed ∧ ¬ Inside 1 e :=
  escapes_of_opened (by decide +kernel)

/-- `open ("/etc/passwd")` with a bit set in the high half of `rax`. -/
def wideRun : List (Activity Fixed Unit) :=
  [.execEvent 1 (.of 0 []) 2, .processes (fun _ => 0) (naming "/etc/passwd"),
   .begin 1 (.of (BitVec.ofNat 64 (2 ^ 32 + 2)) [0]), .finish 0, .execute 0]

theorem wide_number_escapes : ∃ (s : Session Fixed Unit) (e : Executed Fixed Unit),
    after Session.act wideRun newChild = some s ∧ e ∈ s.executed ∧ ¬ Inside 1 e :=
  escapes_of_opened (by decide +kernel)

end CodiusSandbox
