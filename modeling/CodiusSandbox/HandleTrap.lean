import CodiusSandbox.Ptrace
import CodiusSandbox.WaitStatus
import CodiusSandbox.Lib.Loop
/-!
# `handle_trap` (`sandbox.cpp:529`)

| here | there |
| --- | --- |
| `Trap`              | the locals of `handle_trap`, `priv->pid`, and what `waitpid` has yet to report |
| `Handlers`          | the functions that the loop calls on `priv` and `priv->d`; they may crash the tracer (`TrapCrash.handler`) |
| `releaseChild`      | `Sandbox::releaseChild` (`sandbox.cpp:463`) |
| `exitEvent`, `cloneEvent` | the branches for `PTRACE_EVENT_EXIT` of the main process and for `PTRACE_EVENT_CLONE` |
| `dispatch`, `pass`  | the body of the loop, without and with its `waitpid` |

`waitpid` writes `status` only where it reports a process; `status` is then the same word that the rest of the
body reads and that `PTRACE_GETEVENTMSG` overwrites with the low half of the message. `requests` and
`dispatched` are logs.
-/
namespace CodiusSandbox

open Wp Loop

/-! ## State -/

/-- A result of `waitpid` that reports a process. -/
structure Report where
  pid : Int
  pos : 0 < pid
  status : Status
  /-- What `PTRACE_GETEVENTMSG` gets for it, `none` where it fails. -/
  message : Option Word

/-- What `waitpid` returns when it has nothing to report. -/
inductive WaitEnd
  | running
  | noChildren
deriving DecidableEq

def WaitEnd.result : WaitEnd → Int
  | .running => 0
  | .noChildren => -1

inductive TraceRequest
  | cont (pid : Int) (signal : Nat)
  | setOptions (pid : Int) (options : Nat)
  | detach (pid : Int) (signal : Nat)
  | signalStop
  | clearIpc
  | seccomp (pid : Int)
  | exec (pid : Int)
  | signal (signal : Nat)
  | exit (status : Nat)
  /-- "died on bad syscall". -/
  | badSyscall (id : Word)
deriving DecidableEq

inductive TrapCrash
  | assertion
  | handler (e : Crash)
deriving DecidableEq

structure Trap (H : Type) where
  host : H
  /-- `priv->pid`. -/
  main : Int
  reports : List Report
  waitEnd : WaitEnd
  status : Status
  message : Option Word
  /-- What the stack holds where `childPID` is placed. -/
  stack : Int
  waits : Nat
  requests : List TraceRequest
  dispatched : List (Int × Status)

abbrev TrapM (H : Type) := EStateM TrapCrash (Trap H)

structure Handlers (H : Type) where
  handleSeccompEvent : Int → EStateM Crash H Unit
  handleExecEvent : Int → EStateM Crash H Unit
  handleSignal : Nat → EStateM Crash H Unit
  handleExit : Nat → EStateM Crash H Unit
  /-- `regs.orig_rax` after `PTRACE_GETREGS`. -/
  origRax : Int → H → Word

/-- `PTRACE_O_EXITKILL | PTRACE_O_TRACEEXIT | PTRACE_O_TRACESECCOMP | PTRACE_O_TRACEEXEC | PTRACE_O_TRACECLONE`. -/
def traceOptions : Nat := 0x100000 + 2 ^ 6 + 2 ^ 7 + 2 ^ 4 + 2 ^ 3

variable {H : Type}

/-! ## The calls of the loop -/

def request (r : TraceRequest) : TrapM H Unit := modify fun s => { s with requests := s.requests ++ [r] }

/-- A handler, which the log shows. -/
def handle (r : TraceRequest) (x : EStateM Crash H Unit) : TrapM H Unit := fun s =>
  match x s.host with
  | .ok _ h => .ok () { s with host := h, requests := s.requests ++ [r] }
  | .error e h => .error (.handler e) { s with host := h, requests := s.requests ++ [r] }

/-- `waitpid (-priv->pid, &status, WNOHANG | __WALL)`. -/
def waitpid : TrapM H Int := fun s =>
  match s.reports with
  | r :: rest => .ok r.pid { s with reports := rest, status := r.status, message := r.message, waits := s.waits + 1 }
  | [] => .ok s.waitEnd.result { s with message := none, waits := s.waits + 1 }

def releaseChild (signal : Nat) : TrapM H Unit := do
  let s ← get
  request (.setOptions s.main 0)
  request .signalStop
  request .clearIpc
  request (.detach s.main signal)

/-! ## The loop -/

/-- The main process is about to exit. -/
def exitEvent (E : Handlers H) (pid : Int) : TrapM H Unit := do
  modify fun s => { s with status := (s.message.map fun m => m.setWidth 32).getD s.status }
  let s ← get
  if WIFSIGNALED s.status then
    if WTERMSIG s.status = SIGSYS then
      request (.badSyscall (E.origRax pid s.host))
    handle (.signal (WTERMSIG s.status)) (E.handleSignal (WTERMSIG s.status))
    handle (.exit (WTERMSIG s.status)) (E.handleExit (WTERMSIG s.status))
  else
    if WIFEXITED s.status = false then throw .assertion
    handle (.exit (WEXITSTATUS s.status)) (E.handleExit (WEXITSTATUS s.status))
  releaseChild 0

def cloneEvent (pid : Int) : TrapM H Unit := do
  let s ← get
  let childPID := (s.message.map asInt).getD s.stack
  request (.setOptions childPID traceOptions)
  request (.cont childPID 0)
  request (.cont pid 0)

def dispatch (E : Handlers H) (pid : Int) : TrapM H Unit := do
  let s ← get
  if WIFSTOPPED s.status then
    if WSTOPSIG s.status = SIGTRAP then
      if traceEvent s.status = PTRACE_EVENT_SECCOMP then
        handle (.seccomp pid) (E.handleSeccompEvent pid)
        request (.cont pid 0)
      else if traceEvent s.status = PTRACE_EVENT_EXIT then
        if pid = s.main then exitEvent E pid
        else request (.cont pid 0)
      else if traceEvent s.status = PTRACE_EVENT_EXEC then
        handle (.exec pid) (E.handleExecEvent pid)
        request (.cont pid 0)
      else if traceEvent s.status = PTRACE_EVENT_CLONE then cloneEvent pid
      else throw .assertion
    else
      handle (.signal (WSTOPSIG s.status)) (E.handleSignal (WSTOPSIG s.status))
      request (.cont pid (WSTOPSIG s.status))
  else if WIFCONTINUED s.status then request (.cont pid 0)
  else if WIFSIGNALED s.status ∧ pid = s.main then throw .assertion
  else if WIFEXITED s.status ∧ pid = s.main then throw .assertion

/-- One round: whether the loop is left. -/
def pass (E : Handlers H) : TrapM H Bool := do
  let pid ← waitpid
  if pid = 0 then return true
  modify fun s => { s with dispatched := s.dispatched ++ [(pid, s.status)] }
  dispatch E pid
  return false

/-- `handle_trap`, as far as `fuel` rounds go, and whether it has returned. -/
def handleTrap (E : Handlers H) (fuel : Nat) : TrapM H Bool := do
  modify fun s => { s with status := 0 }
  loop (pass E) fuel

end CodiusSandbox
