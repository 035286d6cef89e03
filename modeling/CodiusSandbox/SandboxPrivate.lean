import CodiusSandbox.Sandbox
/-!
# The two events that `SandboxPrivate` handles (`sandbox.cpp:41-106`, `:396-455`)

| here | there |
| --- | --- |
| `Regs`               | `struct user_regs_struct` on x86-64: the registers that the handlers read or write, and `r10` |
| `SandboxPrivate`     | `SandboxPrivate`, and what `PTRACE_GETREGS` has to read from |
| `SyscallHandlers`    | `Sandbox::handleSyscall`, which is virtual, and `VFS::handleSyscall` |
| `handleExecEvent`    | `SandboxPrivate::handleExecEvent` (`sandbox.cpp:71`) |
| `handleSeccompEvent` | `SandboxPrivate::handleSeccompEvent` (`sandbox.cpp:396`), outside `__i386__` |
| `Regs.kernelCall`    | the number and the six arguments that the kernel takes from the registers at a `syscall` |

`passed` is a log of the values that the variable `call` takes. A `memset` of the registers before they are
fetched is left out.
-/
namespace CodiusSandbox

open Wp LittleEndian

structure Regs where
  origRax : Word
  rax : Word
  rdi : Word
  rsi : Word
  rdx : Word
  rcx : Word
  r8 : Word
  r9 : Word
  r10 : Word
  rsp : Word
deriving DecidableEq

/-- What ends an event early. -/
inductive EventEnd where
  /-- `error (EXIT_FAILURE, errno, message)`. -/
  | exit (errno : Errno) (message : Str)
  /-- An `int` beyond its range. -/
  | overflow
  | crash (e : Crash)
deriving DecidableEq

structure SandboxPrivate (F W : Type) where
  sandbox : Sandbox F W
  enteredMain : Bool
  /-- The registers of the processes that are stopped for the tracer. -/
  regs : Int → Option Regs
  passed : List SyscallCall

abbrev PrivateM (F W : Type) := EStateM EventEnd (SandboxPrivate F W)

def ESRCH : Errno := 3

variable {F W : Type}

/-! ## `ptrace` -/

/-- `releaseChild` has detached the process. -/
def Sandbox.Detached (s : Sandbox F W) (pid : Int) : Prop := pid = s.pid ∧ s.released ≠ []

instance (s : Sandbox F W) (pid : Int) : Decidable (s.Detached pid) :=
  inferInstanceAs (Decidable (pid = s.pid ∧ s.released ≠ []))

/-- What `PTRACE_GETREGS` finds. -/
def SandboxPrivate.stopped (s : SandboxPrivate F W) (pid : Int) : Option Regs :=
  if s.sandbox.Detached pid then none else s.regs pid

def getRegs (pid : Int) (message : Str) : PrivateM F W Regs := do
  let s ← get
  match s.stopped pid with
  | some regs => return regs
  | none => throw (.exit ESRCH message)

def setRegs (pid : Int) (regs : Regs) (message : Str) : PrivateM F W Unit := do
  let s ← get
  match s.stopped pid with
  | some _ => set { s with regs := Function.update s.regs pid (some regs) }
  | none => throw (.exit ESRCH message)

def onSandbox {α : Type} (x : SandboxM F W α) : PrivateM F W α := fun s =>
  match x s.sandbox with
  | .ok a t => .ok a { s with sandbox := t }
  | .error e t => .error (.crash e) { s with sandbox := t }

/-- A helper of `d` on the memory of the process. -/
def onMemory {α : Type} (x : PtraceM α) : PrivateM F W α := onSandbox (onTracer (ptrace x))

/-- The word of the first eight bytes. -/
def Buffer.word (d : Buffer) : Word := BitVec.ofNat 64 (ofBytes ((List.range 8).map d))

/-! ## `handleExecEvent` -/

/-- `std::string needle`. -/
def needle : Str := str "CODIUS_SCRATCH_BUFFER="

/-- `strncmp (buf, text, n) == 0`: no difference among the first `n` bytes up to the end of the strings. -/
def StrncmpEq (buf text : Buffer) (n : Nat) : Prop := ∀ k < n, (∀ j < k, buf j = text j ∧ buf j ≠ 0) → buf k = text k

instance (buf text : Buffer) (n : Nat) : Decidable (StrncmpEq buf text n) :=
  inferInstanceAs (Decidable (∀ k < n, (∀ j < k, buf j = text j ∧ buf j ≠ 0) → buf k = text k))

/-- `c_str ()`. -/
def Str.bytes (s : Str) : Buffer := fun k => s.getD k 0

/-- The loop over the environment, and whether it has come to an end. -/
def environLoop : Nat → Address → Word → PrivateM F W Bool
  | 0, _, _ => return false
  | fuel + 1, environAddr, strAddr =>
    if strAddr = 0 then return true
    else do
      let s ← get
      let (buf, _) ← onMemory (copyString strAddr 1024 s.sandbox.tracer.stack)
      let environAddr := offset environAddr 8
      if StrncmpEq buf (Str.bytes needle) needle.length then
        modify fun s => { s with sandbox := { s.sandbox with scratchAddr := offset strAddr needle.length } }
        return true
      else
        let next ← onMemory (peekData environAddr)
        environLoop fuel environAddr next.word

/-- `assert (scratchAddr)`, behind the loop. -/
def assertScratch (ended : Bool) : PrivateM F W Bool := do
  if ended then
    let s ← get
    if s.sandbox.scratchAddr = 0 then throw (.crash .assertion)
  return ended

/-- As far as `fuel` rounds of the loop go, and whether it has returned. -/
def handleExecEvent (pid : Int) (fuel : Nat) : PrivateM F W Bool := do
  let s ← get
  if s.enteredMain = false then
    set { s with enteredMain := true }
    let regs ← getRegs pid (str "Failed to fetch registers on exec")
    let stackAddr := regs.rsp
    -- `copyData` moves whole words: the four bytes behind `argc` are written as well
    let (buf, _) ← onMemory (copyData stackAddr 4 s.sandbox.tracer.stack)
    let argc := asInt buf.word
    if argc + 2 ≥ 2 ^ 31 then throw .overflow
    let environAddr := stackAddr + 8 * toWord (argc + 2)
    let first ← onMemory (peekData environAddr)
    let ended ← environLoop fuel environAddr first.word
    assertScratch ended
  else return true

/-! ## `handleSeccompEvent` -/

structure SyscallHandlers (F W : Type) where
  /-- `d->handleSyscall`. -/
  sandbox : SyscallCall → SandboxM F W SyscallCall
  /-- `vfs->handleSyscall`. -/
  vfs : SyscallCall → TracerM F W SyscallCall

/-- The call as it is put together from the registers; nothing sets its `returnVal`. -/
def Regs.readCall (regs : Regs) (returnVal : Word) : SyscallCall :=
  ⟨regs.origRax, fun i => [regs.rdi, regs.rsi, regs.rdx, regs.rcx, regs.r8, regs.r9].getD i 0, returnVal⟩

def Regs.writeCall (regs : Regs) (call : SyscallCall) : Regs :=
  { regs with
    origRax := call.id
    rdi := call.args 0
    rsi := call.args 1
    rdx := call.args 2
    rcx := call.args 3
    r8 := call.args 4
    r9 := call.args 5
    rax := call.returnVal }

/-- A value of `call`, logged. -/
def logCall (call : SyscallCall) : PrivateM F W Unit := modify fun s => { s with passed := s.passed ++ [call] }

/-- What the handlers make of a call. -/
def SyscallHandlers.run (H : SyscallHandlers F W) (call : SyscallCall) : SandboxM F W SyscallCall := do
  resetScratch
  let call ← H.sandbox call
  onTracer (H.vfs call)

/-- Between the two `ptrace` requests (`sandbox.cpp:428-430`): `SyscallHandlers.run`, logged. -/
def handleCall (H : SyscallHandlers F W) (call : SyscallCall) : PrivateM F W SyscallCall := do
  logCall call
  onSandbox resetScratch
  let call ← onSandbox (H.sandbox call)
  logCall call
  let call ← onSandbox (onTracer (H.vfs call))
  logCall call
  return call

def handleSeccompEvent (H : SyscallHandlers F W) (pid : Int) : PrivateM F W Unit := do
  let s ← get
  if s.enteredMain then
    let regs ← getRegs pid (str "Failed to fetch registers")
    let call ← handleCall H (regs.readCall s.sandbox.tracer.stack.word)
    setRegs pid (regs.writeCall call) (str "Failed to set registers")

/-- The handlers of `NodeSandbox`. -/
def SyscallHandlers.node [Filesystem F W] : SyscallHandlers F W := ⟨NodeSandbox.handleSyscall, handleSyscall⟩

/-! ## The kernel's side -/

/-- The fourth argument is in `r10`. -/
def Regs.kernelCall (regs : Regs) : Word × List Word :=
  (regs.origRax, [regs.rdi, regs.rsi, regs.rdx, regs.r10, regs.r8, regs.r9])

/-- The number and the six arguments of a call. -/
def SyscallCall.carried (call : SyscallCall) : Word × List Word := (call.id, (List.range 6).map call.args)

theorem isInt_one : IsInt 1 := by decide

/-! ## Runs -/

section
variable {s : SandboxPrivate F W} {pid : Int} {regs : Regs}

theorem onSandbox_ok {α : Type} {x : SandboxM F W α} {a : α} {u : Sandbox F W} (h : x s.sandbox = .ok a u) :
    onSandbox x s = .ok a { s with sandbox := u } := by
  simp only [onSandbox, h]

theorem onSandbox_error {α : Type} {x : SandboxM F W α} {e : Crash} {u : Sandbox F W}
    (h : x s.sandbox = .error e u) : onSandbox x s = .error (.crash e) { s with sandbox := u } := by
  simp only [onSandbox, h]

theorem getRegs_stopped {message : Str} (h : s.stopped pid = some regs) : getRegs pid message s = .ok regs s := by
  rw [getRegs, bind_get, h]
  rfl

theorem setRegs_stopped {message : Str} {old : Regs} (h : s.stopped pid = some old) :
    setRegs pid regs message s = .ok () { s with regs := Function.update s.regs pid (some regs) } := by
  rw [setRegs, bind_get, h]
  rfl

theorem setRegs_gone {message : Str} (h : s.stopped pid = none) :
    setRegs pid regs message s = .error (.exit ESRCH message) s := by
  rw [setRegs, bind_get, h]
  rfl

end

end CodiusSandbox
