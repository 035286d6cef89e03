import CodiusSandbox.Basic
/-!
# What `waitpid` reports

| here | there |
| --- | --- |
| `WIFSTOPPED`, …, `WIFCONTINUED` | the macros of `sys/wait.h` |
| `traceEvent`                    | `s` in `handle_trap` (`sandbox.cpp:545`) |
| `Cause`                         | what a tracee that runs with the options of `traceChild` (`sandbox.cpp:618-619`) can cause |

`Cause.status` is the word that the kernel reports for a cause, and `Cause.message` what
`PTRACE_GETEVENTMSG` then gets. The lemmas say how the macros take each of these words.
-/
namespace CodiusSandbox

abbrev Status := BitVec 32

def SIGSYS : Nat := 31
def SIGTRAP : Nat := 5

def PTRACE_EVENT_CLONE : Nat := 3
def PTRACE_EVENT_EXEC : Nat := 4
def PTRACE_EVENT_EXIT : Nat := 6
def PTRACE_EVENT_SECCOMP : Nat := 7

/-! ## `sys/wait.h` -/

def WEXITSTATUS (status : Status) : Nat := ((status &&& 0xff00) >>> 8).toNat

def WTERMSIG (status : Status) : Nat := (status &&& 0x7f).toNat

def WSTOPSIG (status : Status) : Nat := WEXITSTATUS status

def WIFEXITED (status : Status) : Bool := WTERMSIG status == 0

/-- The sum is cast to `signed char`. -/
def WIFSIGNALED (status : Status) : Bool :=
  0 < ((((status &&& 0x7f) + 1).setWidth 8).sshiftRight 1).toInt

def WIFSTOPPED (status : Status) : Bool := status &&& 0xff == 0x7f

def WIFCONTINUED (status : Status) : Bool := status == 0xffff

/-- `((status >> 8) & ~SIGTRAP) >> 8`. -/
def traceEvent (status : Status) : Int :=
  ((status.sshiftRight 8 &&& ~~~BitVec.ofNat 32 SIGTRAP).sshiftRight 8).toInt

/-! ## What tracees cause -/

/-- A signal number of Linux. -/
structure Signal where
  number : BitVec 8
  valid : 1 ≤ number ∧ number ≤ 64
deriving DecidableEq

/-- How a process ends. -/
inductive Exit
  | exited (code : BitVec 8)
  | killed (signal : Signal) (core : Bool)
deriving DecidableEq

def Exit.status : Exit → Status
  | .exited code => code.setWidth 32 <<< 8
  | .killed signal core => signal.number.setWidth 32 ||| (if core then 0x80 else 0)

inductive Cause
  | seccomp
  | exec
  /-- With the new thread, where `PTRACE_GETEVENTMSG` gets it. -/
  | clone (tid : Option Word)
  /-- With the status the process is about to have, which cannot be had once the stopped process is killed. -/
  | exiting (exit : Option Exit)
  | stopped (signal : Signal)
  | ended (exit : Exit)
deriving DecidableEq

/-- A stop by a `ptrace` event: `SIGTRAP | event << 8` is the signal. -/
def eventStatus (event : Nat) : Status := BitVec.ofNat 32 ((SIGTRAP + event * 2 ^ 8) * 2 ^ 8 + 0x7f)

def Cause.status : Cause → Status
  | .seccomp => eventStatus PTRACE_EVENT_SECCOMP
  | .exec => eventStatus PTRACE_EVENT_EXEC
  | .clone _ => eventStatus PTRACE_EVENT_CLONE
  | .exiting _ => eventStatus PTRACE_EVENT_EXIT
  | .stopped signal => (signal.number.setWidth 32 <<< 8) ||| 0x7f
  | .ended exit => exit.status

def Cause.message : Cause → Option Word
  | .clone tid => tid
  | .exiting exit => exit.map fun e => e.status.setWidth 64
  | _ => none

/-! ## How they are decoded -/

theorem exited_decoded : ∀ code : BitVec 8, WIFSTOPPED (code.setWidth 32 <<< 8) = false ∧
    WIFCONTINUED (code.setWidth 32 <<< 8) = false ∧ WIFSIGNALED (code.setWidth 32 <<< 8) = false ∧
    WIFEXITED (code.setWidth 32 <<< 8) = true := by decide +kernel

theorem killed_decoded : ∀ (core : Bool) (n : BitVec 8), 1 ≤ n → n ≤ 64 →
    WIFSTOPPED (n.setWidth 32 ||| (if core then 0x80 else 0)) = false ∧
    WIFCONTINUED (n.setWidth 32 ||| (if core then 0x80 else 0)) = false ∧
    WIFSIGNALED (n.setWidth 32 ||| (if core then 0x80 else 0)) = true := by decide +kernel

theorem stopped_decoded : ∀ n : BitVec 8, 1 ≤ n → n ≤ 64 →
    WIFSTOPPED ((n.setWidth 32 <<< 8) ||| 0x7f) = true ∧ WSTOPSIG ((n.setWidth 32 <<< 8) ||| 0x7f) = n.toNat ∧
    traceEvent ((n.setWidth 32 <<< 8) ||| 0x7f) = 0 := by decide +kernel

theorem event_decoded : ∀ event < 256, WIFSTOPPED (eventStatus event) = true ∧
    WSTOPSIG (eventStatus event) = SIGTRAP ∧ traceEvent (eventStatus event) = event := by decide +kernel

/-- An exit is neither a stop nor a continuation. -/
theorem Exit.not_stopped (exit : Exit) : WIFSTOPPED exit.status = false ∧ WIFCONTINUED exit.status = false := by
  cases exit with
  | exited code => exact ⟨(exited_decoded code).1, (exited_decoded code).2.1⟩
  | killed signal core =>
    obtain ⟨hstop, hcont, _⟩ := killed_decoded core signal.number signal.valid.1 signal.valid.2
    exact ⟨hstop, hcont⟩

/-- An exit is by a signal or not. -/
theorem Exit.decoded (exit : Exit) : WIFSIGNALED exit.status = true ∨ WIFEXITED exit.status = true := by
  cases exit with
  | exited code => exact Or.inr (exited_decoded code).2.2.2
  | killed signal core => exact Or.inl (killed_decoded core signal.number signal.valid.1 signal.valid.2).2.2

end CodiusSandbox
