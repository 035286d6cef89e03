import CodiusSandbox.NodeFilesystem
import CodiusSandbox.WriteData
/-!
# `Sandbox` and `NodeSandbox` (`sandbox.cpp`, `sandbox-node-module.cpp`)

| here | there |
| --- | --- |
| `Sandbox`                      | the pid and the scratch buffer of `SandboxPrivate`, and the tracer that its VFS works on |
| `resetScratch`, `writeScratch` | `Sandbox::resetScratch`, `Sandbox::writeScratch` (`sandbox.cpp:486-504`) |
| `NodeSandbox.handleSyscall`    | `NodeSandbox::handleSyscall` (`sandbox-node-module.cpp:104`) |
| `seccompCall`                  | what `handleSeccompEvent` does between its two `ptrace` calls (`sandbox.cpp:428-430`) |

`emitted` is a log of the events for JavaScript and `released` one of the signals that `releaseChild`
detaches the child with.
-/
namespace CodiusSandbox

open Wp

def SYS_socket : Word := 41
def SYS_bind : Word := 49
def SYS_execve : Word := 59

def AF_UNIX : Nat := 1
def SIGKILL : Int := 9

structure Sandbox (F W : Type) where
  tracer : Tracer F W
  pid : Int
  isInt_pid : IsInt pid
  scratchAddr : Address
  nextScratchSegment : Address
  emitted : List (Str × List Str)
  released : List Int

abbrev SandboxM (F W : Type) := EStateM Crash (Sandbox F W)

variable {F W : Type}

/-- What the VFS and the `ptrace` helpers do is done to the tracer. -/
def onTracer {α : Type} (x : TracerM F W α) : SandboxM F W α := fun s =>
  match x s.tracer with
  | .ok a t => .ok a { s with tracer := t }
  | .error e t => .error e { s with tracer := t }

/-! ## The scratch buffer -/

def resetScratch : SandboxM F W Unit :=
  modify fun s => { s with nextScratchSegment := s.scratchAddr }

/-- Up to the nearest word boundary. -/
def roundUp (a : Address) : Address :=
  if a.toNat % 8 ≠ 0 then a + BitVec.ofNat 64 (8 - a.toNat % 8) else a

/-- The result of `writeData` is dropped. -/
def writeScratch (length : Nat) (buf : Buffer) : SandboxM F W Address := do
  let s ← get
  let _ ← onTracer (ptrace (writeData s.nextScratchSegment length buf))
  modify fun t => { t with nextScratchSegment := roundUp (offset s.nextScratchSegment length) }
  return s.nextScratchSegment

/-! ## `struct sockaddr_un` -/

/-- `sizeof (struct sockaddr_un)`. -/
def sizeofSockaddrUn : Nat := 110

/-- `sizeof (addr.sun_path)`. -/
def sizeofSunPath : Nat := 108

/-- `%d`. -/
def decimal (n : Int) : Str := str (toString n)

/-- `snprintf` into the `size` bytes at `off`: what fits, and a NUL. -/
def Buffer.snprintf (buf : Buffer) (off size : Nat) (text : Str) : Buffer :=
  buf.putAt off (text.take (size - 1) ++ [0])

/-- The name of the socket that stands in for descriptor `fd` of the child. -/
def socketName (pid fd : Int) : Str :=
  str "/tmp/codius-sandbox-socket-" ++ decimal pid ++ str "-" ++ decimal fd

/-- The `sockaddr_un` of `bind`, in a place of the stack that holds `buf`. -/
def sockaddrUn (pid fd : Int) (buf : Buffer) : Buffer :=
  let buf := buf.putAt 0 (LittleEndian.toBytes 2 AF_UNIX)
  buf.snprintf 2 sizeofSunPath (socketName pid fd)

/-- `addr.sun_path`, as a C string. -/
def sunPath (addr : Buffer) : Str := cString (fun i => addr (2 + i)) sizeofSunPath []

/-! ## `NodeSandbox` -/

/-- `NodeSandbox::emitEvent`. -/
def emitEvent (name : Str) (args : List Str) : SandboxM F W Unit :=
  modify fun s => { s with emitted := s.emitted ++ [(name, args)] }

/-- `Sandbox::kill`: `releaseChild (SIGKILL)`. -/
def kill : SandboxM F W Unit :=
  modify fun s => { s with released := s.released ++ [SIGKILL] }

/-- `args[i] = v`. -/
def SyscallCall.setArg (call : SyscallCall) (i : Nat) (v : Word) : SyscallCall :=
  { call with args := Function.update call.args i v }

/-- The branches for `getsockname`, `getsockopt` and `setsockopt` are empty. -/
def NodeSandbox.handleSyscall (call : SyscallCall) : SandboxM F W SyscallCall := do
  if call.id = SYS_bind then
    let s ← get
    let addr := sockaddrUn s.pid (asInt (call.args 0)) s.tracer.stack
    let scratch ← writeScratch sizeofSockaddrUn addr
    emitEvent (str "newSocket") [sunPath addr]
    return (call.setArg 1 scratch).setArg 2 (BitVec.ofNat 64 sizeofSockaddrUn)
  else if call.id = SYS_socket then return call.setArg 0 (BitVec.ofNat 64 AF_UNIX)
  else if call.id = SYS_execve then
    kill
    return call
  else return call

/-- The handlers at a seccomp stop. -/
def seccompCall [Filesystem F W] (call : SyscallCall) : SandboxM F W SyscallCall := do
  resetScratch
  let call ← NodeSandbox.handleSyscall call
  onTracer (handleSyscall call)

/-! ## Lengths -/

theorem length_str (s : String) : (str s).length = s.length := by
  rw [str, List.length_map, String.length_toList]

/-- An `int` has at most ten digits and a sign. -/
theorem length_decimal {n : Int} (h : IsInt n) : (decimal n).length ≤ 11 := by
  unfold IsInt at h
  rw [decimal, length_str]
  have hdigits : ∀ m : Nat, m ≤ 2 ^ 31 → m.repr.length ≤ 10 := fun m hm =>
    (Nat.length_repr_le_iff (by decide)).2 (by omega)
  cases n with
  | ofNat m =>
    have hle := hdigits m (by simp only [Int.ofNat_eq_natCast] at h; omega)
    exact Nat.le_trans hle (by decide)
  | negSucc m =>
    have hle := hdigits (m + 1) (by omega)
    have happend : ("-" ++ (m + 1).repr).length = 1 + (m + 1).repr.length := String.length_append _ _
    exact Nat.le_trans (Nat.le_of_eq happend) (by omega)

theorem length_socketName {pid fd : Int} (hpid : IsInt pid) (hfd : IsInt fd) :
    (socketName pid fd).length ≤ 50 := by
  have h1 := length_decimal hpid
  have h2 := length_decimal hfd
  have h3 : (str "/tmp/codius-sandbox-socket-").length = 27 := by decide
  have h4 : (str "-").length = 1 := by decide
  simp only [socketName, List.length_append, h3, h4]
  omega

/-! ## Runs -/

section
variable {s : Sandbox F W} {call : SyscallCall}

theorem onTracer_ok {α : Type} {x : TracerM F W α} {a : α} {t : Tracer F W} (h : x s.tracer = .ok a t) :
    onTracer x s = .ok a { s with tracer := t } := by
  simp only [onTracer, h]

theorem onTracer_error {α : Type} {x : TracerM F W α} {e : Crash} {t : Tracer F W}
    (h : x s.tracer = .error e t) : onTracer x s = .error e { s with tracer := t } := by
  simp only [onTracer, h]

theorem of_onTracer_ok {α : Type} {x : TracerM F W α} {a : α} {t : Sandbox F W} (h : onTracer x s = .ok a t) :
    ∃ u, x s.tracer = .ok a u ∧ t = { s with tracer := u } := by
  unfold onTracer at h
  split at h
  · rename_i b u hu
    cases h
    exact ⟨u, hu, rfl⟩
  · cases h

/-- The state behind a `writeScratch`. -/
def Sandbox.scratched (s : Sandbox F W) (length : Nat) (buf : Buffer) (errno : Errno) : Sandbox F W :=
  { s with
    tracer := { s.tracer with mem := stored s.tracer.mem s.nextScratchSegment length buf, errno := errno }
    nextScratchSegment := roundUp (offset s.nextScratchSegment length) }

theorem writeScratch_ok {length : Nat} {buf : Buffer} (hl : length < 2 ^ 64)
    (h : TailMapped s.tracer.mem s.nextScratchSegment length) :
    ∃ e, writeScratch length buf s = .ok s.nextScratchSegment (s.scratched length buf e) := by
  obtain ⟨r, e, hrun⟩ := writeData_stored s.nextScratchSegment buf (s := ⟨s.tracer.mem, s.tracer.errno⟩) hl h
  have hp : ptrace (writeData s.nextScratchSegment length buf) s.tracer =
      .ok r { s.tracer with mem := stored s.tracer.mem s.nextScratchSegment length buf, errno := e } := by
    simp only [ptrace, hrun]
  exact ⟨e, by rw [writeScratch, bind_get, bind_ok (onTracer_ok hp)]; rfl⟩

theorem writeScratch_error {length : Nat} {buf : Buffer} (hl : length < 2 ^ 64)
    (h : ¬ TailMapped s.tracer.mem s.nextScratchSegment length) :
    ∃ e t, writeScratch length buf s = .error e t := by
  obtain ⟨p, hrun⟩ := writeData_unmapped buf (s := ⟨s.tracer.mem, s.tracer.errno⟩) hl h
  have hp : ptrace (writeData s.nextScratchSegment length buf) s.tracer =
      .error .assertion { s.tracer with mem := p.mem, errno := p.errno } := by simp only [ptrace, hrun]
  exact ⟨_, _, by rw [writeScratch, bind_get, bind_error (onTracer_error hp)]⟩

/-- A call that `NodeSandbox` has no branch for. -/
def Plain (call : SyscallCall) : Prop :=
  call.id ≠ SYS_bind ∧ call.id ≠ SYS_socket ∧ call.id ≠ SYS_execve

/-- A plain call is the VFS's alone. -/
theorem seccompCall_plain [Filesystem F W] (h : Plain call) :
    seccompCall call s = onTracer (handleSyscall call) { s with nextScratchSegment := s.scratchAddr } := by
  obtain ⟨hbind, hsocket, hexec⟩ := h
  rw [seccompCall, resetScratch, bind_modify, NodeSandbox.handleSyscall, if_neg hbind, if_neg hsocket,
    if_neg hexec]
  rfl

theorem of_seccompCall_plain [Filesystem F W] {t : Sandbox F W} {ret : SyscallCall} (h : Plain call)
    (hrun : seccompCall call s = .ok ret t) : handleSyscall call s.tracer = .ok ret t.tracer := by
  rw [seccompCall_plain h] at hrun
  obtain ⟨u, hu, rfl⟩ := of_onTracer_ok hrun
  exact hu

end

end CodiusSandbox
