import CodiusSandbox.Mediation
/-!
# The seccomp filter and the descriptors it leaves to the VFS

| here | there |
| --- | --- |
| `Rule`, `seccompRules` | the `seccomp_rule_add` calls of `Sandbox::execChild` (`sandbox.cpp:204-318`), in order |
| `vfsFilter`            | the macro `VFS_FILTER` (`sandbox.cpp:230-237`); there is no `readdir` on x86-64 |
| `seccompAction`        | the filter libseccomp builds from the rules |
| `kernelRuns`           | `SandboxPrivate::handleSeccompEvent` (`sandbox.cpp:397`): a call whose number comes back unchanged |

Taken from libseccomp: the default action is that of `seccomp_init`, `SCMP_A0` compares all 64 bits
without a sign, and a rule without a comparison replaces those with one that a syscall has and stands
against every later rule: `ioctl` is allowed for every argument, and `gettid` is traced. The number is the
`int` of `seccomp_data`.
-/
namespace CodiusSandbox

open Wp

inductive Action where
  | kill | trace | allow
deriving DecidableEq, Repr

inductive Compare where
  | ge | lt
deriving DecidableEq, Repr

/-- One `seccomp_rule_add`, with the comparison of the first argument if there is one. -/
structure Rule where
  action : Action
  syscall : Word
  cond : Option (Compare × Word)
deriving DecidableEq

/-- `VFS_FILTER (x)`. -/
def vfsFilter (x : Word) : List Rule :=
  [⟨.trace, x, some (.ge, BitVec.ofInt 64 firstVirtualFD)⟩,
   ⟨.allow, x, some (.lt, BitVec.ofInt 64 firstVirtualFD)⟩]

/-- The syscalls registered with `VFS_FILTER`. -/
def vfsFiltered : List Word :=
  [SYS_read, SYS_close, SYS_ioctl, SYS_fstat, SYS_lseek, SYS_write, SYS_getdents, SYS_getdents64,
   SYS_readv, SYS_writev]

def traceRule (x : Word) : Rule := ⟨.trace, x, none⟩
def allowRule (x : Word) : Rule := ⟨.allow, x, none⟩

def seccompRules : List Rule :=
  -- ptrace
  [⟨.kill, 101, none⟩] ++
  -- execve, clone
  [59, 56].map allowRule ++
  [SYS_chdir, SYS_fchdir, SYS_open, SYS_access, SYS_openat, SYS_stat, SYS_lstat, SYS_getcwd,
   SYS_readlink].map traceRule ++
  vfsFiltered.flatMap vfsFilter ++
  -- fcntl, socket, connect, bind, setsockopt, getsockname, getpeername, getsockopt
  [72, 41, 42, 49, 54, 51, 52, 55].map traceRule ++
  -- uname, getrlimit, getuid, getgid, geteuid, getegid, getppid, getpgrp, getgroups, getresuid,
  -- getresgid, capget, gettid
  [63, 97, 102, 104, 107, 108, 110, 111, 115, 118, 120, 125, 186].map traceRule ++
  -- fsync, fdatasync, sync, poll, mmap, mprotect, munmap, madvise, brk, rt_sigaction,
  -- rt_sigprocmask, select, sched_yield, getpid, accept, listen, exit, gettimeofday, tkill
  [74, 75, 162, 7, 9, 10, 11, 28, 12, 13, 14, 23, 24, 39, 43, 50, 60, 96, 200].map allowRule ++
  -- epoll_create, restart_syscall, clock_gettime, clock_getres, clock_nanosleep, gettid
  [213, 219, 228, 229, 230, 186].map allowRule ++
  [allowRule SYS_ioctl] ++
  -- nanosleep, exit_group, epoll_wait, epoll_ctl, tgkill, pselect6, ppoll, arch_prctl, prctl,
  -- set_robust_list, get_robust_list, epoll_pwait, accept4, eventfd2, epoll_create1, pipe2, futex,
  -- set_tid_address, set_thread_area
  [35, 231, 232, 233, 234, 270, 271, 158, 157, 273, 274, 281, 288, 290, 291, 293, 202, 218,
   205].map allowRule

def Compare.holds : Compare → Word → Word → Bool
  | .ge, a, b => b ≤ a
  | .lt, a, b => a < b

def Rule.holds (r : Rule) (a0 : Word) : Bool :=
  match r.cond with
  | some (c, datum) => c.holds a0 datum
  | none => true

/-- The low 32 bits, which the kernel and the filter take for the number of a call. -/
def callNumber (id : Word) : Word := (id.setWidth 32).setWidth 64

def rulesFor (id : Word) : List Rule := seccompRules.filter fun r => r.syscall = id

/-- The rule that decides: the first without a comparison, and else the first that holds. -/
def decidingRule (rules : List Rule) (a0 : Word) : Option Rule :=
  (rules.find? fun r => r.cond = none).or (rules.find? fun r => r.holds a0)

def seccompAction (call : SyscallCall) : Action :=
  match decidingRule (rulesFor (callNumber call.id)) (call.args 0) with
  | some r => r.action
  | none => .kill

/-! ## The two classifiers of descriptors -/

/-- `ioctl` is the one filtered call with an unconditional rule behind the two conditional ones. -/
theorem rulesFor_vfsFiltered {id : Word} (h : id ∈ vfsFiltered) :
    rulesFor id = vfsFilter id ++ if id = SYS_ioctl then [allowRule id] else [] := by
  simp only [vfsFiltered, List.mem_cons, List.not_mem_nil, or_false] at h
  rcases h with rfl | rfl | rfl | rfl | rfl | rfl | rfl | rfl | rfl | rfl
  all_goals rfl

theorem callNumber_vfsFiltered {id : Word} (h : id ∈ vfsFiltered) : callNumber id = id := by
  simp only [vfsFiltered, List.mem_cons, List.not_mem_nil, or_false] at h
  rcases h with rfl | rfl | rfl | rfl | rfl | rfl | rfl | rfl | rfl | rfl
  all_goals rfl

/-- The filter compares the whole register without a sign. -/
theorem seccompAction_vfsFiltered {call : SyscallCall} (h : call.id ∈ vfsFiltered) :
    seccompAction call =
      if call.id = SYS_ioctl ∨ (call.args 0).toNat < 4096 then .allow else .trace := by
  unfold seccompAction
  rw [callNumber_vfsFiltered h, rulesFor_vfsFiltered h]
  by_cases hi : call.id = SYS_ioctl
  · simp [hi, decidingRule, vfsFilter, allowRule]
  · have hlt : decide (call.args 0 < BitVec.ofInt 64 firstVirtualFD) =
        decide ((call.args 0).toNat < 4096) := rfl
    have hge : decide (BitVec.ofInt 64 firstVirtualFD ≤ call.args 0) =
        decide (4096 ≤ (call.args 0).toNat) := rfl
    by_cases ha : (call.args 0).toNat < 4096
    · simp [hi, decidingRule, vfsFilter, Rule.holds, Compare.holds, hlt, hge, ha, Nat.not_le.2 ha]
    · simp [hi, decidingRule, vfsFilter, Rule.holds, Compare.holds, hge, Nat.not_lt.1 ha, ha]

/-- A descriptor that is virtual for `isVirtualFD` is 4096 or more for the filter: its low half alone
is. -/
theorem le_toNat_of_isVirtualFD {w : Word} (h : isVirtualFD (asInt w) = true) : 4096 ≤ w.toNat := by
  have hlow : (w.setWidth 32).toNat = w.toNat % 2 ^ 32 := BitVec.toNat_setWidth 32 w
  have hfd := isVirtualFD_iff.1 h
  unfold asInt firstVirtualFD BitVec.toInt at hfd
  split at hfd
  · omega
  · omega

/-! ## Mediation -/

section
variable {F W : Type} [Filesystem F W] {σ : Tracer F W} {call : SyscallCall}

/-- The kernel gets to execute the call. -/
def kernelRuns (σ : Tracer F W) (call : SyscallCall) : Prop :=
  match seccompAction call with
  | .allow => True
  | .trace => Returns (handleSyscall call) (fun r _ => r.id = call.id) σ
  | .kill => False

/-- The kernel executes the call exactly on a descriptor that is not virtual, and one that is gets
stopped and answered. -/
def DescriptorMediated (σ : Tracer F W) (call : SyscallCall) : Prop :=
  (kernelRuns σ call ↔ asInt (call.args 0) < firstVirtualFD) ∧
    (isVirtualFD (asInt (call.args 0)) = true →
      seccompAction call = .trace ∧ Answers σ call fun r _ => r.id = toWord (-1))

/-- The filtered calls `handleSyscall` has a handler for. -/
def handledFDCalls : List Word :=
  [SYS_read, SYS_close, SYS_fstat, SYS_lseek, SYS_write, SYS_getdents]

/-- The handlers leave a descriptor that is not virtual to the kernel. -/
theorem completes_of_not_virtual (h : call.id ∈ vfsFiltered)
    (hv : isVirtualFD (asInt (call.args 0)) = false) : Completes σ call ∧ answerId σ call = call.id := by
  have hfd : ∀ after : File F → Prop, FdCompletes σ (asInt (call.args 0)) after := by
    intro after hv'
    rw [hv] at hv'
    cases hv'
  simp only [vfsFiltered, List.mem_cons, List.not_mem_nil, or_false] at h
  rcases h with h | h | h | h | h | h | h | h | h | h
  all_goals simp [Completes, answerId, fdId, ReadCompletes, FstatCompletes, WriteCompletes,
    GetdentsCompletes, h, hv, hfd, SYS_open, SYS_close, SYS_read, SYS_fstat, SYS_getdents, SYS_openat,
    SYS_lseek, SYS_write, SYS_access, SYS_chdir, SYS_stat, SYS_lstat, SYS_getcwd, SYS_readlink,
    SYS_ioctl, SYS_getdents64, SYS_readv, SYS_writev]

omit [Filesystem F W] in
theorem answerId_virtual (h : call.id ∈ vfsFiltered) (hv : isVirtualFD (asInt (call.args 0)) = true) :
    answerId σ call = if call.id ∈ handledFDCalls then toWord (-1) else call.id := by
  simp only [vfsFiltered, List.mem_cons, List.not_mem_nil, or_false] at h
  rcases h with h | h | h | h | h | h | h | h | h | h
  all_goals simp [answerId, fdId, handledFDCalls, h, hv, SYS_open, SYS_close, SYS_read, SYS_fstat,
    SYS_getdents, SYS_openat, SYS_lseek, SYS_write, SYS_access, SYS_chdir, SYS_stat, SYS_lstat,
    SYS_getcwd, SYS_readlink, SYS_ioctl, SYS_getdents64, SYS_readv, SYS_writev]

theorem descriptor_mediated_iff (h : call.id ∈ vfsFiltered) :
    DescriptorMediated σ call ↔
      asInt (call.args 0) < firstVirtualFD ∨ (call.id ∈ handledFDCalls ∧ Survives σ call) := by
  have hne : call.id ≠ toWord (-1) := by
    intro he
    rw [he] at h
    exact absurd h (by decide)
  unfold DescriptorMediated kernelRuns
  rw [seccompAction_vfsFiltered h]
  cases hv : isVirtualFD (asInt (call.args 0)) with
  | false =>
    have hlt := isVirtualFD_false_iff.1 hv
    obtain ⟨hs, hid⟩ := completes_of_not_virtual (σ := σ) h hv
    have hruns : Returns (handleSyscall call) (fun r _ => r.id = call.id) σ :=
      (returns_handleSyscall (P := fun id => id = call.id)).2 ⟨hs, hid⟩
    by_cases hc : call.id = SYS_ioctl ∨ (call.args 0).toNat < 4096
    · simp [hc, hlt]
    · simp [hc, hlt, hruns]
  | true =>
    have hge : ¬ asInt (call.args 0) < firstVirtualFD := Int.not_lt.2 (isVirtualFD_iff.1 hv)
    have hnat := le_toNat_of_isVirtualFD hv
    have hid := answerId_virtual (σ := σ) h hv
    have hret : ∀ w, Returns (handleSyscall call) (fun r _ => r.id = w) σ ↔
        Completes σ call ∧ answerId σ call = w := fun w =>
      returns_handleSyscall (P := fun id => id = w)
    simp only [Nat.not_lt.2 hnat, or_false, hge, iff_false, false_or, true_implies]
    by_cases hi : call.id = SYS_ioctl
    · have hnh : SYS_ioctl ∉ handledFDCalls := by decide
      simp [hi, hnh]
    · by_cases hh : call.id ∈ handledFDCalls
      · simp [hi, hh, hret, hid, hne.symm, Answers, Survives, and_comm]
      · simp [hi, hh, hret, hid, hne, Answers]

end

/-- `read (4096, …)` of a descriptor that is not open, so not answered. -/
theorem descriptor_mediated_read :
    DescriptorMediated (mounted [] ⟨3⟩) (.of SYS_read [4096]) ↔
      asInt ((SyscallCall.of SYS_read [4096]).args 0) < firstVirtualFD ∨
        (SYS_read ∈ handledFDCalls ∧ Survives (mounted [] ⟨3⟩) (.of SYS_read [4096])) :=
  descriptor_mediated_iff (by decide)

/-- The kernel runs `ioctl (4096)`, by the second rule for `ioctl`, and `readv (4096)`, for want of a
handler. -/
theorem ioctl_readv_reach_kernel : Reachable (mounted [] ⟨3⟩) ∧
    kernelRuns (mounted [] ⟨3⟩) (.of SYS_ioctl [4096]) ∧
    kernelRuns (mounted [] ⟨3⟩) (.of SYS_readv [4096]) ∧
    ¬ DescriptorMediated (mounted [] ⟨3⟩) (.of SYS_ioctl [4096]) ∧
    ¬ DescriptorMediated (mounted [] ⟨3⟩) (.of SYS_readv [4096]) := by
  have hioctl : kernelRuns (mounted [] ⟨3⟩) (.of SYS_ioctl [4096]) := by
    have ha : seccompAction (.of SYS_ioctl [4096]) = .allow := by decide +kernel
    unfold kernelRuns
    rw [ha]
    trivial
  have hreadv : kernelRuns (mounted [] ⟨3⟩) (.of SYS_readv [4096]) := by
    have ha : seccompAction (.of SYS_readv [4096]) = .trace := by decide +kernel
    unfold kernelRuns
    rw [ha]
    decide +kernel
  exact ⟨mounted_reachable _ _, hioctl, hreadv, fun h => absurd (h.1.1 hioctl) (by decide),
    fun h => absurd (h.1.1 hreadv) (by decide)⟩

end CodiusSandbox
