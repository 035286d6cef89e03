import Mathlib.Algebra.Group.Int.Defs
import Mathlib.Algebra.Group.Nat.Defs
import Mathlib.Tactic.Common
/-!
# Machine words, strings and syscalls

| here | there |
| --- | --- |
| `Word`, `Address`  | `Sandbox::Word`, `Sandbox::Address` (`sandbox.h:37-38`), 64 bits on x86-64 |
| `Str`              | `std::string` / `const char*`: the bytes |
| `SyscallCall`      | `Sandbox::SyscallCall` (`sandbox.h:43-64`); `pid` only selects the memory the call is about |
| `SYS_*`            | `<sys/syscall.h>`, x86-64 |
| `Crash`            | the ways a handler leaves the tracer without a result |
-/
namespace CodiusSandbox

abbrev Word := BitVec 64

abbrev Address := Word

abbrev Str := List UInt8

/-- A string literal. -/
def str (s : String) : Str := s.toList.map fun c => c.toNat.toUInt8

/-- A string without a NUL, as `takeWhile` looks at it. -/
theorem all_ne_zero {bytes : Str} (h : 0 ∉ bytes) : ∀ b ∈ bytes, decide (b ≠ 0) = true := fun _ hb =>
  decide_eq_true fun h0 => h (h0 ▸ hb)

def slash : UInt8 := 47
def dot : UInt8 := 46

/-- `int` or `ssize_t` stored in an `unsigned long`: sign extension. -/
def toWord (n : Int) : Word := BitVec.ofInt 64 n

/-- `unsigned long` passed for an `int`: the low 32 bits as a signed number. -/
def asInt (w : Word) : Int := (w.setWidth 32).toInt

/-- `unsigned long` passed for an `off_t`. -/
def asOff (w : Word) : Int := w.toInt

/-- The `int` a counter takes when it is incremented from `n`. -/
def succInt (n : Int) : Int := Int.bmod (n + 1) (2 ^ 32)

/-- What is stored in an `int`. -/
def toInt (n : Int) : Int := Int.bmod n (2 ^ 32)

def IsInt (n : Int) : Prop := -(2 ^ 31) ≤ n ∧ n < 2 ^ 31

instance (n : Int) : Decidable (IsInt n) := inferInstanceAs (Decidable (_ ∧ _))

theorem isInt_toInt (n : Int) : IsInt (toInt n) := by
  have hlo := Int.le_bmod (x := n) (m := 2 ^ 32) (by decide)
  have hhi := Int.bmod_lt (x := n) (m := 2 ^ 32) (by decide)
  unfold IsInt toInt
  omega

theorem toInt_of_isInt {n : Int} (h : IsInt n) : toInt n = n := by
  unfold IsInt at h
  exact Int.bmod_eq_of_le (by omega) (by omega)

theorem asInt_toWord {n : Int} (h : IsInt n) : asInt (toWord n) = n := by
  have hw : (BitVec.ofInt 64 n).setWidth 32 = BitVec.ofInt 32 n := by
    apply BitVec.eq_of_toNat_eq
    rw [BitVec.toNat_setWidth, BitVec.toNat_ofInt, BitVec.toNat_ofInt]
    omega
  rw [asInt, toWord, hw, BitVec.toInt_ofInt]
  exact toInt_of_isInt h

structure SyscallCall where
  id : Word
  /-- `args[0]` to `args[5]`. -/
  args : Nat → Word
  returnVal : Word

/-! ## Errors -/

abbrev Errno := Int

def ENOENT : Errno := 2
def EIO : Errno := 5
def EBADF : Errno := 9

/-- What ends a handler without a result. -/
inductive Crash where
  /-- `std::out_of_range` from `std::map::at` or `std::string::substr`. -/
  | outOfRange
  /-- `std::length_error` from the constructor of a `std::vector`. -/
  | lengthError
  /-- `std::bad_alloc`. -/
  | badAlloc
  /-- A failing `assert`. -/
  | assertion
  /-- An access through a null pointer. -/
  | nullDeref
deriving DecidableEq, Repr

/-! ## Syscall numbers -/

def SYS_read : Word := 0
def SYS_write : Word := 1
def SYS_open : Word := 2
def SYS_close : Word := 3
def SYS_stat : Word := 4
def SYS_fstat : Word := 5
def SYS_lstat : Word := 6
def SYS_lseek : Word := 8
def SYS_ioctl : Word := 16
def SYS_readv : Word := 19
def SYS_writev : Word := 20
def SYS_access : Word := 21
def SYS_getdents : Word := 78
def SYS_getcwd : Word := 79
def SYS_chdir : Word := 80
def SYS_fchdir : Word := 81
def SYS_readlink : Word := 89
def SYS_getdents64 : Word := 217
def SYS_openat : Word := 257

/-- `AT_FDCWD` of `<fcntl.h>`. -/
def AT_FDCWD : Int := -100

/-- `O_DIRECTORY` of `<fcntl.h>`. -/
def O_DIRECTORY : Int := 65536

end CodiusSandbox
