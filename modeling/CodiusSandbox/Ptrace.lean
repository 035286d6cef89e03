import CodiusSandbox.Basic
import CodiusSandbox.Lib.Wp
/-!
# The child's memory: `peekData`, `pokeData`, `copyData`, `copyString`, `writeData`

| here | there |
| --- | --- |
| `Memory`                 | the address space of the traced child; `none` is an unmapped byte |
| `Buffer`                 | tracer memory from the start of a buffer on, not bounded by the buffer's size |
| `peekData`, `pokeData`   | `Sandbox::peekData`, `Sandbox::pokeData` (`sandbox.cpp:345`, `:480`) |
| `copyData`               | `Sandbox::copyData` (`sandbox.cpp:354`) |
| `copyString`             | `Sandbox::copyString` (`sandbox.cpp:366`) |
| `writeData`              | `Sandbox::writeData` (`sandbox.cpp:507`) |

A word moves as the eight bytes of its little-endian image. `ptrace` is taken at its documented
behaviour: a `PEEKDATA` or `POKEDATA` that touches an unmapped byte fails, sets `errno` and changes
nothing; a successful `PEEKDATA` sets `errno` to 0, a successful `POKEDATA` leaves it alone.
-/
namespace CodiusSandbox

open Wp

abbrev Memory := Address → Option UInt8

abbrev Buffer := Nat → UInt8

/-- `std::string (buf)` for a buffer of `n` bytes: up to the first NUL, be it behind the buffer. -/
def cString (buf : Buffer) (n : Nat) (slack : List UInt8) : Str :=
  ((List.range n).map buf ++ slack).takeWhile (· ≠ 0)

/-- What the `ptrace` helpers of `Sandbox` work on. -/
structure Ptrace where
  mem : Memory
  errno : Errno

abbrev PtraceM := EStateM Crash Ptrace

/-- `addr + i`, in the 64-bit arithmetic of `Address`. -/
def offset (addr : Address) (i : Nat) : Address := addr + BitVec.ofNat 64 i

/-- `a - b` on `size_t`. -/
def usub (a b : Nat) : Nat := (2 ^ 64 + a - b) % 2 ^ 64

/-- All eight bytes of the word at `addr` are mapped. -/
def WordMapped (m : Memory) (addr : Address) : Prop := ∀ j < 8, (m (offset addr j)).isSome

instance (m : Memory) (addr : Address) : Decidable (WordMapped m addr) :=
  inferInstanceAs (Decidable (∀ j < 8, (m (offset addr j)).isSome))

/-- The byte at `addr`, 0 where unmapped. -/
def byteAt (m : Memory) (addr : Address) : UInt8 := (m addr).getD 0

/-- `PTRACE_PEEKDATA`, and the `assert (errno == 0)` behind it. -/
def peekData (addr : Address) : PtraceM Buffer := do
  let s ← get
  if WordMapped s.mem addr then
    set { s with errno := 0 }
    return fun j => byteAt s.mem (offset addr j)
  else
    set { s with errno := EIO }
    throw .assertion

/-- The memory after the word `d` is stored at `addr`. -/
def storeWord (m : Memory) (addr : Address) (d : Buffer) : Memory := fun a =>
  if (a - addr).toNat < 8 then some (d (a - addr).toNat) else m a

/-- `PTRACE_POKEDATA`; every caller drops the result. -/
def pokeData (addr : Address) (d : Buffer) : PtraceM Unit :=
  modify fun s =>
    if WordMapped s.mem addr then { s with mem := storeWord s.mem addr d }
    else { s with errno := EIO }

/-! ## `copyData` -/

/-- `memcpy (buf + i, &ret, 8)`. -/
def putWord (buf : Buffer) (i : Nat) (d : Buffer) : Buffer := fun k =>
  if i ≤ k ∧ k < i + 8 then d (k - i) else buf k

def copyDataLoop (addr : Address) (length : Nat) : Nat → Nat → Buffer → PtraceM Buffer
  | 0, _, buf => pure buf
  | fuel + 1, i, buf =>
    if i < length then do
      let ret ← peekData (offset addr i)
      copyDataLoop addr length fuel (i + 8) (putWord buf i ret)
    else pure buf

/-- `Sandbox::copyData`; a loop of at most `length` words. -/
def copyData (addr : Address) (length : Nat) (buf : Buffer) : PtraceM (Buffer × Bool) := do
  let buf ← copyDataLoop addr length length 0 buf
  let s ← get
  return (buf, s.errno == 0)

/-! ## `copyString` -/

/-- The inner loop of `sandbox.cpp:375-381` with `n` bytes of the word left: copies the bytes of
`d`, up to and including a NUL. Returns the buffer and `endString`. -/
def copyUntilNul (d : Buffer) (maxLength i : Nat) : Nat → Buffer → Buffer × Bool
  | 0, buf => (buf, false)
  | n + 1, buf =>
    let j := 7 - n
    if i + j < maxLength then
      let buf := fun k => if k = i + j then d j else buf k
      if d j = 0 then (buf, true) else copyUntilNul d maxLength i n buf
    else (buf, false)

/-- The last inner loop (`sandbox.cpp:386-388`), which does not look for a NUL. -/
def copyTail (d : Buffer) (maxLength i : Nat) (buf : Buffer) : Buffer := fun k =>
  if i ≤ k ∧ k < i + 8 ∧ k < maxLength then d (k - i) else buf k

def copyStringLoop (addr : Address) (maxLength : Nat) :
    Nat → Nat → Buffer → PtraceM (Nat × Bool × Buffer)
  | 0, i, buf => pure (i, false, buf)
  | fuel + 1, i, buf =>
    if usub maxLength i > 8 then do
      let d ← peekData (offset addr i)
      match copyUntilNul d maxLength i 8 buf with
      | (buf, true) => pure (i + 8, true, buf)
      | (buf, false) => copyStringLoop addr maxLength fuel (i + 8) buf
    else pure (i, false, buf)

/-- The part of `copyString` behind the loop (`sandbox.cpp:384-389`). -/
def copyLast (addr : Address) (maxLength i : Nat) (endString : Bool) (buf : Buffer) : PtraceM Buffer :=
  if i ≠ maxLength ∧ endString = false then do
    let d ← peekData (offset addr i)
    return copyTail d maxLength i buf
  else pure buf

/-- `Sandbox::copyString`; a loop of at most `maxLength` words. -/
def copyString (addr : Address) (maxLength : Nat) (buf : Buffer) : PtraceM (Buffer × Bool) := do
  let (i, endString, buf) ← copyStringLoop addr maxLength maxLength 0 buf
  let buf ← copyLast addr maxLength i endString buf
  let s ← get
  return (buf, s.errno == 0)

/-! ## `writeData` -/

def writeDataLoop (addr : Address) (length : Nat) (buf : Buffer) : Nat → Nat → PtraceM Nat
  | 0, i => pure i
  | fuel + 1, i =>
    if usub length i > 8 then do
      pokeData (offset addr i) fun j => buf (i + j)
      writeDataLoop addr length buf fuel (i + 8)
    else pure i

/-- The part of `writeData` behind the loop (`sandbox.cpp:517-523`): merges the rest of the buffer
into the word that is there. -/
def writeLast (addr : Address) (length : Nat) (buf : Buffer) (i : Nat) : PtraceM Unit :=
  if i ≠ length then do
    let d ← peekData (offset addr i)
    pokeData (offset addr i) fun j => if i + j < length then buf (i + j) else d j
  else pure ()

/-- `Sandbox::writeData`; a loop of at most `length` words. -/
def writeData (addr : Address) (length : Nat) (buf : Buffer) : PtraceM Bool := do
  let i ← writeDataLoop addr length buf length 0
  writeLast addr length buf i
  let s ← get
  return s.errno == 0

end CodiusSandbox
