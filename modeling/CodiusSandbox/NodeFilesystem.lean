import CodiusSandbox.DirentBuilder
import CodiusSandbox.Filesystem
/-!
# `CodiusNodeFilesystem` (`node-filesystem.cpp`)

| here | there |
| --- | --- |
| `VFSRequest`                     | the name and the arguments handed to the `onVFS` callback |
| `Value`, `VFSReply`              | what the V8 conversions make of the callback's result |
| `OnVFS`                          | the callback, which is JavaScript |
| `Node`                           | `m_offsets` and the state of the callback |
| `CodiusNodeFilesystem.open`, …   | the member functions; `doVFS` is a parameter of theirs |

A function here takes the `doVFS` it calls, since the event loop may run other calls before the reply
is there. The instance of `Filesystem` is that without other calls.
-/
namespace CodiusSandbox

def ENOSYS : Errno := 38

def SEEK_SET : Int := 0
def SEEK_CUR : Int := 1

/-! ## The callback -/

inductive VFSRequest where
  | open (name : Str) (flags mode : Int)
  | read (fd count position : Int)
  | close (fd : Int)
  | fstat (fd : Int)
  | getdents (fd : Int)
  | write (fd : Int) (data : Str)
  | readlink (path : Str)
  | access (name : Str) (mode : Int)
  | stat (name : Str)
  | lstat (name : Str)
deriving DecidableEq, Repr

/-- The fields of the result of a `stat`, each through `ToInt32`. -/
structure StatFields where
  dev : Int
  ino : Int
  mode : Int
  nlink : Int
  uid : Int
  gid : Int
  rdev : Int
  size : Int
  blksize : Int
  blocks : Int
deriving DecidableEq, Repr

/-- A V8 value, as far as it is looked at. -/
structure Value where
  /-- `ToInt32 ()`. -/
  int32 : Int
  /-- The characters of `ToString ()`, each in UTF-8. -/
  text : List Str
  /-- The properties that a `stat` reads. -/
  stat : StatFields
  /-- The elements of an array, as text. -/
  elements : List (List Str)

/-- `Undefined ()`. -/
def Value.undefined : Value := ⟨0, "undefined".toList.map fun c => [c.toNat.toUInt8], ⟨0, 0, 0, 0, 0, 0, 0, 0, 0, 0⟩, []⟩

/-- `VFSResult`. -/
structure VFSReply where
  errnum : Int
  result : Value
  isInt : IsInt errnum

/-- `-ret.errnum`. -/
def VFSReply.failure (ret : VFSReply) : Int := toInt (-ret.errnum)

theorem isInt_ENOSYS : IsInt ENOSYS := by decide

/-- What `doVFS` returns for a result that is not an object. -/
def VFSReply.noObject : VFSReply := ⟨ENOSYS, .undefined, isInt_ENOSYS⟩

/-- `Utf8Length ()`. -/
def utf8Length (text : List Str) : Nat := text.flatten.length

/-- The bytes that a `size_t count` leaves room for: `WriteUtf8` takes an `int`, and -1 is no limit. -/
def utf8Capacity (text : List Str) (count : Nat) : Nat :=
  if toInt count = -1 then utf8Length text + 1 else (toInt count).toNat

/-- `WriteUtf8 (buf, capacity, NULL, NO_NULL_TERMINATION)`: the characters that fit as a whole. -/
def writeUtf8 : List Str → Nat → Str
  | [], _ => []
  | c :: text, capacity =>
    if c.length ≤ capacity then c ++ writeUtf8 text (capacity - c.length) else []

/-- `WriteUtf8 (buf, capacity)`: with a NUL behind them if there is room. -/
def writeUtf8Nul (text : List Str) (capacity : Nat) : Str :=
  let written := writeUtf8 text capacity
  if written.length < capacity then written ++ [0] else written

/-- The bytes that `String::New (buf, count)` looks at. Its length is an `int` too: -1 stands for the
length up to a NUL, and nothing is read for what is less. -/
def stringData (buf : Buffer) (count : Nat) : Str :=
  if toInt count = -1 then ((List.range count).map buf).takeWhile (· ≠ 0)
  else (List.range (toInt count).toNat).map buf

/-- The names in the result of a `getdents`: `std::string` ends at a NUL. -/
def Value.names (v : Value) : List Str := v.elements.map fun text => text.flatten.takeWhile (· ≠ 0)

/-- The callback. `none` is a result that is not an object. No `getdents` is answered with names whose
records `DirentBuilder::append` cannot write. -/
class OnVFS (X : Type) where
  onVFS : VFSRequest → StateM X (Option VFSReply)
  encodable : ∀ fd x r, ((onVFS (.getdents fd)).run x).1 = some r →
    ∃ data, direntData r.result.names = .ok data

/-! ## The member functions -/

structure Node (X : Type) where
  /-- `m_offsets`. -/
  offsets : Std.ExtTreeMap Int Int
  js : X

abbrev NodeM (X : Type) := StateM (Node X)

variable {X : Type}

/-- `m_offsets[fd]`, without the insertion. -/
def Node.position (s : Node X) (fd : Int) : Int := s.offsets.getD fd 0

/-- `m_offsets[fd] = position`. -/
def Node.setPosition (s : Node X) (fd position : Int) : Node X :=
  { s with offsets := s.offsets.insert fd position }

/-- `bytes` written into a buffer at `off`. -/
def Buffer.putAt (buf : Buffer) (off : Nat) (bytes : Str) : Buffer := fun i =>
  if off ≤ i then bytes.getD (i - off) (buf i) else buf i

open LittleEndian in
/-- The ten assignments to a `struct stat` of x86-64. -/
def StatFields.fill (f : StatFields) (buf : Buffer) : Buffer :=
  let field (buf : Buffer) (off size : Nat) (n : Int) := buf.putAt off (toBytes size (toWord n).toNat)
  let buf := field buf 0 8 f.dev
  let buf := field buf 8 8 f.ino
  let buf := field buf 24 4 f.mode
  let buf := field buf 16 8 f.nlink
  let buf := field buf 28 4 f.uid
  let buf := field buf 32 4 f.gid
  let buf := field buf 40 8 f.rdev
  let buf := field buf 48 8 f.size
  let buf := field buf 56 8 f.blksize
  field buf 64 8 f.blocks

namespace CodiusNodeFilesystem

variable (doVFS : VFSRequest → NodeM X VFSReply)

def «open» (name : Str) (flags mode : Int) : NodeM X Int := do
  let ret ← doVFS (.open name flags mode)
  if ret.errnum ≠ 0 then return ret.failure
  else
    modify fun s => { s with offsets := s.offsets.insertIfNew ret.result.int32 0 }
    return ret.result.int32

def read (fd : Int) (buf : Buffer) (count : Nat) : NodeM X (Int × Buffer) := do
  modify fun s => s.setPosition fd (s.position fd)
  let s ← get
  let ret ← doVFS (.read fd (toInt count) (s.position fd))
  if ret.errnum ≠ 0 then return (ret.failure, buf)
  else
    modify fun s => s.setPosition fd (toInt (s.position fd + utf8Length ret.result.text))
    let written := writeUtf8 ret.result.text (utf8Capacity ret.result.text count)
    return (utf8Length ret.result.text, buf.putAt 0 written)

def close (fd : Int) : NodeM X Int := do
  modify fun s => { s with offsets := s.offsets.erase fd }
  let ret ← doVFS (.close fd)
  return ret.failure

/-- The body of `fstat`, `stat` and `lstat`. -/
def statWith (request : VFSRequest) (buf : Buffer) : NodeM X (Int × Buffer) := do
  let ret ← doVFS request
  if ret.errnum ≠ 0 then return (ret.failure, buf)
  else return (0, ret.result.stat.fill buf)

def fstat (fd : Int) (buf : Buffer) : NodeM X (Int × Buffer) := statWith doVFS (.fstat fd) buf

def stat (name : Str) (buf : Buffer) : NodeM X (Int × Buffer) := statWith doVFS (.stat name) buf

def lstat (name : Str) (buf : Buffer) : NodeM X (Int × Buffer) := statWith doVFS (.lstat name) buf

/-- No call of the callback. -/
def lseek (fd off whence : Int) : NodeM X Int := do
  if whence = SEEK_SET then
    modify fun s => s.setPosition fd (toInt off)
    return 0
  else if whence = SEEK_CUR then
    modify fun s => s.setPosition fd (toInt (s.position fd + off))
    return 0
  else return -ENOSYS

/-- Takes no count. -/
def getdents (fd : Int) (dirs : Buffer) : NodeM X (Except AppendFault (Int × Buffer)) := do
  let ret ← doVFS (.getdents fd)
  if ret.errnum ≠ 0 then return .ok (ret.failure, dirs)
  else return (direntData ret.result.names).map fun data => (toInt data.length, dirs.putAt 0 data)

def write (fd : Int) (buf : Buffer) (count : Nat) : NodeM X Int := do
  let ret ← doVFS (.write fd (stringData buf count))
  if ret.errnum ≠ 0 then return ret.failure
  else return ret.result.int32

def readlink (path : Str) (buf : Buffer) (bufsize : Nat) : NodeM X (Int × Buffer) := do
  let ret ← doVFS (.readlink path)
  if ret.errnum ≠ 0 then return (ret.failure, buf)
  else
    let written := writeUtf8Nul ret.result.text (utf8Capacity ret.result.text bufsize)
    return (utf8Length ret.result.text, buf.putAt 0 written)

def access (name : Str) (mode : Int) : NodeM X Int := do
  let ret ← doVFS (.access name mode)
  if ret.errnum ≠ 0 then return ret.failure
  else return ret.result.int32

end CodiusNodeFilesystem

@[simp] theorem Node.position_setPosition {s : Node X} {fd p : Int} : (s.setPosition fd p).position fd = p := by
  simp [Node.position, Node.setPosition, Std.ExtTreeMap.getD_eq_getD_getElem?]

/-- The position goes with the request, and is looked up again behind the reply. -/
theorem CodiusNodeFilesystem.read_eq (doVFS : VFSRequest → NodeM X VFSReply) (fd : Int) (buf : Buffer)
    (count : Nat) (s : Node X) :
    let w := doVFS (.read fd (toInt count) (s.position fd)) (s.setPosition fd (s.position fd))
    read doVFS fd buf count s =
      if w.1.errnum ≠ 0 then ((w.1.failure, buf), w.2)
      else (((utf8Length w.1.result.text : Int),
          buf.putAt 0 (writeUtf8 w.1.result.text (utf8Capacity w.1.result.text count))),
        w.2.setPosition fd (toInt (w.2.position fd + utf8Length w.1.result.text))) := by
  intro w
  have hw : doVFS (.read fd (toInt count) ((s.setPosition fd (s.position fd)).position fd))
      (s.setPosition fd (s.position fd)) = w := by rw [Node.position_setPosition]
  have hread : read doVFS fd buf count s = (if w.1.errnum ≠ 0 then pure (w.1.failure, buf) else do
      modify fun s => s.setPosition fd (toInt (s.position fd + utf8Length w.1.result.text))
      return ((utf8Length w.1.result.text : Int),
        buf.putAt 0 (writeUtf8 w.1.result.text (utf8Capacity w.1.result.text count))) :
        NodeM X (Int × Buffer)) w.2 := by
    rw [← hw]
    rfl
  rw [hread]
  by_cases herr : w.1.errnum ≠ 0
  · rw [if_pos herr, if_pos herr]
    rfl
  · rw [if_neg herr, if_neg herr]
    rfl

/-! ## The instance -/

/-- One object for each sandbox. -/
structure CodiusNodeFilesystem (X : Type) where
deriving DecidableEq

/-- `doVFS` (`node-filesystem.cpp:13`), where no other call comes before the reply. -/
def CodiusNodeFilesystem.doVFS [OnVFS X] (request : VFSRequest) : NodeM X VFSReply := fun s =>
  let reply := (OnVFS.onVFS request).run s.js
  (reply.1.getD .noObject, { s with js := reply.2 })

namespace CodiusNodeFilesystem

variable [OnVFS X]

/-- The records of every reply to a `getdents` can be written. -/
theorem doVFS_encodable (fd : Int) (s : Node X) :
    ∃ data, direntData (doVFS (.getdents fd) s).1.result.names = .ok data := by
  dsimp only [doVFS]
  cases h : ((OnVFS.onVFS (.getdents fd)).run s.js).1 with
  | none => exact ⟨[], rfl⟩
  | some r => exact OnVFS.encodable fd s.js r h

/-- What the callback replies to a `read`. -/
def readReply (fd : Int) (count : Nat) (s : Node X) : VFSReply :=
  (doVFS (.read fd (toInt count) (s.position fd)) s).1

/-- Without other calls the position is still the one that was requested. -/
theorem read_replied (fd : Int) (buf : Buffer) (count : Nat) (s : Node X) :
    read doVFS fd buf count s =
      if (readReply fd count s).errnum ≠ 0 then
        (((readReply fd count s).failure, buf),
          (doVFS (.read fd (toInt count) (s.position fd)) (s.setPosition fd (s.position fd))).2)
      else (((utf8Length (readReply fd count s).result.text : Int),
          buf.putAt 0 (writeUtf8 (readReply fd count s).result.text
            (utf8Capacity (readReply fd count s).result.text count))),
        ((doVFS (.read fd (toInt count) (s.position fd)) (s.setPosition fd (s.position fd))).2).setPosition fd
          (toInt (s.position fd + utf8Length (readReply fd count s).result.text))) := by
  have hread := read_eq doVFS fd buf count s
  have hreply : (doVFS (.read fd (toInt count) (s.position fd)) (s.setPosition fd (s.position fd))).1 =
      readReply fd count s := rfl
  have hpos : (doVFS (.read fd (toInt count) (s.position fd)) (s.setPosition fd (s.position fd))).2.position fd =
      s.position fd := Node.position_setPosition
  dsimp only at hread
  rwa [hreply, hpos] at hread

theorem getdents_returns (fd : Int) (dirs : Buffer) (s : Node X) :
    ∃ r, (getdents doVFS fd dirs s).1 = .ok r := by
  obtain ⟨data, hdata⟩ := doVFS_encodable fd s
  rw [getdents, Wp.state_bind]
  split
  · exact ⟨_, rfl⟩
  · exact ⟨_, congrArg (Except.map _) hdata⟩

end CodiusNodeFilesystem

/-- The result of what does not fail. -/
def okValue {ε α : Type} : (x : Except ε α) → (∃ a, x = .ok a) → α
  | .ok a, _ => a
  | .error _, h => False.elim (h.elim nofun)

/-- An operation of the object, as one of the interface: `errno` stays. -/
def onNode {α : Type} (op : NodeM X α) : StateM (Host (Node X)) α := fun h =>
  let (a, s) := op.run h.world
  (a, ⟨h.errno, s⟩)

open CodiusNodeFilesystem in
instance [OnVFS X] : Filesystem (CodiusNodeFilesystem X) (Node X) where
  fsOpen _ name flags mode := onNode (CodiusNodeFilesystem.open doVFS name flags mode)
  fsRead _ fd buf count := onNode (read doVFS fd buf count)
  fsClose _ fd := onNode (close doVFS fd)
  fsFstat _ fd buf := onNode (fstat doVFS fd buf)
  fsGetdents _ fd dirs _ := onNode fun s =>
    (okValue (getdents doVFS fd dirs s).1 (getdents_returns fd dirs s), (getdents doVFS fd dirs s).2)
  fsLseek _ fd off whence := onNode (lseek fd off whence)
  fsWrite _ fd buf count := onNode (write doVFS fd buf count)
  fsAccess _ name mode := onNode (access doVFS name mode)
  fsStat _ name buf := onNode (stat doVFS name buf)
  fsLstat _ name buf := onNode (lstat doVFS name buf)
  fsReadlink _ path buf bufsize := onNode (readlink doVFS path buf bufsize)

/-- The smallest callback: descriptor 3 for every `open`, and one reply to everything else. -/
structure Callback where
  reply : VFSReply
  encodable : ∃ data, direntData reply.result.names = .ok data

theorem isInt_zero : IsInt 0 := by decide

/-- The reply to an `open`. -/
def VFSReply.descriptor : VFSReply := ⟨0, { Value.undefined with int32 := 3 }, isInt_zero⟩

theorem undefined_encodable : ∃ data, direntData Value.undefined.names = .ok data := ⟨[], rfl⟩

/-- What `Callback` replies. -/
def Callback.answer (c : Callback) : VFSRequest → VFSReply
  | .open _ _ _ => .descriptor
  | _ => c.reply

instance : OnVFS Callback where
  onVFS request := fun c => (some (c.answer request), c)
  encodable _ c r hr := by
    cases hr
    exact c.encodable

end CodiusSandbox
