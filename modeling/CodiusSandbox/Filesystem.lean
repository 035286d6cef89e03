import CodiusSandbox.Ptrace
/-!
# The `Filesystem` interface (`filesystem.h:13-26`)

A mounted filesystem is an object of some type `F`; `W` is whatever its operations read and change
outside the tracer's own tables. An operation also sees and may set the global `errno`. Buffers are
handed in and come back as the operation left them.
-/
namespace CodiusSandbox

/-- What a filesystem operation works on. -/
structure Host (W : Type) where
  errno : Errno
  world : W

/-- `class Filesystem`. `int` and `ssize_t` results are integers. -/
class Filesystem (F : Type) (W : outParam Type) where
  fsOpen : F → Str → Int → Int → StateM (Host W) Int
  fsRead : F → Int → Buffer → Nat → StateM (Host W) (Int × Buffer)
  fsClose : F → Int → StateM (Host W) Int
  fsFstat : F → Int → Buffer → StateM (Host W) (Int × Buffer)
  fsGetdents : F → Int → Buffer → Nat → StateM (Host W) (Int × Buffer)
  fsLseek : F → Int → Int → Int → StateM (Host W) Int
  fsWrite : F → Int → Buffer → Nat → StateM (Host W) Int
  fsAccess : F → Str → Int → StateM (Host W) Int
  fsStat : F → Str → Buffer → StateM (Host W) (Int × Buffer)
  fsLstat : F → Str → Buffer → StateM (Host W) (Int × Buffer)
  fsReadlink : F → Str → Buffer → Nat → StateM (Host W) (Int × Buffer)

/-- One operation as the VFS asks for it. -/
inductive Request where
  | open (name : Str) (flags mode : Int)
  | read (fd : Int) (count : Nat)
  | close (fd : Int)
  | fstat (fd : Int)
  | getdents (fd : Int) (count : Nat)
  | lseek (fd offset whence : Int)
  | write (fd : Int) (count : Nat)
  | access (name : Str) (mode : Int)
  | stat (name : Str)
  | lstat (name : Str)
  | readlink (name : Str) (bufsize : Nat)
deriving DecidableEq, Repr

/-- The path a request is about, for the five operations that take one. -/
def Request.path? : Request → Option Str
  | .open name _ _ | .access name _ | .stat name | .lstat name | .readlink name _ => some name
  | _ => none

/-- A request together with the object it went to and what came back. -/
structure FsEvent (F : Type) where
  fs : F
  request : Request
  result : Int
deriving DecidableEq

/-- The smallest implementation: one answer to everything, and nothing changes. -/
structure Fixed where
  answer : Int
deriving DecidableEq

instance : Filesystem Fixed Unit where
  fsOpen f _ _ _ := pure f.answer
  fsRead f _ buf _ := pure (f.answer, buf)
  fsClose f _ := pure f.answer
  fsFstat f _ buf := pure (f.answer, buf)
  fsGetdents f _ buf _ := pure (f.answer, buf)
  fsLseek f _ _ _ := pure f.answer
  fsWrite f _ _ _ := pure f.answer
  fsAccess f _ _ := pure f.answer
  fsStat f _ buf := pure (f.answer, buf)
  fsLstat f _ buf := pure (f.answer, buf)
  fsReadlink f _ buf _ := pure (f.answer, buf)

end CodiusSandbox
