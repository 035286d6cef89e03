import CodiusSandbox.Filesystem
/-!
# The virtual filesystem layer (`vfs.cpp`, `vfs.h`)

| here | there |
| --- | --- |
| `File`                       | `class File` (`vfs.h:11-39`) |
| `VFS`                        | the tables of `class VFS` (`vfs.h:121-125`); `m_whitelist` never changes and is `whitelist` |
| `Tracer`                     | what a handler reads and writes: the tables, `File::s_nextFD`, the child's memory, `errno`, the filesystems, and the tracer memory it does not initialise |
| `VFS.getFilesystem`          | `VFS::getFilesystem` (`vfs.cpp:83`) |
| `doOpen`, …, `doReadlink`    | `VFS::do_open`, …, `VFS::do_readlink` |
| `handleSyscall`              | `VFS::handleSyscall` (`vfs.cpp:374`) |

`std::map` is `Std.ExtTreeMap`: the same order, and `insert` keeps an entry that is there. A
`File::Ptr` is the `File` itself, since no two tables share one: `do_fchdir`, the only function that
stores a pointer it read, is not in the dispatch of `handleSyscall`. `calls` is a ghost log of the
requests that reached a filesystem.
-/
namespace CodiusSandbox

open Wp

/-! ## State -/

structure File (F : Type) where
  localFD : Int
  virtualFD : Int
  path : Str
  fs : F
deriving DecidableEq

structure VFS (F : Type) where
  mountpoints : Std.ExtTreeMap Str F
  openFiles : Std.ExtTreeMap Int (File F)
  cwd : Option (File F)

structure Tracer (F W : Type) where
  vfs : VFS F
  /-- `File::s_nextFD`, shared by all VFS instances. -/
  nextFD : Int
  mem : Memory
  errno : Errno
  world : W
  /-- What the heap holds behind a fresh buffer. -/
  slack : List UInt8
  /-- What the stack holds where an automatic variable is placed. -/
  stack : Buffer
  /-- The largest block `operator new` still hands out. -/
  allocLimit : Nat
  calls : List (FsEvent F)

abbrev TracerM (F W : Type) := EStateM Crash (Tracer F W)

def firstVirtualFD : Int := 4096

/-- `VFS::isVirtualFD` (`vfs.h:88`). -/
def isVirtualFD (fd : Int) : Bool := fd ≥ firstVirtualFD

/-- `m_whitelist`, as the constructor fills it (`vfs.cpp:21-47`). -/
def whitelist : List Str :=
  ["/lib64/tls/x86_64/libc.so.6", "/lib64/tls/x86_64/libdl.so.2", "/lib64/tls/x86_64/librt.so.1",
   "/lib64/tls/x86_64/libpthread.so.0", "/lib64/tls/libc.so.6", "/lib64/tls/libdl.so.2",
   "/lib64/tls/librt.so.1", "/lib64/tls/libstdc++.so.6", "/lib64/tls/libm.so.6",
   "/lib64/tls/libgcc_s.so.1", "/lib64/tls/libpthread.so.0", "/lib64/x86_64/libc.so.6",
   "/lib64/x86_64/libdl.so.2", "/lib64/x86_64/librt.so.1", "/lib64/libc.so.6",
   "/lib64/libdl.so.2", "/lib64/librt.so.1", "/lib64/libgcc_s.so.1", "/lib64/libpthread.so.0",
   "/lib64/libstdc++.so.6", "/lib64/libm.so.6", "/etc/ld.so.cache", "/etc/ld.so.preload",
   "/proc/self/exe"].map str

/-- `VFS::isWhitelisted` (`vfs.cpp:469`). -/
def isWhitelisted (s : Str) : Bool := whitelist.contains s

variable {F W : Type}

/-- `VFS::VFS` (`vfs.cpp:18`): no mounts, no files, no current directory. -/
def VFS.empty : VFS F := ⟨∅, ∅, none⟩

/-- `VFS::mountFilesystem` (`vfs.cpp:51`). -/
def VFS.mountFilesystem (v : VFS F) (path : Str) (fs : F) : VFS F :=
  { v with mountpoints := v.mountpoints.insertIfNew path fs }

/-! ## `getFilesystem` -/

/-- The loop of `vfs.cpp:89-94`, over the table in the order of its keys. -/
def searchMounts : List (Str × F) → Str → Except Crash (Option (Str × F))
  | [], _ => .ok none
  | (mount, fs) :: rest, searchPath =>
    if mount.isPrefixOf searchPath then
      -- `substr` is given `size() - 1`, which is out of range for an empty mount path
      if mount = [] then .error .outOfRange
      else .ok (some (searchPath.drop (mount.length - 1), fs))
    else searchMounts rest searchPath

/-- `VFS::getFilesystem`: the local path and the filesystem, `none` for the null filesystem. -/
def VFS.getFilesystem (v : VFS F) (path : Str) : Except Crash (Option (Str × F)) :=
  if path.head? = some dot then
    match v.cwd with
    | some cwd => searchMounts v.mountpoints.toList (cwd.path ++ path)
    | none => .error .nullDeref
  else searchMounts v.mountpoints.toList path

def getFilesystem (path : Str) : TracerM F W (Option (Str × F)) := fun s =>
  match s.vfs.getFilesystem path with
  | .ok r => .ok r s
  | .error e => .error e s

/-! ## Buffers and memory -/

/-- A `ptrace` helper of `Sandbox`. -/
def ptrace {α : Type} (x : PtraceM α) : TracerM F W α := fun s =>
  match x ⟨s.mem, s.errno⟩ with
  | .ok a p => .ok a { s with mem := p.mem, errno := p.errno }
  | .error e p => .error e { s with mem := p.mem, errno := p.errno }

/-- `std::vector<char>::max_size ()`. -/
def vectorMaxSize : Nat := 2 ^ 63 - 1

/-- `n` zero bytes and the heap behind them. -/
def zeroed (n : Nat) (slack : List UInt8) : Buffer := fun i =>
  if i < n then 0 else slack.getD (i - n) 0

/-- `std::vector<char> buf (n)`. -/
def newVector (n : Nat) : TracerM F W Buffer := do
  let s ← get
  if n > vectorMaxSize then throw .lengthError
  else if n > s.allocLimit then throw .badAlloc
  else return zeroed n s.slack

/-- `writeData` from a vector of `size` bytes. An empty one has no storage: its `data ()` is null. -/
def writeVector (addr : Address) (length : Nat) (buf : Buffer) (size : Nat) : TracerM F W Bool := do
  if size = 0 ∧ length ≠ 0 then throw .nullDeref
  else ptrace (writeData addr length buf)

/-- `VFS::getFilename` (`vfs.cpp:57`). -/
def getFilename (addr : Address) : TracerM F W Str := do
  let s ← get
  let (buf, _) ← ptrace (copyString addr 1024 (zeroed 1024 s.slack))
  return cString buf 1024 s.slack

/-! ## Files -/

/-- A call of a virtual function of `Filesystem`, logged. -/
def fsCall {α : Type} (fs : F) (request : Request) (result : α → Int) (op : StateM (Host W) α) :
    TracerM F W α := fun s =>
  let (a, h) := op.run ⟨s.errno, s.world⟩
  .ok a { s with
    errno := h.errno
    world := h.world
    calls := s.calls ++ [⟨fs, request, result a⟩] }

/-- `File::File` (`vfs.cpp:100`). -/
def newFile (localFD : Int) (path : Str) (fs : F) : TracerM F W (File F) := do
  let s ← get
  set { s with nextFD := succInt s.nextFD }
  return ⟨localFD, s.nextFD, path, fs⟩

/-- `VFS::makeFile` (`vfs.cpp:159`). -/
def makeFile (fd : Int) (path : Str) (fs : F) : TracerM F W (File F) := do
  let f ← newFile fd path fs
  modify fun s => { s with vfs := { s.vfs with openFiles := s.vfs.openFiles.insertIfNew f.virtualFD f } }
  return f

/-- `VFS::getFile` (`vfs.cpp:65`); the null pointer of `vfs.h:76` is never returned. -/
def getFile (fd : Int) : TracerM F W (Option (File F)) := do
  let s ← get
  if isVirtualFD fd = false then throw .assertion
  else match s.vfs.openFiles[fd]? with
    | some f => return some f
    | none => throw .outOfRange

variable [Filesystem F W]

/-- `File::close` (`vfs.cpp:72`): the result and the File it leaves. -/
def File.close (f : File F) : TracerM F W (Int × File F) :=
  if f.localFD > 0 then do
    let ret ← fsCall f.fs (.close f.localFD) id (Filesystem.fsClose f.fs f.localFD)
    return (ret, { f with localFD := -1 })
  else return (-EBADF, f)

/-- `File::~File` (`vfs.cpp:153`). -/
def File.destroy (f : File F) : TracerM F W Unit := do
  let _ ← f.close
  return ()

def File.read (f : File F) (buf : Buffer) (count : Nat) : TracerM F W (Int × Buffer) :=
  fsCall f.fs (.read f.localFD count) Prod.fst (Filesystem.fsRead f.fs f.localFD buf count)

def File.fstat (f : File F) (buf : Buffer) : TracerM F W (Int × Buffer) :=
  fsCall f.fs (.fstat f.localFD) Prod.fst (Filesystem.fsFstat f.fs f.localFD buf)

def File.getdents (f : File F) (dirs : Buffer) (count : Nat) : TracerM F W (Int × Buffer) :=
  fsCall f.fs (.getdents f.localFD count) Prod.fst (Filesystem.fsGetdents f.fs f.localFD dirs count)

def File.lseek (f : File F) (offset whence : Int) : TracerM F W Int :=
  fsCall f.fs (.lseek f.localFD offset whence) id (Filesystem.fsLseek f.fs f.localFD offset whence)

def File.write (f : File F) (buf : Buffer) (count : Nat) : TracerM F W Int :=
  fsCall f.fs (.write f.localFD count) id (Filesystem.fsWrite f.fs f.localFD buf count)

/-! ## Handlers -/

/-- `call.id = -1` and a return value. -/
def SyscallCall.answer (call : SyscallCall) (returnVal : Word) : SyscallCall :=
  { call with id := toWord (-1), returnVal := returnVal }

/-- `sizeof (struct stat)`. -/
def sizeofStat : Nat := 144

/-- `VFS::openFile` (`vfs.cpp:182`). -/
def openFile (call : SyscallCall) (fname : Str) (flags mode : Int) : TracerM F W SyscallCall := do
  if isWhitelisted fname then return call
  else match ← getFilesystem fname with
    | some (path, fs) =>
      let fd ← fsCall fs (.open path flags mode) id (Filesystem.fsOpen fs path flags mode)
      if fd ≠ 0 then
        let s ← get
        let file ← makeFile fd fname fs
        -- `insert` keeps a File that has the number, and then nothing else holds the new one
        if file.virtualFD ∈ s.vfs.openFiles then file.destroy
        return call.answer (toWord file.virtualFD)
      else
        let s ← get
        return call.answer (toWord (-s.errno))
    | none => return call.answer (toWord (-ENOENT))

/-- `VFS::do_open` (`vfs.cpp:202`). -/
def doOpen (call : SyscallCall) : TracerM F W SyscallCall := do
  let fname ← getFilename (call.args 0)
  openFile call fname (asInt (call.args 1)) (asInt (call.args 2))

/-- The name `do_openat` goes on with (`vfs.cpp:138-147`): behind the directory's path, with
nothing in between. -/
def openatName (dirfd : Word) (fname : Str) : TracerM F W Str := do
  if fname.head? = some slash then return fname
  else if dirfd = toWord AT_FDCWD then
    let s ← get
    match s.vfs.cwd with
    | some cwd => return cwd.path ++ fname
    | none => throw .nullDeref
  else if isVirtualFD (asInt dirfd) then
    match ← getFile (asInt dirfd) with
    | some file => return file.path ++ fname
    | none => throw .nullDeref
  else return [] ++ fname

/-- `VFS::do_openat` (`vfs.cpp:134`). -/
def doOpenat (call : SyscallCall) : TracerM F W SyscallCall := do
  let fname ← getFilename (call.args 1)
  let fname ← openatName (call.args 0) fname
  openFile call fname (asInt (call.args 2)) (asInt (call.args 3))

/-- `VFS::do_close` (`vfs.cpp:227`). The File goes away with the last reference, at the end. -/
def doClose (call : SyscallCall) : TracerM F W SyscallCall := do
  if isVirtualFD (asInt (call.args 0)) then
    match ← getFile (asInt (call.args 0)) with
    | some fh =>
      let (ret, fh) ← fh.close
      modify fun s => { s with vfs := { s.vfs with openFiles := s.vfs.openFiles.erase fh.virtualFD } }
      fh.destroy
      return call.answer (toWord ret)
    | none => return call.answer (toWord (-EBADF))
  else return call

/-- `VFS::do_read` (`vfs.cpp:248`). -/
def doRead (call : SyscallCall) : TracerM F W SyscallCall := do
  if isVirtualFD (asInt (call.args 0)) then
    let file ← getFile (asInt (call.args 0))
    let buf ← newVector (call.args 2).toNat
    match file with
    | some file =>
      let (readCount, buf) ← file.read buf (call.args 2).toNat
      if readCount ≥ 0 then
        let _ ← writeVector (call.args 1) (toWord readCount).toNat buf (call.args 2).toNat
        return call.answer (toWord readCount)
      else
        let s ← get
        return call.answer (toWord (-s.errno))
    | none => return call.answer (toWord (-EBADF))
  else return call

/-- `VFS::do_fstat` (`vfs.cpp:275`). -/
def doFstat (call : SyscallCall) : TracerM F W SyscallCall := do
  if isVirtualFD (asInt (call.args 0)) then
    match ← getFile (asInt (call.args 0)) with
    | some file =>
      let s ← get
      let (ret, sbuf) ← file.fstat s.stack
      if toWord ret = 0 then
        let _ ← ptrace (writeData (call.args 1) sizeofStat sbuf)
      return call.answer (toWord ret)
    | none => return call.answer (toWord (-EBADF))
  else return call

/-- `VFS::do_write` (`vfs.cpp:298`), which has no branch for a null File. -/
def doWrite (call : SyscallCall) : TracerM F W SyscallCall := do
  if isVirtualFD (asInt (call.args 0)) then
    match ← getFile (asInt (call.args 0)) with
    | some file =>
      let buf ← newVector (call.args 2).toNat
      let (buf, _) ← ptrace (copyData (call.args 1) (call.args 2).toNat buf)
      let ret ← file.write buf (call.args 2).toNat
      return call.answer (toWord ret)
    | none => return { call with id := toWord (-1) }
  else return call

/-- `VFS::do_getdents` (`vfs.cpp:312`). The count passes through an `unsigned int`. -/
def doGetdents (call : SyscallCall) : TracerM F W SyscallCall := do
  if isVirtualFD (asInt (call.args 0)) then
    match ← getFile (asInt (call.args 0)) with
    | some file =>
      let buf ← newVector (call.args 2).toNat
      let (ret, buf) ← file.getdents buf ((call.args 2).toNat % 2 ^ 32)
      if asInt (toWord ret) > 0 then
        let _ ← writeVector (call.args 1) (toWord ret).toNat buf (call.args 2).toNat
      return call.answer (toWord ret)
    | none => return call.answer (toWord (-EBADF))
  else return call

/-- `VFS::do_lseek` (`vfs.cpp:455`). -/
def doLseek (call : SyscallCall) : TracerM F W SyscallCall := do
  if isVirtualFD (asInt (call.args 0)) then
    match ← getFile (asInt (call.args 0)) with
    | some file =>
      let ret ← file.lseek (asOff (call.args 1)) (asInt (call.args 2))
      return call.answer (toWord ret)
    | none => return call.answer (toWord (-EBADF))
  else return call

/-- `VFS::do_access` (`vfs.cpp:167`). -/
def doAccess (call : SyscallCall) : TracerM F W SyscallCall := do
  let fname ← getFilename (call.args 0)
  if isWhitelisted fname then return call
  else match ← getFilesystem fname with
    | some (path, fs) =>
      let ret ← fsCall fs (.access path (asInt (call.args 1))) id
        (Filesystem.fsAccess fs path (asInt (call.args 1)))
      return call.answer (toWord ret)
    | none => return call.answer (toWord (-ENOENT))

/-- The body `do_stat` and `do_lstat` share (`vfs.cpp:419-452`), which hands the filesystem the name
as the child gave it, not the local path. -/
def statWith (request : Str → Request) (op : F → Str → Buffer → StateM (Host W) (Int × Buffer))
    (call : SyscallCall) : TracerM F W SyscallCall := do
  let fname ← getFilename (call.args 0)
  if isWhitelisted fname then return call
  else match ← getFilesystem fname with
    | some (_, fs) =>
      let s ← get
      let (ret, sbuf) ← fsCall fs (request fname) Prod.fst (op fs fname s.stack)
      if toWord ret = 0 then
        let _ ← ptrace (writeData (call.args 1) sizeofStat sbuf)
      return call.answer (toWord ret)
    | none => return call.answer (toWord (-ENOENT))

/-- `VFS::do_stat` (`vfs.cpp:437`). -/
def doStat (call : SyscallCall) : TracerM F W SyscallCall :=
  statWith .stat Filesystem.fsStat call

/-- `VFS::do_lstat` (`vfs.cpp:419`). -/
def doLstat (call : SyscallCall) : TracerM F W SyscallCall :=
  statWith .lstat Filesystem.fsLstat call

/-- `VFS::do_readlink` (`vfs.cpp:117`). The length written is the minimum of two `size_t`. -/
def doReadlink (call : SyscallCall) : TracerM F W SyscallCall := do
  let fname ← getFilename (call.args 0)
  if isWhitelisted fname then return call
  else match ← getFilesystem fname with
    | some (path, fs) =>
      let buf ← newVector (call.args 2).toNat
      let (ret, buf) ← fsCall fs (.readlink path (call.args 2).toNat) Prod.fst
        (Filesystem.fsReadlink fs path buf (call.args 2).toNat)
      let _ ← writeVector (call.args 1) (min (call.args 2).toNat (toWord ret).toNat) buf (call.args 2).toNat
      return call.answer (toWord ret)
    | none => return call.answer (toWord (-ENOENT))

/-! ## The current directory -/

/-- `VFS::getCWD` (`vfs.cpp:349`). -/
def getCWD : TracerM F W Str := do
  let s ← get
  match s.vfs.cwd with
  | some cwd => return cwd.path
  | none => throw .assertion

/-- `fname` without a trailing slash (`vfs.cpp:358-360`). The byte before an empty string belongs to its length and
is no slash. -/
def trimSlash (fname : Str) : Str :=
  if fname.getLast? = some slash then fname.dropLast else fname

/-- `VFS::setCWD` (`vfs.cpp:356`). The File of the old directory goes away with the assignment. -/
def setCWD (fname : Str) : TracerM F W Int := do
  match ← getFilesystem (trimSlash fname) with
  | some (path, fs) =>
    let fd ← fsCall fs (.open path O_DIRECTORY 0) id (Filesystem.fsOpen fs path O_DIRECTORY 0)
    let file ← newFile fd (trimSlash fname) fs
    let s ← get
    set { s with vfs := { s.vfs with cwd := some file } }
    match s.vfs.cwd with
    | some old => old.destroy
    | none => pure ()
    return 0
  | none => return -ENOENT

/-- `VFS::do_chdir` (`vfs.cpp:342`). -/
def doChdir (call : SyscallCall) : TracerM F W SyscallCall := do
  let fname ← getFilename (call.args 0)
  let ret ← setCWD fname
  return { call with returnVal := toWord ret }

/-- `VFS::do_getcwd` (`vfs.cpp:411`). -/
def doGetcwd (call : SyscallCall) : TracerM F W SyscallCall := do
  let cwd ← getCWD
  let _ ← ptrace (writeData (call.args 0) (min (call.args 1).toNat cwd.length) fun i => cwd.getD i 0)
  return { call with returnVal := BitVec.ofNat 64 cwd.length }

/-! ## Dispatch -/

/-- `VFS::handleSyscall` (`vfs.cpp:374`). -/
def handleSyscall (call : SyscallCall) : TracerM F W SyscallCall :=
  if call.id = SYS_open then doOpen call
  else if call.id = SYS_close then doClose call
  else if call.id = SYS_read then doRead call
  else if call.id = SYS_fstat then doFstat call
  else if call.id = SYS_getdents then doGetdents call
  else if call.id = SYS_openat then doOpenat call
  else if call.id = SYS_lseek then doLseek call
  else if call.id = SYS_write then doWrite call
  else if call.id = SYS_access then doAccess call
  else if call.id = SYS_chdir then doChdir call
  else if call.id = SYS_stat then doStat call
  else if call.id = SYS_lstat then doLstat call
  else if call.id = SYS_getcwd then doGetcwd call
  else if call.id = SYS_readlink then doReadlink call
  else return call

end CodiusSandbox
