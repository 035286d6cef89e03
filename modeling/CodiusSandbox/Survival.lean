import CodiusSandbox.VfsProofs
/-!
# When a handler returns, and under which number

`Completes σ call` says in terms of the call, the child's memory, the tables and what the filesystem
answers when `handleSyscall` returns at all; `answerId σ call` is the syscall number it then returns
the call with. `returns_handleSyscall` proves both at once, handler by handler.

What can end the tracer: a path or buffer address that is not mapped (`assert (errno == 0)` in
`peekData`), a mount at the empty path, a relative name while there is no current directory, a
descriptor that is virtual but not open (`std::map::at`), a count no vector can have, bytes for a
vector without any (`data ()` is null), and `getcwd` without a current directory.

`read` and `getdents` take the length of what they copy from the filesystem. Where that, or what the
filesystem stores, is not within the vector, the tracer goes on outside of its objects and nothing is
known of it: a call `Survives` if it completes and is `Contained`. The rest of a word, which `copyData`
puts behind the vector of `do_write`, is not counted.
-/
namespace CodiusSandbox

open Wp

variable {F W : Type}

/-- Looking up `n` goes well, and so does what is done with the filesystem found. -/
def LookupCompletes (σ : Tracer F W) (n : Str) (after : Str → F → Prop) : Prop :=
  isWhitelisted n = false →
    Resolvable σ.vfs n ∧ ∀ path fs, σ.vfs.getFilesystem n = .ok (some (path, fs)) → after path fs

/-- The same for the path at `addr`. -/
def PathCompletes (σ : Tracer F W) (addr : Address) (after : Str → F → Prop) : Prop :=
  Readable σ.mem addr 1024 ∧ LookupCompletes σ (σ.nameAt addr) after

/-- `fd` is not virtual, or it is open and what is done with the file goes well. -/
def FdCompletes (σ : Tracer F W) (fd : Int) (after : File F → Prop) : Prop :=
  isVirtualFD fd = true → ∃ f, σ.vfs.openFiles[fd]? = some f ∧ after f

/-- The name `do_openat` opens, if it gets that far. -/
def openatTarget (v : VFS F) (dirfd : Word) (n : Str) : Option Str :=
  if n.head? = some slash then some n
  else if dirfd = toWord AT_FDCWD then v.cwd.map fun c => c.path ++ n
  else if isVirtualFD (asInt dirfd) then v.openFiles[asInt dirfd]?.map fun f => f.path ++ n
  else some n

/-- The number of a call whose path is `n`. -/
def pathId (call : SyscallCall) (n : Str) : Word :=
  if isWhitelisted n then call.id else toWord (-1)

/-- The number of a call on descriptor `fd`. -/
def fdId (call : SyscallCall) (fd : Int) : Word :=
  if isVirtualFD fd then toWord (-1) else call.id

/-! ## What handlers share -/

section
variable {P : Word → Prop} {call : SyscallCall} {σ : Tracer F W}

theorem returns_getFilename {Q : Str → Tracer F W → Prop} {addr : Address} :
    Returns (getFilename addr) Q σ ↔
      Readable σ.mem addr 1024 ∧ Q (σ.nameAt addr) { σ with errno := 0 } := by
  unfold Returns
  rw [wp_getFilename]
  by_cases h : Readable σ.mem addr 1024
  · simp only [h, true_implies, not_true, false_implies, and_true, true_and]
  · simp only [h, not_false_iff, true_implies, false_implies, and_false, false_and]

/-- What the handlers of path calls share: a whitelisted name is left to the kernel, any other is
looked up and answered. -/
theorem returns_lookup {n : Str} {k : Option (Str × F) → TracerM F W SyscallCall}
    {after : Str → F → Prop} (hnone : Returns (k none) (fun r _ => P r.id) σ ↔ P (toWord (-1)))
    (hsome : ∀ path fs, Returns (k (some (path, fs))) (fun r _ => P r.id) σ ↔
      after path fs ∧ P (toWord (-1))) :
    Returns (if isWhitelisted n then pure call else getFilesystem n >>= k) (fun r _ => P r.id) σ ↔
      LookupCompletes σ n after ∧ P (pathId call n) := by
  unfold LookupCompletes pathId
  cases hw : isWhitelisted n with
  | true => simp
  | false =>
    simp only [Bool.false_eq_true, if_false, returns_bind, true_implies, returns_getFilesystem]
    constructor
    · rintro ⟨r, hr, hk⟩
      refine ⟨⟨getFilesystem_ok_iff.1 ⟨r, hr⟩, fun path fs h => ?_⟩, ?_⟩
      · rw [hr, Except.ok.injEq] at h
        subst h
        exact ((hsome path fs).1 hk).1
      · rcases r with _ | ⟨path, fs⟩
        · exact hnone.1 hk
        · exact ((hsome path fs).1 hk).2
    · rintro ⟨⟨hr, hafter⟩, hp⟩
      obtain ⟨r, hr⟩ := getFilesystem_ok_iff.2 hr
      refine ⟨r, hr, ?_⟩
      rcases r with _ | ⟨path, fs⟩
      · exact hnone.2 hp
      · exact (hsome path fs).2 ⟨hafter path fs hr, hp⟩

/-- A write to the child and the answer behind it. -/
theorem returns_writeAnswer {addr : Address} {length : Nat} {buf : Buffer} {w : Word}
    {Q : Bool → Tracer F W → Prop} (hl : length < 2 ^ 64)
    (hQ : ∀ b t, Q b t ↔ Returns (pure (call.answer w) : TracerM F W SyscallCall) (fun r _ => P r.id) t) :
    Returns (ptrace (writeData addr length buf)) Q σ ↔
      TailMapped σ.mem addr length ∧ P (toWord (-1)) :=
  returns_writeData hl fun _ _ _ => (hQ _ _).trans Iff.rfl

theorem returns_vectorAnswer {addr : Address} {length size : Nat} {buf : Buffer} {w : Word}
    {Q : Bool → Tracer F W → Prop} (hl : length < 2 ^ 64)
    (hQ : ∀ b t, Q b t ↔ Returns (pure (call.answer w) : TracerM F W SyscallCall) (fun r _ => P r.id) t) :
    Returns (writeVector addr length buf size) Q σ ↔
      ((size = 0 → length = 0) ∧ TailMapped σ.mem addr length) ∧ P (toWord (-1)) :=
  returns_writeVector hl fun _ _ _ => (hQ _ _).trans Iff.rfl

theorem returns_ite_write {c : Prop} [Decidable c] {addr : Address} {length : Nat} {buf : Buffer}
    {w : Word} (hl : length < 2 ^ 64) :
    Returns (if c then ptrace (writeData addr length buf) >>= fun _ => pure (call.answer w)
      else pure (call.answer w)) (fun r _ => P r.id) σ ↔
      (c → TailMapped σ.mem addr length) ∧ P (toWord (-1)) := by
  by_cases hc : c
  · simp only [hc, if_true, returns_bind, true_implies]
    exact returns_writeAnswer hl fun _ _ => Iff.rfl
  · simp only [hc, if_false, false_implies, true_and]
    rfl

theorem returns_getFile {Q : Option (File F) → Tracer F W → Prop} {fd : Int}
    (hv : isVirtualFD fd = true) :
    Returns (getFile fd) Q σ ↔ ∃ f, σ.vfs.openFiles[fd]? = some f ∧ Q (some f) σ := by
  unfold Returns
  rw [wp_getFile hv]
  cases σ.vfs.openFiles[fd]? <;> simp

/-- What the handlers of descriptor calls share: one that is not virtual is left to the kernel. -/
theorem returns_fd {fd : Int} {k : Option (File F) → TracerM F W SyscallCall}
    {after : File F → Prop} (hk : ∀ f, Returns (k (some f)) (fun r _ => P r.id) σ ↔
      after f ∧ P (toWord (-1))) :
    Returns (if isVirtualFD fd then getFile fd >>= k else pure call) (fun r _ => P r.id) σ ↔
      FdCompletes σ fd after ∧ P (fdId call fd) := by
  unfold FdCompletes fdId
  cases hv : isVirtualFD fd with
  | false => simp
  | true =>
    simp only [if_true, true_implies, returns_bind, returns_getFile hv, hk]
    constructor
    · rintro ⟨f, hf, ha, hp⟩; exact ⟨⟨f, hf, ha⟩, hp⟩
    · rintro ⟨⟨f, hf, ha⟩, hp⟩; exact ⟨f, hf, ha, hp⟩

theorem returns_switch {c : Prop} [Decidable c] {x y : TracerM F W SyscallCall} {a b : Prop}
    {v w : Word} (hx : Returns x (fun r _ => P r.id) σ ↔ a ∧ P v)
    (hy : Returns y (fun r _ => P r.id) σ ↔ b ∧ P w) :
    Returns (if c then x else y) (fun r _ => P r.id) σ ↔
      (if c then a else b) ∧ P (if c then v else w) := by
  by_cases hc : c
  · simpa only [hc, if_true] using hx
  · simpa only [hc, if_false] using hy

end

theorem toNat_ne_zero_of_asInt {w : Word} (h : asInt w > 0) : w.toNat ≠ 0 := by
  intro h0
  have hw : w = 0 := BitVec.eq_of_toNat_eq h0
  rw [hw] at h
  exact absurd h (by decide)

/-! ## The calls -/

section
variable [Filesystem F W]

/-- What a filesystem answers in state `σ`. -/
def Tracer.replyTo {α : Type} (σ : Tracer F W) (op : StateM (Host W) α) : α :=
  (op.run ⟨σ.errno, σ.world⟩).1

/-- What a filesystem answers once the path has been read, which leaves `errno` 0. -/
def Tracer.replyToPath {α : Type} (σ : Tracer F W) (op : StateM (Host W) α) : α :=
  (op.run ⟨0, σ.world⟩).1

def StatCompletes (σ : Tracer F W) (call : SyscallCall)
    (op : F → Str → Buffer → StateM (Host W) (Int × Buffer)) : Prop :=
  PathCompletes σ (call.args 0) fun _ fs =>
    toWord (σ.replyToPath (op fs (σ.nameAt (call.args 0)) σ.stack)).1 = 0 →
      TailMapped σ.mem (call.args 1) sizeofStat

def ReadlinkCompletes (σ : Tracer F W) (call : SyscallCall) : Prop :=
  PathCompletes σ (call.args 0) fun path fs =>
    let n := (call.args 2).toNat
    Fits σ n ∧ TailMapped σ.mem (call.args 1)
      (min n (toWord (σ.replyToPath (Filesystem.fsReadlink fs path (zeroed n σ.slack) n)).1).toNat)

def ReadCompletes (σ : Tracer F W) (call : SyscallCall) : Prop :=
  FdCompletes σ (asInt (call.args 0)) fun f =>
    let n := (call.args 2).toNat
    let r := (σ.replyTo (Filesystem.fsRead f.fs f.localFD (zeroed n σ.slack) n)).1
    Fits σ n ∧ (r ≥ 0 → (n = 0 → (toWord r).toNat = 0) ∧ TailMapped σ.mem (call.args 1) (toWord r).toNat)

def FstatCompletes (σ : Tracer F W) (call : SyscallCall) : Prop :=
  FdCompletes σ (asInt (call.args 0)) fun f =>
    toWord (σ.replyTo (Filesystem.fsFstat f.fs f.localFD σ.stack)).1 = 0 →
      TailMapped σ.mem (call.args 1) sizeofStat

def GetdentsCompletes (σ : Tracer F W) (call : SyscallCall) : Prop :=
  FdCompletes σ (asInt (call.args 0)) fun f =>
    let n := (call.args 2).toNat
    let r := (σ.replyTo (Filesystem.fsGetdents f.fs f.localFD (zeroed n σ.slack) (n % 2 ^ 32))).1
    Fits σ n ∧ (asInt (toWord r) > 0 → n ≠ 0 ∧ TailMapped σ.mem (call.args 1) (toWord r).toNat)

def WriteCompletes (σ : Tracer F W) (call : SyscallCall) : Prop :=
  FdCompletes σ (asInt (call.args 0)) fun _ =>
    Fits σ (call.args 2).toNat ∧ WordsMapped σ.mem (call.args 1) (call.args 2).toNat

def OpenatCompletes (σ : Tracer F W) (call : SyscallCall) : Prop :=
  Readable σ.mem (call.args 1) 1024 ∧
    ∃ n, openatTarget σ.vfs (call.args 0) (σ.nameAt (call.args 1)) = some n ∧
      LookupCompletes σ n fun _ _ => True

def ChdirCompletes (σ : Tracer F W) (call : SyscallCall) : Prop :=
  Readable σ.mem (call.args 0) 1024 ∧ Resolvable σ.vfs (trimSlash (σ.nameAt (call.args 0)))

def GetcwdCompletes (σ : Tracer F W) (call : SyscallCall) : Prop :=
  ∃ c, σ.vfs.cwd = some c ∧
    TailMapped σ.mem (call.args 0) (min (call.args 1).toNat c.path.length)

/-- `handleSyscall` returns. -/
def Completes (σ : Tracer F W) (call : SyscallCall) : Prop :=
  if call.id = SYS_open then PathCompletes σ (call.args 0) fun _ _ => True
  else if call.id = SYS_close then FdCompletes σ (asInt (call.args 0)) fun _ => True
  else if call.id = SYS_read then ReadCompletes σ call
  else if call.id = SYS_fstat then FstatCompletes σ call
  else if call.id = SYS_getdents then GetdentsCompletes σ call
  else if call.id = SYS_openat then OpenatCompletes σ call
  else if call.id = SYS_lseek then FdCompletes σ (asInt (call.args 0)) fun _ => True
  else if call.id = SYS_write then WriteCompletes σ call
  else if call.id = SYS_access then PathCompletes σ (call.args 0) fun _ _ => True
  else if call.id = SYS_chdir then ChdirCompletes σ call
  else if call.id = SYS_stat then StatCompletes σ call Filesystem.fsStat
  else if call.id = SYS_lstat then StatCompletes σ call Filesystem.fsLstat
  else if call.id = SYS_getcwd then GetcwdCompletes σ call
  else if call.id = SYS_readlink then ReadlinkCompletes σ call
  else True

/-- The operation leaves alone what is behind the `n` bytes it is handed, whatever that is. -/
def StaysWithin (n : Nat) (op : Buffer → StateM (Host W) (Int × Buffer)) (h : Host W) : Prop :=
  ∀ buf i, n ≤ i → ((op buf).run h).1.2 i = buf i

/-- The filesystem of an open file keeps to the vector, and what is copied of it is in it. -/
def FdContained (σ : Tracer F W) (call : SyscallCall) (op : File F → Buffer → StateM (Host W) (Int × Buffer))
    (copied : Int → Nat) : Prop :=
  let n := (call.args 2).toNat
  isVirtualFD (asInt (call.args 0)) = true → ∀ f, σ.vfs.openFiles[asInt (call.args 0)]? = some f →
    StaysWithin n (op f) ⟨σ.errno, σ.world⟩ ∧ copied (σ.replyTo (op f (zeroed n σ.slack))).1 ≤ n

/-- No vector that is handed to a filesystem is left. -/
def Contained (σ : Tracer F W) (call : SyscallCall) : Prop :=
  let n := (call.args 2).toNat
  if call.id = SYS_read then
    FdContained σ call (fun f buf => Filesystem.fsRead f.fs f.localFD buf n)
      fun r => if r ≥ 0 then (toWord r).toNat else 0
  else if call.id = SYS_getdents then
    FdContained σ call (fun f buf => Filesystem.fsGetdents f.fs f.localFD buf (n % 2 ^ 32))
      fun r => if asInt (toWord r) > 0 then (toWord r).toNat else 0
  else True

def Survives (σ : Tracer F W) (call : SyscallCall) : Prop := Completes σ call ∧ Contained σ call

/-- The number `handleSyscall` returns the call with. -/
def answerId (σ : Tracer F W) (call : SyscallCall) : Word :=
  if call.id = SYS_open then pathId call (σ.nameAt (call.args 0))
  else if call.id = SYS_close then fdId call (asInt (call.args 0))
  else if call.id = SYS_read then fdId call (asInt (call.args 0))
  else if call.id = SYS_fstat then fdId call (asInt (call.args 0))
  else if call.id = SYS_getdents then fdId call (asInt (call.args 0))
  else if call.id = SYS_openat then
    pathId call ((openatTarget σ.vfs (call.args 0) (σ.nameAt (call.args 1))).getD [])
  else if call.id = SYS_lseek then fdId call (asInt (call.args 0))
  else if call.id = SYS_write then fdId call (asInt (call.args 0))
  else if call.id = SYS_access then pathId call (σ.nameAt (call.args 0))
  else if call.id = SYS_chdir then call.id
  else if call.id = SYS_stat then pathId call (σ.nameAt (call.args 0))
  else if call.id = SYS_lstat then pathId call (σ.nameAt (call.args 0))
  else if call.id = SYS_getcwd then call.id
  else if call.id = SYS_readlink then pathId call (σ.nameAt (call.args 0))
  else call.id

/-! ## The path calls -/

variable {P : Word → Prop} {call : SyscallCall} {σ : Tracer F W}

/-- `t` has the tables of `σ`. -/
structure Tracer.SameTables (σ t : Tracer F W) : Prop where
  vfs : t.vfs = σ.vfs
  nextFD : t.nextFD = σ.nextFD

theorem close_run (f : File F) (σ : Tracer F W) :
    ∃ a t, f.close σ = .ok a t ∧ a.2.virtualFD = f.virtualFD ∧ σ.SameTables t := by
  unfold File.close
  split
  · exact ⟨_, _, rfl, rfl, rfl, rfl⟩
  · exact ⟨_, _, rfl, rfl, rfl, rfl⟩

theorem destroy_run (f : File F) (σ : Tracer F W) : ∃ t, f.destroy σ = .ok () t ∧ σ.SameTables t := by
  obtain ⟨a, t, h, _, ht⟩ := close_run f σ
  exact ⟨t, by rw [File.destroy, bind_ok h]; rfl, ht⟩

omit [Filesystem F W] in
theorem newFile_run (localFD : Int) (path : Str) (fs : F) (σ : Tracer F W) :
    newFile localFD path fs σ =
      .ok ⟨localFD, σ.nextFD, path, fs⟩ { σ with nextFD := succInt σ.nextFD } := rfl

omit [Filesystem F W] in
/-- The state behind `makeFile`. -/
def Tracer.add (σ : Tracer F W) (fd : Int) (path : Str) (fs : F) : Tracer F W :=
  { σ with
    vfs := { σ.vfs with openFiles := σ.vfs.openFiles.insertIfNew σ.nextFD ⟨fd, σ.nextFD, path, fs⟩ }
    nextFD := succInt σ.nextFD }

omit [Filesystem F W] in
theorem makeFile_run (fd : Int) (path : Str) (fs : F) (σ : Tracer F W) :
    makeFile fd path fs σ = .ok ⟨fd, σ.nextFD, path, fs⟩ (σ.add fd path fs) := rfl

/-- The end of `openFile` for a result that is not 0. -/
theorem addFile_run (call : SyscallCall) (fd : Int) (n : Str) (fs : F) (σ : Tracer F W) :
    ∃ t, (do
        let s ← get
        let file ← makeFile fd n fs
        if file.virtualFD ∈ s.vfs.openFiles then do
          file.destroy
          pure (call.answer (toWord file.virtualFD))
        else pure (call.answer (toWord file.virtualFD))) σ =
      .ok (call.answer (toWord σ.nextFD)) t ∧ (σ.add fd n fs).SameTables t := by
  rw [bind_get, bind_ok (makeFile_run _ _ _ _)]
  dsimp only
  by_cases hv : σ.nextFD ∈ σ.vfs.openFiles
  · obtain ⟨t, ht, hs⟩ := destroy_run ⟨fd, σ.nextFD, n, fs⟩ (σ.add fd n fs)
    rw [if_pos hv, bind_ok ht]
    exact ⟨t, rfl, hs⟩
  · rw [if_neg hv]
    exact ⟨_, rfl, rfl, rfl⟩

/-- What `openFile` does with the result of a filesystem. -/
theorem openFile_run {n path : Str} {fs : F} (call : SyscallCall) (flags mode : Int) (hw : isWhitelisted n = false)
    (h : σ.vfs.getFilesystem n = .ok (some (path, fs))) :
    let r := (Filesystem.fsOpen fs path flags mode).run ⟨σ.errno, σ.world⟩
    ∃ t, openFile call n flags mode σ =
        .ok (call.answer (toWord (if r.1 ≠ 0 then σ.nextFD else -r.2.errno))) t ∧
      (if r.1 ≠ 0 then σ.add r.1 n fs else σ).SameTables t := by
  intro r
  have hg : getFilesystem n σ = .ok (some (path, fs)) σ := by simp only [getFilesystem, h]
  have hf : fsCall fs (.open path flags mode) id (Filesystem.fsOpen fs path flags mode) σ =
      .ok r.1 (σ.after fs (.open path flags mode) r.1 r.2) := rfl
  rw [openFile, hw, if_neg (by decide), bind_ok hg]
  dsimp only
  rw [bind_ok hf]
  by_cases hr : r.1 ≠ 0
  · simp only [if_pos hr]
    obtain ⟨t, ht, hs⟩ := addFile_run call r.1 n fs (σ.after fs (.open path flags mode) r.1 r.2)
    exact ⟨t, ht, hs.vfs, hs.nextFD⟩
  · simp only [if_neg hr]
    exact ⟨_, rfl, rfl, rfl⟩

theorem returns_openFile {n : Str} {flags mode : Int} :
    Returns (openFile call n flags mode) (fun r _ => P r.id) σ ↔
      (LookupCompletes σ n fun _ _ => True) ∧ P (pathId call n) := by
  unfold openFile
  refine returns_lookup ?_ fun path fs => ?_
  · rfl
  · simp only [returns_bind (fsCall _ _ _ _), returns_fsCall, true_and]
    split
    · obtain ⟨t, ht, _⟩ := addFile_run call _ n fs _
      rw [returns_ok ht]
      rfl
    · rfl

theorem returns_doOpen :
    Returns (doOpen call) (fun r _ => P r.id) σ ↔
      (PathCompletes σ (call.args 0) fun _ _ => True) ∧ P (pathId call (σ.nameAt (call.args 0))) := by
  simp only [doOpen, returns_bind, returns_getFilename, returns_openFile, PathCompletes, and_assoc]
  rfl

theorem returns_doAccess :
    Returns (doAccess call) (fun r _ => P r.id) σ ↔
      (PathCompletes σ (call.args 0) fun _ _ => True) ∧ P (pathId call (σ.nameAt (call.args 0))) := by
  simp only [doAccess, returns_bind, returns_getFilename, PathCompletes, and_assoc]
  refine and_congr_right fun _ => returns_lookup Iff.rfl fun path fs => ?_
  simp only [returns_bind, returns_fsCall, true_and]
  rfl

omit [Filesystem F W] in
theorem returns_statWith {request : Str → Request}
    {op : F → Str → Buffer → StateM (Host W) (Int × Buffer)} :
    Returns (statWith request op call) (fun r _ => P r.id) σ ↔
      StatCompletes σ call op ∧ P (pathId call (σ.nameAt (call.args 0))) := by
  simp only [statWith, returns_bind, returns_getFilename, StatCompletes, PathCompletes, and_assoc]
  refine and_congr_right fun _ => returns_lookup Iff.rfl fun path fs => ?_
  simp only [returns_bind, returns_get, returns_fsCall]
  exact returns_ite_write (by decide)

theorem returns_doReadlink :
    Returns (doReadlink call) (fun r _ => P r.id) σ ↔
      ReadlinkCompletes σ call ∧ P (pathId call (σ.nameAt (call.args 0))) := by
  simp only [doReadlink, returns_bind, returns_getFilename, ReadlinkCompletes, PathCompletes, and_assoc]
  refine and_congr_right fun _ => returns_lookup Iff.rfl fun path fs => ?_
  simp only [returns_bind, returns_newVector, returns_fsCall, and_assoc]
  refine and_congr_right fun _ => (returns_vectorAnswer (by omega) fun _ _ => Iff.rfl).trans ?_
  refine and_congr_left fun _ => and_iff_right fun h0 => ?_
  rw [h0, Nat.zero_min]

omit [Filesystem F W] in
theorem returns_openatName {Q : Str → Tracer F W → Prop} {dirfd : Word} {n : Str} :
    Returns (openatName dirfd n) Q σ ↔ ∃ p, openatTarget σ.vfs dirfd n = some p ∧ Q p σ := by
  unfold openatName openatTarget
  split
  · simp
  · split
    · simp only [returns_bind, returns_get]
      cases σ.vfs.cwd <;> simp
    · split
      · rename_i hv
        simp only [returns_bind, returns_getFile hv, returns_pure, Option.map_eq_some_iff]
        constructor
        · rintro ⟨f, hf, hq⟩; exact ⟨_, ⟨f, hf, rfl⟩, hq⟩
        · rintro ⟨_, ⟨f, hf, rfl⟩, hq⟩; exact ⟨f, hf, hq⟩
      · simp

omit [Filesystem F W] in
theorem openatName_run {dirfd : Word} {n p : Str} (h : openatTarget σ.vfs dirfd n = some p) :
    openatName dirfd n σ = .ok p σ := by
  have hret : Returns (openatName dirfd n) (fun a t => a = p ∧ t = σ) σ :=
    returns_openatName.2 ⟨p, h, rfl, rfl⟩
  obtain ⟨a, t, hrun, rfl, rfl⟩ := returns_iff.1 hret
  exact hrun

omit [Filesystem F W] in
theorem openatName_error {dirfd : Word} {n : Str} (h : openatTarget σ.vfs dirfd n = none) :
    ∃ e t, openatName dirfd n σ = .error e t := by
  have hret : ¬ Returns (openatName dirfd n) (fun _ _ => True) σ := by
    rw [returns_openatName, h]
    simp
  exact error_of_not_returns hret

theorem returns_doOpenat :
    Returns (doOpenat call) (fun r _ => P r.id) σ ↔
      OpenatCompletes σ call ∧
        P (pathId call ((openatTarget σ.vfs (call.args 0) (σ.nameAt (call.args 1))).getD [])) := by
  simp only [doOpenat, returns_bind, returns_getFilename, returns_openatName, returns_openFile,
    OpenatCompletes, and_assoc]
  refine and_congr_right fun _ => ?_
  cases h : openatTarget σ.vfs (call.args 0) (σ.nameAt (call.args 1)) with
  | none => simp
  | some p =>
    simp only [Option.some.injEq, exists_eq_left', Option.getD_some]
    rfl

/-- The state in which a successful `setCWD` lets go of the old directory. -/
def Tracer.enter (σ : Tracer F W) (n path : Str) (fs : F) : Tracer F W :=
  let r := (Filesystem.fsOpen fs path O_DIRECTORY 0).run ⟨σ.errno, σ.world⟩
  { σ.after fs (.open path O_DIRECTORY 0) r.1 r.2 with
    vfs := { σ.vfs with
      cwd := some ⟨σ.replyTo (Filesystem.fsOpen fs path O_DIRECTORY 0), σ.nextFD, trimSlash n, fs⟩ }
    nextFD := succInt σ.nextFD }

theorem setCWD_some {n path : Str} {fs : F}
    (h : σ.vfs.getFilesystem (trimSlash n) = .ok (some (path, fs))) :
    ∃ t, setCWD n σ = .ok 0 t ∧ (σ.enter n path fs).SameTables t := by
  have hg : getFilesystem (trimSlash n) σ = .ok (some (path, fs)) σ := by
    simp only [getFilesystem, h]
  have hf : fsCall fs (.open path O_DIRECTORY 0) id (Filesystem.fsOpen fs path O_DIRECTORY 0) σ =
      .ok (σ.replyTo (Filesystem.fsOpen fs path O_DIRECTORY 0)) _ := rfl
  rw [setCWD, bind_ok hg]
  dsimp only
  rw [bind_ok hf, bind_ok (newFile_run _ _ _ _), bind_get, bind_set]
  dsimp only
  cases hc : σ.vfs.cwd with
  | none => exact ⟨_, rfl, rfl, rfl⟩
  | some c =>
    obtain ⟨t, ht, hs⟩ := destroy_run c (σ.enter n path fs)
    exact ⟨t, bind_ok ht, hs⟩

theorem setCWD_none {n : Str} (h : σ.vfs.getFilesystem (trimSlash n) = .ok none) :
    setCWD n σ = .ok (-ENOENT) σ := by
  have hg : getFilesystem (trimSlash n) σ = .ok none σ := by
    simp only [getFilesystem, h]
  rw [setCWD, bind_ok hg]
  rfl

omit [Filesystem F W] in
theorem getFilesystem_error {p : Str} {e : Crash} (h : σ.vfs.getFilesystem p = .error e) :
    getFilesystem p σ = .error e σ := by
  simp only [getFilesystem, h]

theorem setCWD_error {n : Str} {e : Crash} (h : σ.vfs.getFilesystem (trimSlash n) = .error e) :
    setCWD n σ = .error e σ := by
  rw [setCWD, bind_error (getFilesystem_error h)]

theorem returns_setCWD {n : Str} {P : Prop} :
    Returns (setCWD n) (fun _ _ => P) σ ↔ Resolvable σ.vfs (trimSlash n) ∧ P := by
  rcases getFilesystem_cases σ.vfs (trimSlash n) with ⟨hr, r, hok⟩ | ⟨hr, e, herr⟩
  · have hrun : ∃ a t, setCWD n σ = .ok a t := by
      rcases r with _ | ⟨path, fs⟩
      · exact ⟨_, _, setCWD_none hok⟩
      · obtain ⟨t, ht, _⟩ := setCWD_some hok
        exact ⟨_, t, ht⟩
    rw [returns_const hrun fun _ _ => Iff.rfl]
    simp [hr]
  · exact iff_of_false (not_returns_of_error (setCWD_error herr)) fun h => hr h.1

theorem returns_doChdir :
    Returns (doChdir call) (fun r _ => P r.id) σ ↔ ChdirCompletes σ call ∧ P call.id := by
  simp only [doChdir, returns_bind, returns_getFilename, ChdirCompletes, and_assoc]
  exact and_congr_right fun _ => returns_setCWD (P := P call.id)

omit [Filesystem F W] in
theorem returns_doGetcwd :
    Returns (doGetcwd call) (fun r _ => P r.id) σ ↔ GetcwdCompletes σ call ∧ P call.id := by
  simp only [doGetcwd, getCWD, returns_bind, returns_get, GetcwdCompletes]
  cases h : σ.vfs.cwd with
  | none => simp
  | some c =>
    simp only [Option.some.injEq, exists_eq_left', returns_pure]
    exact returns_writeData (by omega) fun _ _ _ => Iff.rfl

/-! ## The descriptor calls -/

theorem returns_doClose :
    Returns (doClose call) (fun r _ => P r.id) σ ↔
      (FdCompletes σ (asInt (call.args 0)) fun _ => True) ∧ P (fdId call (asInt (call.args 0))) := by
  refine returns_fd fun f => ?_
  simp only [returns_bind, true_and]
  obtain ⟨a, t, h, _⟩ := close_run f σ
  refine returns_const ⟨a, t, h⟩ fun a t => ?_
  simp only [returns_modify]
  refine returns_const ?_ fun _ _ => Iff.rfl
  obtain ⟨t', h, _⟩ := destroy_run a.2 _
  exact ⟨_, t', h⟩

theorem returns_doRead :
    Returns (doRead call) (fun r _ => P r.id) σ ↔
      ReadCompletes σ call ∧ P (fdId call (asInt (call.args 0))) := by
  refine returns_fd fun f => ?_
  simp only [returns_bind, returns_newVector, File.read, returns_fsCall, and_assoc]
  refine and_congr_right fun _ => ?_
  split
  · rename_i hc
    rw [returns_bind, returns_vectorAnswer (BitVec.isLt _) fun _ _ => Iff.rfl]
    exact and_congr_left fun _ => ⟨fun h _ => h, fun h => h hc⟩
  · rename_i hc
    simp only [returns_bind, returns_get, returns_pure]
    exact ⟨fun hp => ⟨fun h => absurd h hc, hp⟩, fun h => h.2⟩

theorem returns_doFstat :
    Returns (doFstat call) (fun r _ => P r.id) σ ↔
      FstatCompletes σ call ∧ P (fdId call (asInt (call.args 0))) := by
  refine returns_fd fun f => ?_
  simp only [returns_bind, returns_get, File.fstat, returns_fsCall]
  exact returns_ite_write (by decide)

theorem returns_doWrite :
    Returns (doWrite call) (fun r _ => P r.id) σ ↔
      WriteCompletes σ call ∧ P (fdId call (asInt (call.args 0))) := by
  refine returns_fd fun f => ?_
  simp only [returns_bind, returns_newVector, and_assoc]
  refine and_congr_right fun _ => returns_copyData fun _ _ => ?_
  simp only [File.write, returns_fsCall]
  rfl

theorem returns_doGetdents :
    Returns (doGetdents call) (fun r _ => P r.id) σ ↔
      GetdentsCompletes σ call ∧ P (fdId call (asInt (call.args 0))) := by
  refine returns_fd fun f => ?_
  simp only [returns_bind, returns_newVector, File.getdents, returns_fsCall, and_assoc]
  refine and_congr_right fun _ => ?_
  split
  · rename_i hc
    rw [returns_bind, returns_vectorAnswer (BitVec.isLt _) fun _ _ => Iff.rfl]
    exact and_congr_left fun _ => ⟨fun h _ => ⟨fun h0 => absurd (h.1 h0) (toNat_ne_zero_of_asInt hc), h.2⟩,
      fun h => ⟨fun h0 => absurd h0 (h hc).1, (h hc).2⟩⟩
  · rename_i hc
    exact ⟨fun hp => ⟨fun h => absurd h hc, hp⟩, fun h => h.2⟩

theorem returns_doLseek :
    Returns (doLseek call) (fun r _ => P r.id) σ ↔
      (FdCompletes σ (asInt (call.args 0)) fun _ => True) ∧ P (fdId call (asInt (call.args 0))) := by
  refine returns_fd fun f => ?_
  simp only [returns_bind, File.lseek, returns_fsCall, true_and]
  rfl

theorem returns_handleSyscall :
    Returns (handleSyscall call) (fun r _ => P r.id) σ ↔ Completes σ call ∧ P (answerId σ call) := by
  refine returns_switch returns_doOpen ?_
  refine returns_switch returns_doClose ?_
  refine returns_switch returns_doRead ?_
  refine returns_switch returns_doFstat ?_
  refine returns_switch returns_doGetdents ?_
  refine returns_switch returns_doOpenat ?_
  refine returns_switch returns_doLseek ?_
  refine returns_switch returns_doWrite ?_
  refine returns_switch returns_doAccess ?_
  refine returns_switch returns_doChdir ?_
  refine returns_switch returns_statWith ?_
  refine returns_switch returns_statWith ?_
  refine returns_switch returns_doGetcwd ?_
  refine returns_switch returns_doReadlink ?_
  simp

end

end CodiusSandbox
