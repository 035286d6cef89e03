import CodiusSandbox.ChildMemory
import CodiusSandbox.Resolution
/-!
# Whether the path operations name one file

`open`, `access` and `readlink` hand a filesystem the local path that `getFilesystem` returns with it,
`stat` and `lstat` the name as the child gave it. The two are one path while the only mount is "/", and
`names_one_file_iff` says that this is also the only case in which all five name one file.
-/
namespace CodiusSandbox

open Wp

variable {F W : Type}

/-- The calls that take a path in their first argument. -/
def pathOperations : List Word := [SYS_open, SYS_access, SYS_stat, SYS_lstat, SYS_readlink]

/-! ## A filesystem that answers consistently -/

open Filesystem in
/-- What `fs` knows of the file at `path`: the file an `open` finds is the one a `stat` describes, and
closing a file leaves it there. -/
structure Consistent [Filesystem F W] (fs : F) (path : Str) (D : Type) where
  /-- The file at `path`. -/
  file : W → Option D
  /-- The file behind a descriptor. -/
  fileOf : W → Int → Option D
  /-- Its `struct stat`, in a buffer. -/
  describe : D → Buffer → Buffer
  open_file : ∀ flags mode h, let r := (fsOpen fs path flags mode).run h
    0 < r.1 → ∃ d, fileOf r.2.world r.1 = some d ∧ file r.2.world = some d
  close_file : ∀ f : F, ∀ fd h, file ((fsClose f fd).run h).2.world = file h.world
  stat_file : ∀ buf h d, file h.world = some d → ((fsStat fs path buf).run h).1 = (0, describe d buf)

section
variable [Filesystem F W]

/-- What the filesystem makes of an `open`. -/
def openAnswer (σ : Tracer F W) (call : SyscallCall) (path : Str) (fs : F) : Int × Host W :=
  (Filesystem.fsOpen fs path (asInt (call.args 1)) (asInt (call.args 2))).run ⟨0, σ.world⟩

/-- After an `open` of the name at `addr` that finds a file, a `stat` of the name succeeds and describes
that file. -/
def DescribesOpened (σ : Tracer F W) (addr : Address) (path : Str) (fs : F) : Prop :=
  ∀ (D : Type) (c : Consistent fs path D), ∀ opens stats ret t, opens.id = SYS_open → opens.args 0 = addr →
    stats.id = SYS_stat → stats.args 0 = addr → handleSyscall opens σ = .ok ret t →
      0 < (openAnswer σ opens path fs).1 →
        ∃ d, c.fileOf (openAnswer σ opens path fs).2.world (openAnswer σ opens path fs).1 = some d ∧
          Writes (handleSyscall stats) t (stats.args 1) sizeofStat (c.describe d t.stack) (stats.answer 0)

/-- The calls on the name at `addr` ask `fs` about `path`, a `readlink` where its buffer can be had, and
what they find is one file. -/
structure NamesOneFile (σ : Tracer F W) (addr : Address) (path : Str) (fs : F) : Prop where
  asks : ∀ call, call.id ∈ pathOperations → call.args 0 = addr →
    (call.id = SYS_readlink → Fits σ (call.args 2).toNat) → Asks [(fs, path)] (handleSyscall call) σ
  describes : DescribesOpened σ addr path fs

end

/-! ## After an `open` -/

/-- What a name is resolved with. -/
def Tracer.names (σ : Tracer F W) : Std.ExtTreeMap Str F × Option (File F) × Memory × List UInt8 :=
  (σ.vfs.mountpoints, σ.vfs.cwd, σ.mem, σ.slack)

section
variable {σ t : Tracer F W}

theorem nameAt_of_names (h : t.names = σ.names) (addr : Address) : t.nameAt addr = σ.nameAt addr := by
  simp only [Tracer.names, Prod.mk.injEq] at h
  unfold Tracer.nameAt
  rw [h.2.2.1, h.2.2.2]

theorem readable_of_names (h : t.names = σ.names) (addr : Address) :
    Readable t.mem addr 1024 ↔ Readable σ.mem addr 1024 := by
  simp only [Tracer.names, Prod.mk.injEq] at h
  rw [h.2.2.1]

theorem getFilesystem_of_names (h : t.names = σ.names) (n : Str) :
    t.vfs.getFilesystem n = σ.vfs.getFilesystem n := by
  simp only [Tracer.names, Prod.mk.injEq] at h
  unfold VFS.getFilesystem
  rw [h.1, h.2.1]

variable [Filesystem F W]

theorem close_names (f : File F) : Preserves Tracer.names (f.close : TracerM F W _) :=
  .ite (.bind (fun _ => rfl) fun _ => .pure _) (.pure _)

omit [Filesystem F W] in
theorem makeFile_names (fd : Int) (n : Str) (fs : F) : Preserves Tracer.names (makeFile fd n fs : TracerM F W _) :=
  fun _ => rfl

theorem destroy_names (f : File F) : Preserves Tracer.names (f.destroy : TracerM F W _) :=
  .bind (close_names f) fun _ => .pure _

theorem makeFile_file {fs : F} {path : Str} {D : Type} (c : Consistent fs path D) (fd : Int) (n : Str) (f : F) :
    Preserves (fun σ : Tracer F W => c.file σ.world) (makeFile fd n f : TracerM F W _) := fun _ => rfl

theorem destroy_file {fs : F} {path : Str} {D : Type} (c : Consistent fs path D) (f : File F) :
    Preserves (fun σ : Tracer F W => c.file σ.world) (f.destroy : TracerM F W _) := by
  refine .bind (.ite (.bind ?_ fun _ => .pure _) (.pure _)) fun _ => .pure _
  exact fun σ => c.close_file f.fs f.localFD ⟨σ.errno, σ.world⟩

/-- What `openFile` does with the filesystem's answer. -/
theorem openedFile_preserves {γ : Type} {obs : Tracer F W → γ}
    (hmake : ∀ fd n fs, Preserves obs (makeFile fd n fs : TracerM F W _))
    (hdestroy : ∀ f : File F, Preserves obs (f.destroy : TracerM F W _)) (call : SyscallCall) (fd : Int) (n : Str)
    (fs : F) : Preserves obs (do
      if fd ≠ 0 then
        let s ← get
        let file ← makeFile fd n fs
        if file.virtualFD ∈ s.vfs.openFiles then file.destroy
        return call.answer (toWord file.virtualFD)
      else
        let s ← get
        return call.answer (toWord (-s.errno)) : TracerM F W SyscallCall) := by
  refine .ite (.bind .get fun s => .bind (hmake _ _ _) fun file => ?_) (.bind .get fun _ => .pure _)
  exact .ite (.bind (hdestroy _) fun _ => .pure _) (.pure _)

/-- An `open` of a name that resolves: what resolves names stays, and so does what the filesystem's answer
left and neither a new File nor the end of one touches. -/
theorem openFile_keeps {γ : Type} {obs : Tracer F W → γ} {call ret : SyscallCall} {n path : Str} {fs : F}
    {flags mode : Int} (hmake : ∀ fd n fs, Preserves obs (makeFile fd n fs : TracerM F W _))
    (hdestroy : ∀ f : File F, Preserves obs (f.destroy : TracerM F W _)) (hw : isWhitelisted n = false)
    (hg : σ.vfs.getFilesystem n = .ok (some (path, fs))) (h : openFile call n flags mode σ = .ok ret t) :
    let r := (Filesystem.fsOpen fs path flags mode).run ⟨σ.errno, σ.world⟩
    obs t = obs (σ.after fs (.open path flags mode) r.1 r.2) := by
  intro r
  have hrun : getFilesystem n σ = .ok (some (path, fs)) σ := by simp only [getFilesystem, hg]
  have hf : fsCall fs (.open path flags mode) id (Filesystem.fsOpen fs path flags mode) σ =
      .ok r.1 (σ.after fs (.open path flags mode) r.1 r.2) := rfl
  rw [openFile, hw, if_neg (by decide), bind_ok hrun] at h
  dsimp only at h
  rw [bind_ok hf] at h
  exact (openedFile_preserves hmake hdestroy call r.1 n fs).of_ok h

/-! ## The five calls -/

variable {addr : Address} {path : Str} {fs : F} {call : SyscallCall}

omit [Filesystem F W] in
theorem pathOperation_pathCall {id : Word} (h : id ∈ pathOperations) : IsPathCall id := by
  simp only [pathOperations, List.mem_cons, List.not_mem_nil, or_false] at h
  rcases h with rfl | rfl | rfl | rfl | rfl <;> decide

omit [Filesystem F W] in
theorem ne_openat (hid : call.id ∈ pathOperations) : call.id ≠ SYS_openat := by
  intro h
  rw [h] at hid
  exact absurd hid (by decide)

omit [Filesystem F W] in
/-- What an operation on a name that resolves asks about. -/
theorem pathQuestions_resolved (hid : call.id ∈ pathOperations) (hw : isWhitelisted (σ.nameAt (call.args 0)) = false)
    (hg : σ.vfs.getFilesystem (σ.nameAt (call.args 0)) = .ok (some (path, fs))) :
    pathQuestions σ call = asked σ call (σ.nameAt (call.args 0)) path fs := by
  have hopenat := ne_openat hid
  unfold pathQuestions pathArg lookupAsks
  rw [if_neg hopenat, if_neg hopenat, hw, if_neg (by decide), hg]

theorem pathOperation_asks (hid : call.id ∈ pathOperations) (hread : Readable σ.mem (call.args 0) 1024)
    (hw : isWhitelisted (σ.nameAt (call.args 0)) = false)
    (hg : σ.vfs.getFilesystem (σ.nameAt (call.args 0)) = .ok (some (path, fs))) :
    Asks (asked σ call (σ.nameAt (call.args 0)) path fs) (handleSyscall call) σ := by
  have hpath : IsPathCall call.id := pathOperation_pathCall hid
  have harg : pathArg call = call.args 0 := if_neg (ne_openat hid)
  rw [← pathQuestions_resolved hid hw hg]
  exact handleSyscall_asks hpath (by rw [harg]; exact hread)

/-- What a `stat` that succeeds writes. -/
theorem writes_stat {x : Exchange F W} {buf : Buffer} (hid : call.id = SYS_stat) (hx : σ.exchange call = some x)
    (hresult : x.result = 0) (hbuffer : x.buffer = buf) :
    Writes (handleSyscall call) σ (call.args 1) sizeofStat buf (call.answer 0) := by
  have hread : call.id ≠ SYS_read := by rw [hid]; decide
  have hreturned : x.returned call = 0 := by rw [Exchange.returned, if_neg hread, hresult]
  have hwrites := exchange_run hx (backed_of_ne hread (by rw [hid]; decide))
  rw [length_stat (.inr (.inl hid)) hresult, hbuffer, hreturned] at hwrites
  exact hwrites

/-- Where the local path is the name, `stat` describes what `open` opened. -/
theorem describesOpened (hread : Readable σ.mem addr 1024) (hw : isWhitelisted (σ.nameAt addr) = false)
    (hg : σ.vfs.getFilesystem (σ.nameAt addr) = .ok (some (path, fs))) (hpath : path = σ.nameAt addr) :
    DescribesOpened σ addr path fs := by
  intro D c opens stats ret t hopens haddr hstats haddr' hrun hpos
  obtain ⟨id, args, returnVal⟩ := opens
  obtain ⟨id', args', returnVal'⟩ := stats
  dsimp only at hopens haddr hstats haddr'
  subst hopens haddr hstats
  have hopen : openFile ⟨SYS_open, args, returnVal⟩ (σ.nameAt (args 0)) (asInt (args 1)) (asInt (args 2))
      { σ with errno := 0 } = .ok ret t := by
    have hdo : doOpen ⟨SYS_open, args, returnVal⟩ σ = .ok ret t := hrun
    rw [doOpen, bind_ok (getFilename_readable hread)] at hdo
    exact hdo
  have hkept := openFile_keeps (σ := { σ with errno := 0 }) makeFile_names destroy_names hw hg hopen
  have hnames : t.names = σ.names := hkept
  have hkept' := openFile_keeps (σ := { σ with errno := 0 }) (makeFile_file c) (destroy_file c) hw hg hopen
  have hfile : c.file t.world = c.file (openAnswer σ ⟨SYS_open, args, returnVal⟩ path fs).2.world := hkept'
  obtain ⟨d, hof, hat⟩ := c.open_file _ _ _ hpos
  refine ⟨d, hof, ?_⟩
  have hname : t.nameAt (args' 0) = σ.nameAt (args 0) := by rw [haddr', nameAt_of_names hnames]
  have hread' : Readable t.mem (args' 0) 1024 := by rw [haddr', readable_of_names hnames]; exact hread
  have hw' : isWhitelisted (t.nameAt (args' 0)) = false := by rw [hname, hw]
  have hg' : t.vfs.getFilesystem (t.nameAt (args' 0)) = .ok (some (path, fs)) := by
    rw [hname, getFilesystem_of_names hnames, hg]
  have hx : t.exchange ⟨SYS_stat, args', returnVal'⟩ =
      some (t.perform fs 0 (Filesystem.fsStat fs path t.stack)) := by
    rw [hpath, ← hname]
    exact exchange_stat hread' hw' hg' rfl
  have hans := c.stat_file t.stack ⟨0, t.world⟩ d (hfile.trans hat)
  exact writes_stat rfl hx (congrArg Prod.fst hans) (congrArg Prod.snd hans)

/-- `stat` asks about the name. -/
theorem path_of_namesOneFile (hread : Readable σ.mem addr 1024) (hw : isWhitelisted (σ.nameAt addr) = false)
    (hg : σ.vfs.getFilesystem (σ.nameAt addr) = .ok (some (path, fs))) (h : NamesOneFile σ addr path fs) :
    path = σ.nameAt addr := by
  have hid : SYS_stat ∈ pathOperations := by decide
  have hlink : SYS_stat ≠ SYS_readlink := by decide
  have hstat := h.asks ⟨SYS_stat, fun _ => addr, 0⟩ hid rfl fun hl => absurd hl hlink
  have hname : Asks (asked σ ⟨SYS_stat, fun _ => addr, 0⟩ (σ.nameAt addr) path fs)
      (handleSyscall ⟨SYS_stat, fun _ => addr, 0⟩) σ := pathOperation_asks hid hread hw hg
  have hasked : asked σ ⟨SYS_stat, fun _ => addr, 0⟩ (σ.nameAt addr) path fs = [(fs, σ.nameAt addr)] :=
    if_pos (.inl rfl)
  have heq : [(fs, path)] = [(fs, σ.nameAt addr)] := (hstat.unique hname).trans hasked
  exact (Prod.mk.inj (List.cons.inj heq).1).2

/-- The operations on a name that resolves name one file exactly when its local path is the name itself. -/
theorem names_one_file_iff (hread : Readable σ.mem addr 1024) (hw : isWhitelisted (σ.nameAt addr) = false)
    (hg : σ.vfs.getFilesystem (σ.nameAt addr) = .ok (some (path, fs))) :
    NamesOneFile σ addr path fs ↔ path = σ.nameAt addr := by
  constructor
  · exact path_of_namesOneFile hread hw hg
  · intro hpath
    refine ⟨fun call hid haddr hfits => ?_, describesOpened hread hw hg hpath⟩
    subst haddr
    have hasked : asked σ call (σ.nameAt (call.args 0)) path fs = [(fs, path)] := by
      unfold asked
      rw [← hpath]
      split
      · rfl
      · exact if_neg fun h => h.2 (hfits h.1)
    rw [← hasked]
    exact pathOperation_asks hid hread hw hg

end

/-! ## A mount other than "/" -/

/-- A filesystem with one file. -/
structure Single where
  name : Str
deriving DecidableEq

/-- What `Single` makes of a path. -/
def Single.answer (f : Single) (path : Str) (n : Int) : Int := if path = f.name then n else -ENOENT

instance : Filesystem Single Unit where
  fsOpen f path _ _ := pure (f.answer path 3)
  fsRead _ _ buf _ := pure (0, buf)
  fsClose _ _ := pure 0
  fsFstat _ _ buf := pure (0, buf)
  fsGetdents _ _ buf _ := pure (0, buf)
  fsLseek _ _ _ _ := pure 0
  fsWrite _ _ _ count := pure count
  fsAccess f path _ := pure (f.answer path 0)
  fsStat f path buf := pure (f.answer path 0, buf)
  fsLstat f path buf := pure (f.answer path 0, buf)
  fsReadlink f path buf _ := pure (f.answer path 0, buf)

/-- Its one file is the same however it is asked for. -/
def Single.consistent (f : Single) : Consistent f f.name Unit where
  file _ := some ()
  fileOf _ fd := if fd = 3 then some () else none
  describe _ buf := buf
  open_file _ _ _ _ := ⟨(), if_pos (if_pos rfl), rfl⟩
  close_file _ _ _ := rfl
  stat_file buf _ _ _ := congrArg (fun n => (n, buf)) (if_pos rfl)

/-- A child with one file behind `mount`. -/
def singleChild (bytes mount : Str) (f : Single) : Tracer Single Unit :=
  { Tracer.start (page bytes) with vfs := VFS.empty.mountFilesystem mount f }

theorem singleChild_reachable (bytes mount : Str) (f : Single) : Reachable (singleChild bytes mount f) :=
  .step (.start _) (.mount _ _ _)

/-- `open` and then `stat` of the path at 0. -/
def openStat : TracerM Single Unit (Word × Word) := do
  let opened ← handleSyscall (.of SYS_open [0])
  let found ← handleSyscall (.of SYS_stat [0, 1024])
  return (opened.returnVal, found.returnVal)

/-- "/data/a" can be opened, and is not there for `stat`. -/
theorem stat_misses_opened : ∃ σ : Tracer Single Unit, ∃ fs path, Reachable σ ∧ Readable σ.mem 0 1024 ∧
    isWhitelisted (σ.nameAt 0) = false ∧ σ.vfs.getFilesystem (σ.nameAt 0) = .ok (some (path, fs)) ∧
      Nonempty (Consistent fs path Unit) ∧ ¬ NamesOneFile σ 0 path fs ∧
        Returns openStat (fun r _ => r = (4096, toWord (-ENOENT))) σ := by
  generalize hσ : singleChild (str "/data/a") (str "/data/") ⟨str "/a"⟩ = σ
  have hholds : HoldsPath σ.mem 0 (str "/data/a") := by subst hσ; decide +kernel
  have hname : σ.nameAt 0 = str "/data/a" := nameAt_of_holds hholds
  have hfound : σ.vfs.getFilesystem (str "/data/a") = .ok (some (str "/a", ⟨str "/a"⟩)) := by subst hσ; decide +kernel
  obtain ⟨hread, hw, hg⟩ := hholds.resolves (by subst hσ; decide +kernel) (by decide +kernel) hfound
  have hne : str "/a" ≠ str "/data/a" := by decide
  refine ⟨σ, ⟨str "/a"⟩, str "/a", hσ ▸ singleChild_reachable _ _ _, hread, hw, hg, ⟨Single.consistent _⟩, ?_, ?_⟩
  · intro h
    exact hne ((path_of_namesOneFile hread hw hg h).trans hname)
  · subst hσ
    decide +kernel

theorem names_one_file_root : ∃ σ : Tracer Single Unit, NamesOneFile σ 0 (str "/a") ⟨str "/a"⟩ := by
  generalize hσ : singleChild (str "/a") (str "/") ⟨str "/a"⟩ = σ
  have hholds : HoldsPath σ.mem 0 (str "/a") := by subst hσ; decide +kernel
  have hname : σ.nameAt 0 = str "/a" := nameAt_of_holds hholds
  have hfound : σ.vfs.getFilesystem (str "/a") = .ok (some (str "/a", ⟨str "/a"⟩)) := by subst hσ; decide +kernel
  obtain ⟨hread, hw, hg⟩ := hholds.resolves (by subst hσ; decide +kernel) (by decide +kernel) hfound
  exact ⟨σ, (names_one_file_iff hread hw hg).2 hname.symm⟩

end CodiusSandbox
