import CodiusSandbox.Boundaries
import CodiusSandbox.Relative
/-!
# The current directory

`setCWD` makes a File of whatever the filesystem's `open` returned and of the name as it was given
(`vfs.cpp:364-366`). So a directory that could not be opened is entered all the same, a relative name stays
relative, and the lookup is the one that misses mount points and takes the outermost mount: `setCWD` is atomic where
the lookup finds what covers an absolute name and that opens it, or finds nothing and nothing would open the name
(`setCWD_atomic_iff`). In the runs in which this holds of every name, the current directory is an absolute path that
has been opened.
-/
namespace CodiusSandbox

open Wp PrefixTable

variable {F W : Type}

/-- The path that a name stands for. -/
def VFS.absolutePath (v : VFS F) (n : Str) : Option Str :=
  if n.head? = some slash then some n else v.cwd.map fun c => join c.path n

/-- The mount point of `e` is the directory `p` or the innermost one above it. -/
structure VFS.Covering (v : VFS F) (p : Str) (e : Str × F) : Prop where
  mounted : e ∈ v.mountpoints.toList
  above : slashed e.1 <+: slashed p
  innermost : ∀ e' ∈ v.mountpoints.toList, slashed e'.1 <+: slashed p → (slashed e'.1).length ≤ (slashed e.1).length

/-- The local path of `p` in the filesystem that covers it. -/
def localPath (p : Str) (e : Str × F) : Str := localDir (slashed e.1) p

section
variable [Filesystem F W]

/-- What that filesystem answers when it is to open the directory. -/
def Tracer.opening (σ : Tracer F W) (p : Str) (e : Str × F) : Int :=
  σ.replyTo (Filesystem.fsOpen e.2 (localPath p e) O_DIRECTORY 0)

/-- No filesystem covers `n`, or the one that does fails to open it. -/
def Tracer.Refuses (σ : Tracer F W) (n : Str) : Prop :=
  ∀ p e, σ.vfs.absolutePath n = some p → σ.vfs.Covering p e → σ.opening p e < 0

/-- `c` is the directory `p`, which `setCWD n` has the filesystem that covers it open. -/
structure Tracer.IsOpened (σ : Tracer F W) (n p : Str) (e : Str × F) (c : File F) : Prop where
  named : σ.vfs.absolutePath n = some p
  covering : σ.vfs.Covering p e
  opens : σ.Opens n (localPath p e) e.2
  success : 0 ≤ σ.opening p e
  localFD : c.localFD = σ.opening p e
  fs : c.fs = e.2
  path : c.path = p ∨ c.path = trimSlash p
  absolute : c.path.head? = some slash

/-- What `VFS::setCWD` promises (`vfs.h:107-114`): an error and the old directory, or 0 and the new one. -/
structure AtomicSetCWD (σ : Tracer F W) (n : Str) : Prop where
  refused : σ.Refuses n → ∃ ret t, setCWD n σ = .ok ret t ∧ ret < 0 ∧ t.vfs.cwd = σ.vfs.cwd
  entered : ¬ σ.Refuses n → ∃ t c p e, setCWD n σ = .ok 0 t ∧ t.vfs.cwd = some c ∧ σ.IsOpened n p e c

/-- The lookup finds nothing for a name that is refused, or what covers a name that is absolute and opens. -/
def Tracer.Enters (σ : Tracer F W) (n : Str) : Prop :=
  σ.vfs.getFilesystem (trimSlash n) = .ok none ∧ σ.Refuses n ∨
    n.head? = some slash ∧ ∃ e, σ.vfs.Covering n e ∧
      σ.vfs.getFilesystem (trimSlash n) = .ok (some (localPath n e, e.2)) ∧ 0 ≤ σ.opening n e

/-- A run in which `C` holds of the names that the host and the child enter, where they do. -/
inductive Moves (C : Tracer F W → Str → Prop) : Tracer F W → Prop
  | start (e : Environment W) : Moves C (.start e)
  | mount {σ : Tracer F W} (hσ : Moves C σ) (path : Str) (fs : F) :
      Moves C { σ with vfs := σ.vfs.mountFilesystem path fs }
  | setCWD {σ t : Tracer F W} {n : Str} {ret : Int} (hσ : Moves C σ) (hc : C σ n) (h : setCWD n σ = .ok ret t) : Moves C t
  | chdir {σ t : Tracer F W} {call ret : SyscallCall} (hσ : Moves C σ) (hid : call.id = SYS_chdir)
      (hc : C { σ with errno := 0 } (σ.nameAt (call.args 0))) (h : handleSyscall call σ = .ok ret t) : Moves C t
  | syscall {σ t : Tracer F W} {call ret : SyscallCall} (hσ : Moves C σ) (hid : call.id ≠ SYS_chdir)
      (h : handleSyscall call σ = .ok ret t) : Moves C t
  | environment {σ : Tracer F W} (hσ : Moves C σ) (e : Environment W) : Moves C (σ.moveTo e)
  /-- A `File` of another VFS. -/
  | otherFile {σ : Tracer F W} (hσ : Moves C σ) : Moves C { σ with nextFD := succInt σ.nextFD }

end

/-- `c` is an absolute path, and its filesystem has opened the directory there. -/
structure OpenedDirectory (σ : Tracer F W) (c : File F) : Prop where
  absolute : c.path.head? = some slash
  opened : ∃ path, path <:+ c.path ∧ 0 ≤ c.localFD ∧ ⟨c.fs, .open path O_DIRECTORY 0, c.localFD⟩ ∈ σ.calls

/-! ## One move -/

section
variable {σ t : Tracer F W} {n p path : Str} {fs : F}

theorem searchMounts_suffix : ∀ {l : List (Str × F)}, searchMounts l p = .ok (some (path, fs)) → path <:+ p
  | [], h => by cases h
  | (mount, fs') :: rest, h => by
    unfold searchMounts at h
    split at h
    · split at h
      · cases h
      · cases h
        exact List.drop_suffix _ _
    · exact searchMounts_suffix h

theorem found_ne_nil (h : σ.vfs.getFilesystem p = .ok (some (path, fs))) : p ≠ [] := by
  rcases getFilesystem_cases σ.vfs p with ⟨⟨_, hm⟩, _⟩ | ⟨_, e, he⟩
  · exact (covers_of_getFilesystem h).ne_nil hm
  · rw [he] at h
    cases h

/-- The name that is found keeps its first character. -/
theorem trimSlash_head_eq (h : σ.vfs.getFilesystem (trimSlash n) = .ok (some (path, fs))) :
    (trimSlash n).head? = n.head? := by
  obtain ⟨a, l, hl⟩ := List.exists_cons_of_ne_nil (found_ne_nil h)
  obtain ⟨r, hr⟩ := trimSlash_prefix n
  have hhead : (trimSlash n ++ r).head? = (trimSlash n).head? := by
    rw [hl]
    rfl
  rw [← hhead, hr]

variable [Filesystem F W]

omit [Filesystem F W] in
theorem absolutePath_of_head (h : n.head? = some slash) : σ.vfs.absolutePath n = some n := if_pos h

/-- `setCWD` is atomic on the names it should enter, and on no other. -/
theorem atomic_iff : AtomicSetCWD σ n ↔ σ.Enters n := by
  constructor
  · intro h
    rcases getFilesystem_cases σ.vfs (trimSlash n) with ⟨_, found, hok⟩ | ⟨_, err, herr⟩
    · rcases found with _ | ⟨path, fs⟩
      · refine .inl ⟨hok, ?_⟩
        by_contra hnot
        obtain ⟨t, _, _, _, hrun, _⟩ := h.entered hnot
        rw [setCWD_none hok] at hrun
        cases hrun
      · obtain ⟨t, _, hrun, hvfs, _⟩ := setCWD_run hok
        have hnot : ¬ σ.Refuses n := by
          intro href
          obtain ⟨ret, t', hrun', hneg, _⟩ := h.refused href
          rw [hrun] at hrun'
          cases hrun'
          exact absurd hneg (by decide)
        obtain ⟨t', c, p, e, hrun', hcwd, hc⟩ := h.entered hnot
        rw [hrun] at hrun'
        cases hrun'
        rw [hvfs] at hcwd
        cases hcwd
        have habs : n.head? = some slash := by
          rw [← trimSlash_head_eq hok]
          exact hc.absolute
        have hp : n = p := Option.some.inj ((absolutePath_of_head habs).symm.trans hc.named)
        subst hp
        exact .inr ⟨habs, e, hc.covering, opens_iff.1 hc.opens, hc.success⟩
    · by_cases href : σ.Refuses n
      · obtain ⟨ret, t, hrun, _⟩ := h.refused href
        rw [setCWD_error herr] at hrun
        cases hrun
      · obtain ⟨t, _, _, _, hrun, _⟩ := h.entered href
        rw [setCWD_error herr] at hrun
        cases hrun
  · rintro (⟨hnone, href⟩ | ⟨habs, e, hcov, hok, hopen⟩)
    · exact ⟨fun _ => ⟨_, σ, setCWD_none hnone, by decide, rfl⟩, fun h => absurd href h⟩
    · have hnamed : σ.vfs.absolutePath n = some n := absolutePath_of_head habs
      have hnot : ¬ σ.Refuses n := fun href => absurd (href n e hnamed hcov) (Int.not_lt.2 hopen)
      refine ⟨fun h => absurd h hnot, fun _ => ?_⟩
      obtain ⟨t, _, hrun, hvfs, _⟩ := setCWD_run hok
      exact ⟨t, _, n, e, hrun, by rw [hvfs], hnamed, hcov, opens_iff.2 hok, hopen, rfl, rfl, .inr rfl,
        (trimSlash_head_eq hok).trans habs⟩

/-- A name that is entered as it should be leaves an opened directory behind. -/
theorem setCWD_opened {ret : Int} (hσ : ∀ c, σ.vfs.cwd = some c → OpenedDirectory σ c) (hn : σ.Enters n)
    (h : setCWD n σ = .ok ret t) : ∀ c, t.vfs.cwd = some c → OpenedDirectory t c := by
  rcases hn with ⟨hnone, -⟩ | ⟨habs, e, -, hok, hopen⟩
  · rw [setCWD_none hnone] at h
    cases h
    exact hσ
  · obtain ⟨u, events, hrun, hvfs, hcalls⟩ := setCWD_run hok
    rw [hrun] at h
    cases h
    intro c hc
    rw [hvfs] at hc
    cases hc
    have hhead : (trimSlash n).head? = some slash := (trimSlash_head_eq hok).trans habs
    refine ⟨hhead, localPath n e, ?_, hopen, ?_⟩
    · rw [VFS.getFilesystem, if_neg (by rw [hhead]; decide)] at hok
      exact searchMounts_suffix hok
    · rw [hcalls]
      exact List.mem_append_right _ List.mem_cons_self

/-! ## The other calls -/

omit [Filesystem F W] in
theorem makeFile_stays (fd : Int) (n : Str) (fs : F) : Advances Tracer.Stays (makeFile fd n fs : TracerM F W _) :=
  fun _ => ⟨rfl, [], (List.append_nil _).symm⟩

theorem openFile_stays (call : SyscallCall) (n : Str) (flags mode : Int) :
    Advances Tracer.Stays (openFile call n flags mode : TracerM F W SyscallCall) := by
  refine .ite (stays_admits.pure _) (stays_admits.bind (stays_admits.child (getFilesystem_outside _)) fun found => ?_)
  rcases found with _ | ⟨path, fs⟩
  · exact stays_admits.pure _
  · refine stays_admits.bind (stays_admits.request _ _ _ _) fun fd => .ite ?_ ?_
    · refine stays_admits.bind stays_admits.get fun s => stays_admits.bind (makeFile_stays _ _ _) fun file => ?_
      exact .ite (stays_admits.bind (destroy_stays _) fun _ => stays_admits.pure _) (stays_admits.pure _)
    · exact stays_admits.bind stays_admits.get fun _ => stays_admits.pure _

variable {call ret : SyscallCall}

theorem doOpen_stays : Advances Tracer.Stays (doOpen call : TracerM F W SyscallCall) :=
  stays_admits.bind (stays_admits.child (getFilename_outside _)) fun _ => openFile_stays _ _ _ _

theorem doOpenat_stays : Advances Tracer.Stays (doOpenat call : TracerM F W SyscallCall) :=
  stays_admits.bind (stays_admits.child (getFilename_outside _)) fun _ =>
    stays_admits.bind (stays_admits.child (openatName_outside _ _)) fun _ => openFile_stays _ _ _ _

theorem doClose_stays : Advances Tracer.Stays (doClose call : TracerM F W SyscallCall) := by
  refine stays_admits.file fun f => ?_
  rcases f with _ | f
  · exact stays_admits.pure _
  · refine stays_admits.bind (close_stays f) fun r => stays_admits.bind ?_ fun _ => ?_
    · exact fun _ => ⟨rfl, [], (List.append_nil _).symm⟩
    · exact stays_admits.bind (destroy_stays _) fun _ => stays_admits.pure _

/-- Only `chdir` moves the current directory. -/
theorem handleSyscall_stays (hid : call.id ≠ SYS_chdir) :
    Advances Tracer.Stays (handleSyscall call : TracerM F W SyscallCall) := by
  have h : Admits (Tracer.Stays (F := F) (W := W)) := stays_admits
  unfold handleSyscall
  refine .ite doOpen_stays (.ite doClose_stays (.ite h.doRead (.ite h.doFstat (.ite h.doGetdents ?_))))
  refine .ite doOpenat_stays (.ite h.doLseek (.ite h.doWrite (.ite h.doAccess ?_)))
  rw [if_neg hid]
  exact .ite h.statWith (.ite h.statWith (.ite h.doGetcwd (.ite h.doReadlink (h.pure _))))

omit [Filesystem F W] in
theorem Tracer.Stays.opened (h : σ.Stays t) (hσ : ∀ c, σ.vfs.cwd = some c → OpenedDirectory σ c) :
    ∀ c, t.vfs.cwd = some c → OpenedDirectory t c := by
  intro c hc
  rw [h.cwd] at hc
  obtain ⟨events, hevents⟩ := h.calls
  obtain ⟨habs, path, hsuffix, hopen, hmem⟩ := hσ c hc
  refine ⟨habs, path, hsuffix, hopen, ?_⟩
  rw [hevents]
  exact List.mem_append_left _ hmem

/-- `chdir` is `setCWD` on the name in the child's memory. -/
theorem chdir_run (hid : call.id = SYS_chdir) (h : handleSyscall call σ = .ok ret t) :
    ∃ r, setCWD (σ.nameAt (call.args 0)) { σ with errno := 0 } = .ok r t ∧ ret = { call with returnVal := toWord r } := by
  obtain ⟨id, args, returnVal⟩ := call
  dsimp only at hid
  subst hid
  have hdo : doChdir ⟨SYS_chdir, args, returnVal⟩ σ = .ok ret t := h
  have hread : Readable σ.mem (args 0) 1024 := by
    by_cases hr : Readable σ.mem (args 0) 1024
    · exact hr
    · rw [doChdir, bind_error (getFilename_unreadable hr)] at hdo
      cases hdo
  rw [doChdir, bind_ok (getFilename_readable hread)] at hdo
  obtain ⟨r, u, hset, hdo⟩ := of_bind_ok hdo
  cases hdo
  exact ⟨r, hset, rfl⟩

/-! ## Runs -/

theorem Moves.opened (h : Moves Tracer.Enters σ) : ∀ c, σ.vfs.cwd = some c → OpenedDirectory σ c := by
  induction h with
  | start e =>
    intro c hc
    cases hc
  | mount _ _ _ ih => exact fun c hc => ⟨(ih c hc).absolute, (ih c hc).opened⟩
  | setCWD _ hc h ih => exact setCWD_opened ih hc h
  | @chdir σ t call ret _ hid hc h ih =>
    obtain ⟨r, hset, _⟩ := chdir_run hid h
    have ih' : ∀ c, ({ σ with errno := 0 } : Tracer F W).vfs.cwd = some c → OpenedDirectory { σ with errno := 0 } c :=
      fun c hc => ⟨(ih c hc).absolute, (ih c hc).opened⟩
    exact setCWD_opened ih' hc hset
  | syscall _ hid h ih => exact ((handleSyscall_stays hid).of_ok h).opened ih
  | environment _ _ ih => exact fun c hc => ⟨(ih c hc).absolute, (ih c hc).opened⟩
  | otherFile _ ih => exact fun c hc => ⟨(ih c hc).absolute, (ih c hc).opened⟩

end

/-- `setCWD` is atomic on exactly the names that it `Enters`. Where only such names are entered, the current directory
is an absolute path that was opened. -/
theorem setCWD_atomic_iff [Filesystem F W] :
    (∀ (σ : Tracer F W) (n : Str), AtomicSetCWD σ n ↔ σ.Enters n) ∧
      ∀ σ : Tracer F W, Moves Tracer.Enters σ → ∀ c, σ.vfs.cwd = some c → OpenedDirectory σ c :=
  ⟨fun _ _ => atomic_iff, fun _ h => h.opened⟩

/-- `/` is all that is mounted. -/
theorem covering_mounted {fs : Fixed} {p : Str} {e : Str × Fixed} :
    (mounted [] fs).vfs.Covering p e ↔ e = (str "/", fs) ∧ slashed (str "/") <+: slashed p := by
  have hmem : ∀ e : Str × Fixed, e ∈ (mounted [] fs).vfs.mountpoints.toList ↔ e = (str "/", fs) := fun e =>
    mem_mountFilesystem rfl
  constructor
  · intro h
    obtain rfl := (hmem e).1 h.mounted
    exact ⟨rfl, h.above⟩
  · rintro ⟨rfl, habove⟩
    refine ⟨(hmem _).2 rfl, habove, fun e' he' _ => ?_⟩
    exact Nat.le_of_eq (congrArg (fun e : Str × Fixed => (slashed e.1).length) ((hmem e').1 he'))

theorem enters_home : (mounted [] ⟨3⟩).Enters (str "/home") := by
  refine .inr ⟨by decide, (str "/", ⟨3⟩), covering_mounted.2 ⟨rfl, by decide⟩, ?_, by decide +kernel⟩
  decide +kernel

theorem setCWD_atomic_home : (AtomicSetCWD (mounted [] ⟨3⟩) (str "/home") ↔ (mounted [] ⟨3⟩).Enters (str "/home")) ∧
    ∃ σ : Tracer Fixed Unit, Moves Tracer.Enters σ ∧ σ.vfs.cwd.map File.path = some (str "/home") ∧
      ∀ c, σ.vfs.cwd = some c → OpenedDirectory σ c := by
  refine ⟨setCWD_atomic_iff.1 _ _, ?_⟩
  have hrun : Returns (setCWD (str "/home")) (fun _ t => t.vfs.cwd.map File.path = some (str "/home"))
      (mounted [] ⟨3⟩) := by decide +kernel
  obtain ⟨ret, t, hset, hpath⟩ := returns_iff.1 hrun
  have hmoves : Moves Tracer.Enters t := .setCWD (.mount (.start _) _ _) enters_home hset
  exact ⟨t, hmoves, hpath, setCWD_atomic_iff.2 t hmoves⟩

/-- A directory that failed to open is entered, from an opened one a relative name is stored as it is, and the root is
refused. -/
theorem failed_open_entered : Reachable (mounted [] ⟨-2⟩) ∧ (mounted [] ⟨-2⟩).Refuses (str "/none") ∧
    Returns (setCWD (str "/none")) (fun ret t => ret = 0 ∧ t.vfs.cwd.map File.path = some (str "/none"))
      (mounted [] ⟨-2⟩) ∧
    Returns (setCWD (str "/home") >>= fun _ => setCWD (str "./sub"))
      (fun ret t => ret = 0 ∧ t.vfs.cwd.map File.path = some (str "./sub")) (mounted [] ⟨3⟩) ∧
    ¬ AtomicSetCWD (mounted [] ⟨-2⟩) (str "/none") ∧ ¬ AtomicSetCWD (mounted [] ⟨3⟩) (str "/") := by
  have hrefuses : (mounted [] ⟨-2⟩).Refuses (str "/none") := by
    intro p e _ hcov
    rw [(covering_mounted.1 hcov).1]
    exact (by decide : (-2 : Int) < 0)
  have hrun : Returns (setCWD (str "/none"))
      (fun ret t => ret = 0 ∧ t.vfs.cwd.map File.path = some (str "/none")) (mounted [] ⟨-2⟩) := by
    decide +kernel
  have hrelative : Returns (setCWD (str "/home") >>= fun _ => setCWD (str "./sub"))
      (fun ret t => ret = 0 ∧ t.vfs.cwd.map File.path = some (str "./sub")) (mounted [] ⟨3⟩) := by
    decide +kernel
  refine ⟨mounted_reachable _ _, hrefuses, hrun, hrelative, fun h => ?_, fun h => ?_⟩
  · obtain ⟨ret, t, hset, hneg, _⟩ := h.refused hrefuses
    have hzero := ((returns_ok hset).1 hrun).1
    rw [hzero] at hneg
    exact absurd hneg (by decide)
  · have hnone : (mounted [] ⟨3⟩).vfs.getFilesystem (trimSlash (str "/")) = .ok none := by decide +kernel
    have hnot : ¬ (mounted [] ⟨3⟩).Refuses (str "/") := fun href =>
      absurd (href (str "/") (str "/", ⟨3⟩) rfl (covering_mounted.2 ⟨rfl, by decide⟩)) (by decide)
    obtain ⟨t, _, _, _, hset, _⟩ := h.entered hnot
    rw [setCWD_none hnone] at hset
    cases hset

end CodiusSandbox
