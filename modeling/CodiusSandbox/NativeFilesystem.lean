import CodiusSandbox.Lib.Lexical
import CodiusSandbox.Resolution
/-!
# `NativeFilesystem` (`native-filesystem.cpp`)

| here | there |
| --- | --- |
| `NativeFilesystem`                | the class (`native-filesystem.h:11`); `m_openFiles` is never used |
| the instance of `Filesystem`      | its member functions |
| `Libc`                            | the C library's functions of the same names |

`open` puts the root in front of the name; `access`, `stat`, `lstat` and `readlink` hand the name on
as it is. `Os.paths` is a ghost log of the paths the operating system is given.
-/
namespace CodiusSandbox

open Lexical

/-! ## The class -/

/-- The functions of the C library that `NativeFilesystem` calls. -/
class Libc (W : Type) where
  cOpen : Str → Int → Int → StateM (Host W) Int
  cClose : Int → StateM (Host W) Int
  cRead : Int → Buffer → Nat → StateM (Host W) (Int × Buffer)
  cFstat : Int → Buffer → StateM (Host W) (Int × Buffer)
  cGetdents : Int → Buffer → Nat → StateM (Host W) (Int × Buffer)
  cLseek : Int → Int → Int → StateM (Host W) Int
  cWrite : Int → Buffer → Nat → StateM (Host W) Int
  cAccess : Str → Int → StateM (Host W) Int
  cStat : Str → Buffer → StateM (Host W) (Int × Buffer)
  cLstat : Str → Buffer → StateM (Host W) (Int × Buffer)
  cReadlink : Str → Buffer → Nat → StateM (Host W) (Int × Buffer)

/-- The operating system, and the paths it has been given. -/
structure Os (W : Type) where
  world : W
  paths : List Str

structure NativeFilesystem (W : Type) where
  /-- `m_root`. -/
  root : Str
deriving DecidableEq

variable {W α : Type}

/-- A call of the C library about the files in `given`. -/
def libc (given : List Str) (op : StateM (Host W) α) : StateM (Host (Os W)) α := fun h =>
  let (a, h') := op.run ⟨h.errno, h.world.world⟩
  (a, ⟨h'.errno, ⟨h'.world, h.world.paths ++ given⟩⟩)

instance [Libc W] : Filesystem (NativeFilesystem W) (Os W) where
  fsOpen fs name flags mode :=
    let newName := fs.root ++ slash :: name
    libc [newName] (Libc.cOpen newName flags mode)
  fsRead _ fd buf count := libc [] (Libc.cRead fd buf count)
  fsClose _ fd := libc [] (Libc.cClose fd)
  fsFstat _ fd buf := libc [] (Libc.cFstat fd buf)
  fsGetdents _ fd dirs count := libc [] (Libc.cGetdents fd dirs count)
  fsLseek _ fd offset whence := libc [] (Libc.cLseek fd offset whence)
  fsWrite _ fd buf count := libc [] (Libc.cWrite fd buf count)
  fsAccess _ name mode := libc [name] (Libc.cAccess name mode)
  fsStat _ name buf := libc [name] (Libc.cStat name buf)
  fsLstat _ name buf := libc [name] (Libc.cLstat name buf)
  fsReadlink _ name buf bufsize := libc [name] (Libc.cReadlink name buf bufsize)

/-! ## Where a path leads -/

/-- A component of a path: empty ones and `.` lead nowhere, `..` leads up. -/
def component (c : Str) : Component Str :=
  if c = [] ∨ c = [dot] then .stay else if c = [dot, dot] then .up else .down c

def components (p : Str) : List (Component Str) := (p.splitOn slash).map component

/-- The directory `p` is walked from, when the process is in `cwd`. -/
def origin (cwd : List Str) (p : Str) : List Str := if p.head? = some slash then [] else cwd

/-- The file `p` names, symbolic links left out. -/
def resolve (cwd : List Str) (p : Str) : List Str := walk (origin cwd p) (components p)

theorem components_join (p q : Str) : components (p ++ slash :: q) = components p ++ components q := by
  simp [components, List.splitOn_append_cons_self]

theorem origin_join (cwd : List Str) (p q : Str) :
    origin cwd (p ++ slash :: q) = origin cwd (p ++ [slash]) := by
  cases p with
  | nil => rfl
  | cons a p => rfl

/-- A name behind a directory is walked from that directory. -/
theorem resolve_join (cwd : List Str) (p q : Str) :
    resolve cwd (p ++ slash :: q) = walk (resolve cwd (p ++ [slash])) (components q) := by
  have hnil : components [] = [Component.stay] := by decide
  unfold resolve
  rw [components_join, components_join, hnil, origin_join, walk_append, walk_append, walk_singleton]
  rfl

/-- A slash behind a path changes nothing. -/
theorem resolve_slash {cwd : List Str} {p : Str} (hp : p ≠ []) :
    resolve cwd (p ++ [slash]) = resolve cwd p := by
  have horigin : origin cwd (p ++ [slash]) = origin cwd p := by
    cases p with
    | nil => exact absurd rfl hp
    | cons a p => rfl
  have hnil : components [] = [Component.stay] := by decide
  unfold resolve
  rw [horigin, components_join, hnil, walk_append, walk_singleton]
  rfl

/-! ## What the operating system is asked about -/

/-- The operations on a name, with their other arguments. -/
inductive PathOp where
  | open (flags mode : Int)
  | access (mode : Int)
  | stat (buf : Buffer)
  | lstat (buf : Buffer)
  | readlink (buf : Buffer) (bufsize : Nat)

def PathOp.perform {F W : Type} [Filesystem F W] (fs : F) (name : Str) : PathOp → StateM (Host W) Int
  | .open flags mode => Filesystem.fsOpen fs name flags mode
  | .access mode => Filesystem.fsAccess fs name mode
  | .stat buf => Prod.fst <$> Filesystem.fsStat fs name buf
  | .lstat buf => Prod.fst <$> Filesystem.fsLstat fs name buf
  | .readlink buf bufsize => Prod.fst <$> Filesystem.fsReadlink fs name buf bufsize

/-- From `h`, `x` hands the operating system one path. -/
def HandsOver (x : StateM (Host (Os W)) α) (p : Str) (h : Host (Os W)) : Prop :=
  (x.run h).2.world.paths = h.world.paths ++ [p]

/-- Every operation on `name` is about one and the same file, which is the root or lies below. -/
def Confines [Libc W] (fs : NativeFilesystem W) (cwd : List Str) (name : Str) (h : Host (Os W)) : Prop :=
  ∃ path : PathOp → Str, (∀ op, HandsOver (op.perform fs name) (path op) h) ∧
    (∀ op, resolve cwd fs.root <+: resolve cwd (path op)) ∧
    ∀ op op', resolve cwd (path op) = resolve cwd (path op')

theorem HandsOver.unique {x : StateM (Host (Os W)) α} {p q : Str} {h : Host (Os W)}
    (hp : HandsOver x p h) (hq : HandsOver x q h) : p = q := by
  have hpq : h.world.paths ++ [p] = h.world.paths ++ [q] := hp.symm.trans hq
  simpa using hpq

section
variable [Libc W] {fs : NativeFilesystem W} {cwd : List Str} {name : Str} {h : Host (Os W)}

theorem open_handsOver (flags mode : Int) :
    HandsOver (PathOp.perform fs name (.open flags mode)) (fs.root ++ slash :: name) h := rfl

/-- Of the five operations only `open` looks at the root. -/
theorem perform_handsOver (op : PathOp) (hop : ∀ flags mode, op ≠ .open flags mode) :
    HandsOver (op.perform fs name) name h := by
  cases op with
  | «open» flags mode => exact absurd rfl (hop flags mode)
  | access mode => rfl
  | stat buf => rfl
  | lstat buf => rfl
  | readlink buf bufsize => rfl

omit [Libc W] in
/-- `open` stays below the root exactly if the name descends again what it climbed above it. -/
theorem open_below_iff (hr : fs.root ≠ []) :
    resolve cwd fs.root <+: resolve cwd (fs.root ++ slash :: name) ↔
      (resolve cwd fs.root).drop ((resolve cwd fs.root).length - climbs (components name)) <+:
        descent (components name) := by
  rw [resolve_join, resolve_slash hr, prefix_walk_iff]

/-- The name leads to one place from the root and on its own, and that place is the root or below:
an absolute name climbs to the top and descends through the root; a relative one climbs to where
the root and the current directory meet, and descends into the root. -/
def LeadsBack (root : Str) (cwd : List Str) (name : Str) : Prop :=
  if name.head? = some slash then
    (resolve cwd (root ++ [slash])).length ≤ climbs (components name) ∧
      resolve cwd root <+: descent (components name)
  else
    above (climbs (components name)) (resolve cwd (root ++ [slash])) =
        above (climbs (components name)) cwd ∧
      resolve cwd root <+: above (climbs (components name)) cwd ++ descent (components name)

omit [Libc W] in
theorem leadsBack_iff : LeadsBack fs.root cwd name ↔
    resolve cwd (fs.root ++ slash :: name) = resolve cwd name ∧
      resolve cwd fs.root <+: resolve cwd name := by
  have hname : resolve cwd name = above (climbs (components name)) (origin cwd name) ++
      descent (components name) := walk_eq _ _
  have hsame : resolve cwd (fs.root ++ slash :: name) = resolve cwd name ↔
      above (climbs (components name)) (resolve cwd (fs.root ++ [slash])) =
        above (climbs (components name)) (origin cwd name) := by
    rw [resolve_join]
    exact walk_eq_walk_iff
  rw [hsame, hname]
  unfold LeadsBack origin
  split
  · rw [above_nil, above_eq_nil, List.nil_append]
  · rfl

theorem native_confined_iff : Confines fs cwd name h ↔ LeadsBack fs.root cwd name := by
  rw [leadsBack_iff]
  constructor
  · rintro ⟨path, hands, below, same⟩
    have hopen : path (.open 0 0) = fs.root ++ slash :: name :=
      (hands (.open 0 0)).unique (open_handsOver 0 0)
    have haccess : path (.access 0) = name :=
      (hands (.access 0)).unique (perform_handsOver (.access 0) fun _ _ => nofun)
    constructor
    · rw [← hopen, same (.open 0 0) (.access 0), haccess]
    · have hbelow := below (.access 0)
      rw [haccess] at hbelow
      exact hbelow
  · rintro ⟨hopen, hback⟩
    let path : PathOp → Str := fun op => match op with
      | .open _ _ => fs.root ++ slash :: name
      | _ => name
    have hpath : ∀ op, HandsOver (op.perform fs name) (path op) h ∧
        resolve cwd (path op) = resolve cwd name := by
      intro op
      cases op with
      | «open» flags mode => exact ⟨open_handsOver flags mode, hopen⟩
      | access mode => exact ⟨perform_handsOver (.access mode) fun _ _ => nofun, rfl⟩
      | stat buf => exact ⟨perform_handsOver (.stat buf) fun _ _ => nofun, rfl⟩
      | lstat buf => exact ⟨perform_handsOver (.lstat buf) fun _ _ => nofun, rfl⟩
      | readlink buf n => exact ⟨perform_handsOver (.readlink buf n) fun _ _ => nofun, rfl⟩
    refine ⟨path, fun op => (hpath op).1, fun op => ?_, fun op op' => ?_⟩
    · rw [(hpath op).2]
      exact hback
    · rw [(hpath op).2, (hpath op').2]

end

/-! ## A run that leaves the root -/

/-- A host on which every call fails. -/
instance : Libc Unit where
  cOpen _ _ _ := pure (-1)
  cClose _ := pure (-1)
  cRead _ buf _ := pure (-1, buf)
  cFstat _ buf := pure (-1, buf)
  cGetdents _ buf _ := pure (-1, buf)
  cLseek _ _ _ := pure (-1)
  cWrite _ _ _ := pure (-1)
  cAccess _ _ := pure (-1)
  cStat _ buf := pure (-1, buf)
  cLstat _ buf := pure (-1, buf)
  cReadlink _ buf _ := pure (-1, buf)

/-- The directory `/srv` of the host, mounted at `/`. -/
def srv (bytes : Str) : Tracer (NativeFilesystem Unit) (Os Unit) :=
  { Tracer.start ⟨(page bytes).mem, 0, ⟨(), []⟩, [], fun _ => 0, 2 ^ 32⟩ with
    vfs := VFS.empty.mountFilesystem (str "/") ⟨str "/srv"⟩ }

/-- `access ("/etc/passwd")` is about the host's own file, and `open ("/../etc/passwd")` too. -/
theorem native_leaves_root :
    Reachable (srv (str "/../etc/passwd")) ∧
      Asks [(⟨str "/srv"⟩, str "/etc/passwd")] (handleSyscall (.of SYS_access [3]))
        (srv (str "/../etc/passwd")) ∧
      Asks [(⟨str "/srv"⟩, str "/../etc/passwd")] (handleSyscall (.of SYS_open [0]))
        (srv (str "/../etc/passwd")) ∧
      (∀ h, ¬ Confines (⟨str "/srv"⟩ : NativeFilesystem Unit) [] (str "/etc/passwd") h) ∧
      ∀ h, ¬ Confines (⟨str "/srv"⟩ : NativeFilesystem Unit) [] (str "/../etc/passwd") h := by
  refine ⟨.step (.start _) (.mount _ _ _), ?_, ?_, fun h => ?_, fun h => ?_⟩
  · have hpath : HoldsPath (srv (str "/../etc/passwd")).mem 3 (str "/etc/passwd") := by decide +kernel
    have hask : pathQuestions (srv (str "/../etc/passwd")) (.of SYS_access [3]) =
        [(⟨str "/srv"⟩, str "/etc/passwd")] := by decide +kernel
    rw [← hask]
    exact handleSyscall_asks (by decide) (hpath.readable (by decide +kernel))
  · have hpath : HoldsPath (srv (str "/../etc/passwd")).mem 0 (str "/../etc/passwd") := by
      decide +kernel
    have hask : pathQuestions (srv (str "/../etc/passwd")) (.of SYS_open [0]) =
        [(⟨str "/srv"⟩, str "/../etc/passwd")] := by decide +kernel
    rw [← hask]
    exact handleSyscall_asks (by decide) (hpath.readable (by decide +kernel))
  · rintro ⟨path, hands, below, _⟩
    have hpath : path (.access 0) = str "/etc/passwd" :=
      (hands (.access 0)).unique (perform_handsOver (.access 0) fun _ _ => nofun)
    have hbelow := below (.access 0)
    rw [hpath] at hbelow
    exact absurd hbelow (by decide)
  · rintro ⟨path, hands, below, _⟩
    have hpath : path (.open 0 0) = str "/srv" ++ slash :: str "/../etc/passwd" :=
      (hands (.open 0 0)).unique (open_handsOver 0 0)
    have hbelow := below (.open 0 0)
    rw [hpath] at hbelow
    exact absurd hbelow (by decide)

end CodiusSandbox
