import CodiusSandbox.Descriptors
import CodiusSandbox.Lib.Runs
import Mathlib.Data.List.Nodup
/-!
# Calls handled inside calls

`CodiusNodeFilesystem::doVFS` runs the event loop until its reply is there, and the loop runs
`handle_trap`: while an operation of a filesystem is pending, the calls of other threads are handled from
their beginning to their end. `Nested` is the VFS between these moments: the tables, the Files behind
them, and the stack of the handlers that wait.

| here | there |
| --- | --- |
| `Nested.files`    | every `File` there has been; a `File::Ptr` is its index |
| `Pending`         | a handler, or `~File`, in the middle of a filesystem operation |
| `Nested.drop`     | a `File::Ptr` goes away, and with the last of them the File |
| `Nested.finish`   | the reply arrives, and the handler runs on |

`closed` is a ghost log of the Files through which `Filesystem::close` was called. Each File stands for
one descriptor that a `Filesystem::open` returned.
-/
namespace CodiusSandbox

open Runs

abbrev FileId := Nat

inductive Pending (F : Type) where
  /-- `openFile`, in `Filesystem::open`. -/
  | opening (path : Str) (fs : F)
  /-- `setCWD`, in `Filesystem::open`. -/
  | entering (path : Str) (fs : F)
  /-- `do_close`, in `File::close`. -/
  | closing (f : FileId)
  /-- `do_close`, behind `m_openFiles.erase`. -/
  | leaving (f : FileId)
  /-- `~File`, in `File::close`. -/
  | destroying (f : FileId)
  /-- Another operation on an open File. -/
  | working (f : FileId)
  /-- An operation on a path. -/
  | asking

variable {F : Type}

/-- The File that the local `File::Ptr` of a handler keeps. -/
def Pending.holds : Pending F → Option FileId
  | .closing f | .leaving f | .working f => some f
  | _ => none

/-- The File that a pending `do_close` is closing. -/
def Pending.closes : Pending F → Option FileId
  | .closing f => some f
  | _ => none

/-- The File that a `do_close` is done with. -/
def Pending.leaves : Pending F → Option FileId
  | .leaving f => some f
  | _ => none

structure Nested (F : Type) where
  files : List (File F)
  /-- `m_openFiles`. -/
  table : Std.ExtTreeMap Int FileId
  cwd : Option FileId
  nextFD : Int
  /-- The handlers that wait, the innermost first. -/
  stack : List (Pending F)
  closed : List FileId
  /-- `~VFS` has begun. -/
  down : Bool

def Nested.start : Nested F := ⟨[], ∅, none, firstVirtualFD, [], [], false⟩

/-- A table, the current directory or a handler has a pointer to the File. -/
def Nested.Named (s : Nested F) (f : FileId) : Prop :=
  (∃ v : Int, s.table[v]? = some f) ∨ s.cwd = some f ∨ ∃ p ∈ s.stack, p.holds = some f

theorem Nested.inTable_iff {s : Nested F} {f : FileId} :
    (∃ p ∈ s.table.toList, p.2 = f) ↔ ∃ v : Int, s.table[v]? = some f := by
  constructor
  · rintro ⟨⟨v, g⟩, hp, rfl⟩
    exact ⟨v, Std.ExtTreeMap.mem_toList_iff_getElem?_eq_some.1 hp⟩
  · rintro ⟨v, hv⟩
    exact ⟨(v, f), Std.ExtTreeMap.mem_toList_iff_getElem?_eq_some.2 hv, rfl⟩

instance (s : Nested F) (f : FileId) : Decidable (s.Named f) :=
  @instDecidableOr _ _ (decidable_of_iff _ Nested.inTable_iff) inferInstance

/-- The Files that pending `do_close`s are closing. -/
def Nested.closings (s : Nested F) : List FileId := s.stack.filterMap Pending.closes

/-! ## The steps -/

/-- `File::close` (`vfs.cpp:72`) up to its filesystem operation, which `p` waits for. -/
def Nested.closeFile (s : Nested F) (f : FileId) (p : Pending F) : Nested F :=
  { s with stack := p :: s.stack, closed := s.closed ++ [f] }

/-- A pointer to `f` has gone away. Without another one, `~File` closes it. -/
def Nested.drop (s : Nested F) (f : FileId) : Nested F :=
  if s.Named f then s
  else match s.files[f]? with
    | some file => if file.localFD > 0 then s.closeFile f (.destroying f) else s
    | none => s

/-- `m_openFiles.erase (v)`. -/
def Nested.erase (s : Nested F) (v : Int) : Nested F :=
  match s.table[v]? with
  | some f => Nested.drop { s with table := s.table.erase v } f
  | none => s

/-- `do_close` behind `File::close`: the entry under the File's number goes away, then its own pointer. -/
def Nested.leave (s : Nested F) (f : FileId) : Nested F :=
  match s.files[f]? with
  | some file => Nested.erase { s with stack := .leaving f :: s.stack } file.virtualFD
  | none => s

/-- `File::File` (`vfs.cpp:100`). -/
def Nested.newFile (s : Nested F) (localFD : Int) (path : Str) (fs : F) : Nested F :=
  { s with files := s.files ++ [⟨localFD, s.nextFD, path, fs⟩], nextFD := succInt s.nextFD }

/-- `openFile` behind `Filesystem::open` (`vfs.cpp:188-195`). -/
def Nested.opened (s : Nested F) (fd : Int) (path : Str) (fs : F) : Nested F :=
  if fd ≠ 0 then
    Nested.drop { s.newFile fd path fs with table := s.table.insertIfNew s.nextFD s.files.length }
      s.files.length
  else s

/-- `setCWD` behind `Filesystem::open` (`vfs.cpp:364-365`). -/
def Nested.entered (s : Nested F) (fd : Int) (path : Str) (fs : F) : Nested F :=
  match s.cwd with
  | some old => Nested.drop { s.newFile fd path fs with cwd := some s.files.length } old
  | none => { s.newFile fd path fs with cwd := some s.files.length }

/-- The innermost operation ends with `ret`, and its handler runs on. -/
def Nested.finish (s : Nested F) (ret : Int) : Option (Nested F) :=
  match s.stack with
  | [] => none
  | .opening path fs :: rest => some (Nested.opened { s with stack := rest } ret path fs)
  | .entering path fs :: rest => some (Nested.entered { s with stack := rest } ret path fs)
  | .closing f :: rest =>
    some (Nested.leave
      { s with stack := rest, files := s.files.modify f fun file => { file with localFD := -1 } } f)
  | .leaving f :: rest | .working f :: rest => some (Nested.drop { s with stack := rest } f)
  -- the object of `~File` is gone
  | .destroying _ :: rest | .asking :: rest => some { s with stack := rest }

/-- A call is handled now: the loop runs, which it does not between the lines of `do_close`. -/
def Nested.Ready (s : Nested F) : Prop :=
  s.down = false ∧ s.stack.head?.bind Pending.leaves = none

instance (s : Nested F) : Decidable s.Ready := inferInstanceAs (Decidable (_ ∧ _))

inductive Happening (F : Type) where
  /-- `open` or `openat` of a path that resolves. -/
  | open (path : Str) (fs : F)
  /-- `chdir` to a path that resolves, or the first `setCWD`. -/
  | chdir (path : Str) (fs : F)
  | close (v : Int)
  /-- `read`, `write`, `fstat`, `lseek` or `getdents`. -/
  | use (v : Int)
  /-- `access`, `stat`, `lstat` or `readlink`. -/
  | ask
  | finish (ret : Int)
  /-- `~VFS`; `Sandbox::~Sandbox` has stopped the tracing before. -/
  | teardown
  /-- An entry goes away with the table. -/
  | release (v : Int)
  /-- The current directory goes away. -/
  | releaseCwd

/-- `do_close` up to its first filesystem operation. -/
def Nested.beginClose (s : Nested F) (v : Int) : Option (Nested F) :=
  (s.table[v]?).bind fun f => (s.files[f]?).map fun file =>
    if file.localFD > 0 then s.closeFile f (.closing f) else s.leave f

def Nested.act : Happening F → Nested F → Option (Nested F)
  | .open path fs, s => if s.Ready then some { s with stack := .opening path fs :: s.stack } else none
  | .chdir path fs, s => if s.Ready then some { s with stack := .entering path fs :: s.stack } else none
  | .close v, s => if s.Ready then s.beginClose v else none
  | .use v, s =>
    if s.Ready then (s.table[v]?).map fun f => { s with stack := .working f :: s.stack } else none
  | .ask, s => if s.Ready then some { s with stack := .asking :: s.stack } else none
  | .finish ret, s => s.finish ret
  | .teardown, s => if s.stack = [] then some { s with down := true } else none
  | .release v, s => if s.down ∧ s.stack = [] then some (s.erase v) else none
  | .releaseCwd, s =>
    if s.down ∧ s.stack = [] then (s.cwd).map fun f => Nested.drop { s with cwd := none } f else none

/-- No `close` begins while a `do_close` of the same File waits. -/
def Undisturbed : Happening F → Nested F → Prop
  | .close v, s => ∀ f, s.table[v]? = some f → f ∉ s.closings
  | _, _ => True

/-! ## The invariant -/

/-- A File that has been closed has no descriptor any more, or the `do_close` still waits, or nothing
names it. -/
structure Owned (s : Nested F) : Prop where
  once : s.closed.Nodup
  named : ∀ f, s.Named f → f < s.files.length
  logged : ∀ f ∈ s.closed, f < s.files.length
  spent : ∀ f ∈ s.closed, s.Named f → f ∉ s.closings →
    ∀ file, s.files[f]? = some file → file.localFD ≤ 0
  closing : ∀ f ∈ s.closings, f ∈ s.closed ∧ ∀ file, s.files[f]? = some file → 0 < file.localFD
  apart : s.closings.Nodup

variable {s s' : Nested F} {f g : FileId} {v : Int}

theorem owned_start : Owned (.start : Nested F) where
  once := .nil
  named := by
    rintro f (⟨v, hv⟩ | hf | ⟨p, hp, _⟩)
    · simp [Nested.start] at hv
    · cases hf
    · cases hp
  logged := by simp [Nested.start]
  spent := by simp [Nested.start]
  closing := by simp [Nested.start, Nested.closings]
  apart := .nil

theorem Pending.holds_of_closes {p : Pending F} (h : p.closes = some f) : p.holds = some f := by
  cases p with
  | closing => exact h
  | _ => cases h

/-- A pending `do_close` has a pointer. -/
theorem Nested.Named.of_closings (h : f ∈ s.closings) : s.Named f := by
  obtain ⟨p, hp, hf⟩ := List.mem_filterMap.1 h
  exact .inr (.inr ⟨p, hp, Pending.holds_of_closes hf⟩)

/-- Pointers may go away, and handlers come that have no File or one that is named. -/
theorem Owned.mono (h : Owned s) (hfiles : s'.files = s.files) (hclosed : s'.closed = s.closed)
    (hnamed : ∀ f, s'.Named f → s.Named f) (hclosings : s'.closings = s.closings) : Owned s' where
  once := hclosed ▸ h.once
  named := fun f hf => hfiles ▸ h.named f (hnamed f hf)
  logged := by
    rw [hclosed, hfiles]
    exact h.logged
  spent := by
    rw [hclosed, hfiles, hclosings]
    exact fun f hf hn => h.spent f hf (hnamed f hn)
  closing := by
    rw [hclosed, hfiles, hclosings]
    exact h.closing
  apart := hclosings ▸ h.apart

theorem Nested.named_push {p : Pending F} (htable : s'.table = s.table) (hcwd : s'.cwd = s.cwd)
    (hstack : s'.stack = p :: s.stack) : s'.Named g ↔ p.holds = some g ∨ s.Named g := by
  unfold Nested.Named
  rw [htable, hcwd, hstack]
  simp only [List.mem_cons, exists_eq_or_imp]
  tauto

/-- A File whose descriptor has not been closed is closed now, by a handler `p` that waits. -/
theorem Owned.closeFile (h : Owned s) {p : Pending F} (hf : f ∉ s.closed) (hlt : f < s.files.length)
    (hp : p = .closing f ∧ (∀ file, s.files[f]? = some file → 0 < file.localFD) ∨
      p = .destroying f ∧ ¬ s.Named f) : Owned (s.closeFile f p) := by
  have honce : (s.closed ++ [f]).Nodup := by
    rw [← List.concat_eq_append, List.nodup_concat]
    exact ⟨hf, h.once⟩
  have hlogged : ∀ g ∈ s.closed ++ [f], g < s.files.length := by
    intro g hg
    rcases List.mem_append.1 hg with hg | hg
    · exact h.logged g hg
    · exact List.mem_singleton.1 hg ▸ hlt
  have hpush : ∀ g, (s.closeFile f p).Named g ↔ p.holds = some g ∨ s.Named g :=
    fun g => Nested.named_push rfl rfl rfl
  rcases hp with ⟨rfl, hpos⟩ | ⟨rfl, hgone⟩
  · refine ⟨honce, ?_, hlogged, ?_, ?_, ?_⟩
    · intro g hg
      rcases (hpush g).1 hg with hg | hg
      · cases hg
        exact hlt
      · exact h.named g hg
    · intro g hg hn hc file hfile
      have hne : g ≠ f := by
        rintro rfl
        exact hc List.mem_cons_self
      have hlog : g ∈ s.closed := (List.mem_append.1 hg).resolve_right fun hg => hne (List.mem_singleton.1 hg)
      have hname : s.Named g := ((hpush g).1 hn).resolve_left fun hg => hne (Option.some.inj hg).symm
      exact h.spent g hlog hname (fun hc' => hc (List.mem_cons_of_mem _ hc')) file hfile
    · intro g hg
      rcases List.mem_cons.1 hg with rfl | hg
      · exact ⟨List.mem_append_right _ List.mem_cons_self, hpos⟩
      · exact ⟨List.mem_append_left _ (h.closing g hg).1, (h.closing g hg).2⟩
    · exact List.nodup_cons.2 ⟨fun hc => hf (h.closing f hc).1, h.apart⟩
  · have hnamed : ∀ g, (s.closeFile f (.destroying f)).Named g → s.Named g :=
      fun g hg => ((hpush g).1 hg).resolve_left nofun
    refine ⟨honce, fun g hg => h.named g (hnamed g hg), hlogged, ?_, ?_, h.apart⟩
    · intro g hg hn hc
      rcases List.mem_append.1 hg with hg | hg
      · exact h.spent g hg (hnamed g hn) hc
      · rw [List.mem_singleton.1 hg] at hn
        exact absurd (hnamed f hn) hgone
    · exact fun g hg => ⟨List.mem_append_left _ (h.closing g hg).1, (h.closing g hg).2⟩

/-- The last pointer to a File goes away. -/
theorem Owned.drop (h : Owned s)
    (hf : f ∈ s.closed → ¬ s.Named f → ∀ file, s.files[f]? = some file → file.localFD ≤ 0) :
    Owned (s.drop f) := by
  unfold Nested.drop
  split
  · exact h
  · rename_i hn
    split
    · rename_i file hfile
      split
      · rename_i hpos
        refine h.closeFile (fun hc => ?_) (List.getElem?_eq_some_iff.1 hfile).1 (.inr ⟨rfl, hn⟩)
        have hle := hf hc hn file hfile
        omega
      · exact h
    · exact h

/-- A pointer to a File goes away, with or without others. -/
theorem Owned.release (h : Owned s) (hfiles : s'.files = s.files) (hclosed : s'.closed = s.closed)
    (hnamed : ∀ f, s'.Named f → s.Named f) (hclosings : s'.closings = s.closings) (hf : s.Named f) :
    Owned (s'.drop f) := by
  refine (h.mono hfiles hclosed hnamed hclosings).drop fun hc hn => ?_
  rw [hfiles]
  rw [hclosed] at hc
  refine h.spent f hc hf fun hmem => hn ?_
  exact .of_closings (hclosings ▸ hmem)

/-- A handler waits that has no File, or one that is named. -/
theorem Owned.push (h : Owned s) {p : Pending F} (hcloses : p.closes = none)
    (hholds : ∀ g, p.holds = some g → s.Named g) : Owned { s with stack := p :: s.stack } := by
  refine h.mono rfl rfl (fun g hg => ?_) (List.filterMap_cons_none hcloses)
  have hpush : Nested.Named { s with stack := p :: s.stack } g ↔ p.holds = some g ∨ s.Named g :=
    Nested.named_push rfl rfl rfl
  rcases hpush.1 hg with hg | hg
  · exact hholds g hg
  · exact hg

theorem Owned.erase (h : Owned s) : Owned (s.erase v) := by
  unfold Nested.erase
  split
  · rename_i f hf
    refine h.release rfl rfl (fun g hg => ?_) rfl (.inl ⟨v, hf⟩)
    rcases hg with ⟨w, hw⟩ | hg
    · dsimp only at hw
      rw [Std.ExtTreeMap.getElem?_erase] at hw
      split at hw
      · cases hw
      · exact .inl ⟨w, hw⟩
    · exact .inr hg
  · exact h

/-- A File comes. -/
theorem Owned.create (h : Owned s) {file : File F} (hfiles : s'.files = s.files ++ [file])
    (hclosed : s'.closed = s.closed) (hnamed : ∀ f, s'.Named f → s.Named f ∨ f = s.files.length)
    (hclosings : s'.closings = s.closings) : Owned s' := by
  have hold : ∀ f < s.files.length, s'.files[f]? = s.files[f]? := by
    intro f hf
    rw [hfiles, List.getElem?_append_left hf]
  have hmore : ∀ f, f ≤ s.files.length → f < s'.files.length := by
    intro f hf
    rw [hfiles, List.length_append]
    exact Nat.lt_succ_of_le hf
  refine ⟨hclosed ▸ h.once, fun f hf => ?_, fun f hf => ?_, ?_, ?_, hclosings ▸ h.apart⟩
  · rcases hnamed f hf with hf | rfl
    · exact hmore f (Nat.le_of_lt (h.named f hf))
    · exact hmore _ (Nat.le_refl _)
  · rw [hclosed] at hf
    exact hmore f (Nat.le_of_lt (h.logged f hf))
  · rw [hclosed, hclosings]
    intro f hf hn hc
    have hlt := h.logged f hf
    rw [hold f hlt]
    exact h.spent f hf ((hnamed f hn).resolve_right (Nat.ne_of_lt hlt)) hc
  · rw [hclosed, hclosings]
    intro f hf
    rw [hold f (h.logged f (h.closing f hf).1)]
    exact h.closing f hf

theorem Owned.opened (h : Owned s) {fd : Int} {path : Str} {fs : F} : Owned (s.opened fd path fs) := by
  unfold Nested.opened
  split
  · refine Owned.drop (h.create rfl rfl (fun g hg => ?_) rfl) fun hc => ?_
    · rcases hg with ⟨w, hw⟩ | hg
      · dsimp only at hw
        rw [Std.ExtTreeMap.getElem?_insertIfNew] at hw
        split at hw
        · exact .inr (Option.some.inj hw).symm
        · exact .inl (.inl ⟨w, hw⟩)
      · exact .inl (.inr hg)
    · exact absurd (h.logged _ hc) (Nat.lt_irrefl _)
  · exact h

theorem Owned.entered (h : Owned s) {fd : Int} {path : Str} {fs : F} : Owned (s.entered fd path fs) := by
  have hnew : Owned { s.newFile fd path fs with cwd := some s.files.length } := by
    refine h.create rfl rfl (fun g hg => ?_) rfl
    rcases hg with hg | hg | hg
    · exact .inl (.inl hg)
    · exact .inr (Option.some.inj hg).symm
    · exact .inl (.inr (.inr hg))
  unfold Nested.entered
  split
  · rename_i old hold
    have hnamed : s.Named old := .inr (.inl hold)
    refine hnew.drop fun hc hn file hfile => ?_
    refine h.spent old hc hnamed (fun hmem => hn (.of_closings hmem)) file ?_
    rwa [Nested.newFile, List.getElem?_append_left (h.named old hnamed)] at hfile
  · exact hnew

/-- `m_localFD = -1` behind the filesystem operation of `do_close`. -/
theorem Owned.closed (h : Owned s) {rest : List (Pending F)} (hstack : s.stack = .closing f :: rest) :
    Owned { s with
      stack := .leaving f :: rest
      files := s.files.modify f fun file => { file with localFD := -1 } } := by
  have hclosings : s.closings = f :: rest.filterMap Pending.closes := by
    rw [Nested.closings, hstack]
    rfl
  have hf : f ∈ s.closings := hclosings ▸ List.mem_cons_self
  have hother : ∀ g ∈ rest.filterMap Pending.closes, g ∈ s.closings ∧ g ≠ f := by
    intro g hg
    refine ⟨hclosings ▸ List.mem_cons_of_mem _ hg, ?_⟩
    rintro rfl
    exact (List.nodup_cons.1 (hclosings ▸ h.apart)).1 hg
  refine ⟨h.once, fun g hg => ?_, fun g hg => ?_, fun g hg hn hc file hfile => ?_, fun g hg => ?_, ?_⟩
  · rw [List.length_modify]
    refine h.named g ?_
    rcases hg with hg | hg | ⟨p, hp, hg⟩
    · exact .inl hg
    · exact .inr (.inl hg)
    · rcases List.mem_cons.1 hp with rfl | hp
      · cases hg
        exact .of_closings hf
      · exact .inr (.inr ⟨p, hstack ▸ List.mem_cons_of_mem _ hp, hg⟩)
  · rw [List.length_modify]
    exact h.logged g hg
  · dsimp only at hfile
    rw [List.getElem?_modify] at hfile
    obtain ⟨x, hx, rfl⟩ := Option.map_eq_some_iff.1 hfile
    split
    · exact (by decide : (-1 : Int) ≤ 0)
    · rename_i hne
      refine h.spent g hg ?_ (fun hmem => ?_) x hx
      · rcases hn with hn | hn | ⟨p, hp, hn⟩
        · exact .inl hn
        · exact .inr (.inl hn)
        · rcases List.mem_cons.1 hp with rfl | hp
          · exact absurd (Option.some.inj hn) hne
          · exact .inr (.inr ⟨p, hstack ▸ List.mem_cons_of_mem _ hp, hn⟩)
      · rw [hclosings] at hmem
        exact hc ((List.mem_cons.1 hmem).resolve_left (Ne.symm hne))
  · obtain ⟨hg, hne⟩ := hother g hg
    refine ⟨(h.closing g hg).1, fun file hfile => (h.closing g hg).2 file ?_⟩
    dsimp only at hfile
    rwa [List.getElem?_modify_ne _ _ (Ne.symm hne)] at hfile
  · exact (List.nodup_cons.1 (hclosings ▸ h.apart)).2

theorem Owned.leave (h : Owned { s with stack := .leaving f :: s.stack }) : Owned (s.leave f) := by
  have hlt : f < s.files.length := h.named f (.inr (.inr ⟨_, List.mem_cons_self, rfl⟩))
  rw [Nested.leave, List.getElem?_eq_getElem hlt]
  exact h.erase

/-- The innermost handler goes away with its pointer. -/
theorem Owned.pop (h : Owned s) {p : Pending F} {rest : List (Pending F)} (hstack : s.stack = p :: rest)
    (hcloses : p.closes = none) (hf : p.holds = some f) : Owned (Nested.drop { s with stack := rest } f) := by
  have hpush : ∀ g, s.Named g ↔ p.holds = some g ∨ Nested.Named { s with stack := rest } g :=
    fun g => Nested.named_push rfl rfl hstack
  refine h.release rfl rfl (fun g hg => (hpush g).2 (.inr hg)) ?_ ((hpush f).2 (.inl hf))
  rw [Nested.closings, Nested.closings, hstack, List.filterMap_cons_none hcloses]

/-- The innermost handler, which has no pointer, runs on. -/
theorem Owned.tail (h : Owned s) {p : Pending F} {rest : List (Pending F)} (hstack : s.stack = p :: rest)
    (hcloses : p.closes = none) : Owned { s with stack := rest } := by
  refine h.mono rfl rfl (fun g hg => ?_) ?_
  · have hpush : s.Named g ↔ p.holds = some g ∨ Nested.Named { s with stack := rest } g :=
      Nested.named_push rfl rfl hstack
    exact hpush.2 (.inr hg)
  · rw [Nested.closings, Nested.closings, hstack, List.filterMap_cons_none hcloses]

theorem Owned.finish (h : Owned s) {ret : Int} (hs : s.finish ret = some s') : Owned s' := by
  unfold Nested.finish at hs
  split at hs
  · cases hs
  · rename_i path fs rest hstack
    cases hs
    exact (h.tail hstack rfl).opened
  · rename_i path fs rest hstack
    cases hs
    exact (h.tail hstack rfl).entered
  · rename_i f rest hstack
    cases hs
    exact Owned.leave (h.closed hstack)
  · rename_i f rest hstack
    cases hs
    exact h.pop hstack rfl rfl
  · rename_i f rest hstack
    cases hs
    exact h.pop hstack rfl rfl
  · rename_i f rest hstack
    cases hs
    exact h.tail hstack rfl
  · rename_i rest hstack
    cases hs
    exact h.tail hstack rfl

theorem Owned.beginClose (h : Owned s) (hv : ∀ f, s.table[v]? = some f → f ∉ s.closings)
    (hs : s.beginClose v = some s') : Owned s' := by
  rw [Nested.beginClose, Option.bind_eq_some_iff] at hs
  obtain ⟨f, hf, hs⟩ := hs
  obtain ⟨file, hfile, rfl⟩ := Option.map_eq_some_iff.1 hs
  have hnamed : s.Named f := .inl ⟨v, hf⟩
  split
  · rename_i hpos
    have hnew : f ∉ s.closed := fun hc => absurd (h.spent f hc hnamed (hv f hf) file hfile) (by omega)
    refine h.closeFile hnew (h.named f hnamed) (.inl ⟨rfl, fun x hx => ?_⟩)
    rw [hfile] at hx
    cases hx
    exact hpos
  · refine Owned.leave (h.push rfl fun g hg => ?_)
    exact Option.some.inj hg ▸ hnamed

/-- Each step keeps the invariant, unless it is a second `close` of the same File. -/
theorem Owned.act {e : Happening F} (h : Owned s) (hc : Undisturbed e s) (hs : Nested.act e s = some s') :
    Owned s' := by
  cases e with
  | «open» path fs =>
    obtain ⟨_, hs⟩ := Option.ite_none_right_eq_some.1 hs
    cases hs
    exact h.push rfl nofun
  | chdir path fs =>
    obtain ⟨_, hs⟩ := Option.ite_none_right_eq_some.1 hs
    cases hs
    exact h.push rfl nofun
  | close v =>
    obtain ⟨_, hs⟩ := Option.ite_none_right_eq_some.1 hs
    exact h.beginClose hc hs
  | use v =>
    obtain ⟨_, hs⟩ := Option.ite_none_right_eq_some.1 hs
    obtain ⟨f, hf, rfl⟩ := Option.map_eq_some_iff.1 hs
    exact h.push rfl fun g hg => Option.some.inj hg ▸ .inl ⟨v, hf⟩
  | ask =>
    obtain ⟨_, hs⟩ := Option.ite_none_right_eq_some.1 hs
    cases hs
    exact h.push rfl nofun
  | finish ret => exact h.finish hs
  | teardown =>
    obtain ⟨_, hs⟩ := Option.ite_none_right_eq_some.1 hs
    cases hs
    exact h.mono rfl rfl (fun _ hg => hg) rfl
  | release v =>
    obtain ⟨_, hs⟩ := Option.ite_none_right_eq_some.1 hs
    cases hs
    exact h.erase
  | releaseCwd =>
    obtain ⟨_, hs⟩ := Option.ite_none_right_eq_some.1 hs
    obtain ⟨f, hf, rfl⟩ := Option.map_eq_some_iff.1 hs
    refine h.release rfl rfl (fun g hg => ?_) rfl (.inr (.inl hf))
    rcases hg with hg | hg | hg
    · exact .inl hg
    · cases hg
    · exact .inr (.inr hg)

/-! ## Nothing leaves the log -/

theorem Nested.drop_closed (h : s'.closed = s.closed) : s.closed <+: (s'.drop f).closed := by
  rw [← h]
  unfold Nested.drop
  split
  · exact List.prefix_rfl
  · split
    · split
      · exact List.prefix_append _ _
      · exact List.prefix_rfl
    · exact List.prefix_rfl

theorem Nested.erase_closed (h : s'.closed = s.closed) : s.closed <+: (s'.erase v).closed := by
  unfold Nested.erase
  split
  · exact Nested.drop_closed h
  · exact h ▸ List.prefix_rfl

theorem Nested.leave_closed (h : s'.closed = s.closed) : s.closed <+: (s'.leave f).closed := by
  unfold Nested.leave
  split
  · exact Nested.erase_closed h
  · exact h ▸ List.prefix_rfl

theorem Nested.finish_closed {ret : Int} (hs : s.finish ret = some s') : s.closed <+: s'.closed := by
  unfold Nested.finish at hs
  split at hs
  · cases hs
  · cases hs
    unfold Nested.opened
    split
    · exact Nested.drop_closed rfl
    · exact List.prefix_rfl
  · cases hs
    unfold Nested.entered
    split
    · exact Nested.drop_closed rfl
    · exact List.prefix_rfl
  · cases hs
    exact Nested.leave_closed rfl
  · cases hs
    exact Nested.drop_closed rfl
  · cases hs
    exact Nested.drop_closed rfl
  · cases hs
    exact List.prefix_rfl
  · cases hs
    exact List.prefix_rfl

theorem Nested.act_closed {e : Happening F} (hs : Nested.act e s = some s') : s.closed <+: s'.closed := by
  cases e with
  | finish ret => exact Nested.finish_closed hs
  | close v =>
    obtain ⟨_, hs⟩ := Option.ite_none_right_eq_some.1 hs
    rw [Nested.beginClose, Option.bind_eq_some_iff] at hs
    obtain ⟨f, _, hs⟩ := hs
    obtain ⟨file, _, rfl⟩ := Option.map_eq_some_iff.1 hs
    split
    · exact List.prefix_append _ _
    · exact Nested.leave_closed rfl
  | release v =>
    obtain ⟨_, hs⟩ := Option.ite_none_right_eq_some.1 hs
    cases hs
    exact Nested.erase_closed rfl
  | releaseCwd =>
    obtain ⟨_, hs⟩ := Option.ite_none_right_eq_some.1 hs
    obtain ⟨f, _, rfl⟩ := Option.map_eq_some_iff.1 hs
    exact Nested.drop_closed rfl
  | use v =>
    obtain ⟨_, hs⟩ := Option.ite_none_right_eq_some.1 hs
    obtain ⟨f, _, rfl⟩ := Option.map_eq_some_iff.1 hs
    exact List.prefix_rfl
  | «open» | chdir | ask | teardown =>
    obtain ⟨_, hs⟩ := Option.ite_none_right_eq_some.1 hs
    cases hs
    exact List.prefix_rfl

/-- A second `close` reaches the filesystem. -/
theorem Owned.disturbed {e : Happening F} (h : Owned s) (hc : ¬ Undisturbed e s)
    (hs : Nested.act e s = some s') : ¬ s'.closed.Nodup := by
  cases e with
  | close v =>
    obtain ⟨f, hf, hmem⟩ : ∃ f, s.table[v]? = some f ∧ f ∈ s.closings := by
      simpa [Undisturbed] using hc
    obtain ⟨hlog, hpos⟩ := h.closing f hmem
    obtain ⟨_, hs⟩ := Option.ite_none_right_eq_some.1 hs
    rw [Nested.beginClose, hf, Option.bind_some] at hs
    obtain ⟨file, hfile, rfl⟩ := Option.map_eq_some_iff.1 hs
    rw [if_pos (hpos file hfile)]
    intro hd
    rw [Nested.closeFile, ← List.concat_eq_append, List.nodup_concat] at hd
    exact hd.1 hlog
  | _ => exact absurd trivial hc

/-- In any run of calls, replies and the teardown, `Filesystem::close` is called at most once for each
descriptor exactly when no `close` begins while a `do_close` of the same File waits for its reply. -/
theorem closed_once_iff {es : List (Happening F)} (h : after Nested.act es .start = some s) :
    s.closed.Nodup ↔ Meets Nested.act Undisturbed es .start := by
  refine after_iff (C := Undisturbed) (I := Owned) (G := fun s => s.closed.Nodup) ?_ ?_ ?_ ?_ owned_start h
  · exact fun _ hs => hs.once
  · exact fun _ _ _ hs hc ha => hs.act hc ha
  · exact fun _ _ _ hs hc ha => hs.disturbed hc ha
  · exact fun _ _ _ hn ha hd => hn ((Nested.act_closed ha).sublist.nodup hd)

/-- While one thread closes a descriptor, another opens a file, and the filesystem has 5 for it again; a
third closes the first descriptor once more. -/
def closedTwice : List (Happening Unit) :=
  [.open (str "/a") (), .finish 5, .close 4096, .open (str "/b") (), .finish 5, .close 4096]

/-- One file, closed, and the teardown. -/
def closedOnce : List (Happening Unit) :=
  [.open (str "/a") (), .finish 5, .close 4096, .finish 0, .finish 0, .teardown]

/-- Both closes are of descriptor 5, which is that of the second file by now. -/
theorem closes_reused_descriptor : ∃ s, after Nested.act closedTwice .start = some s ∧
    s.files.map File.localFD = [5, 5] ∧ s.closed = [0, 0] ∧ ¬ s.closed.Nodup := by
  have h : (after Nested.act closedTwice .start).map (fun s => (s.files.map File.localFD, s.closed)) =
      some ([5, 5], [0, 0]) := by decide +kernel
  obtain ⟨s, hs, heq⟩ := Option.map_eq_some_iff.1 h
  obtain ⟨hfiles, hclosed⟩ := Prod.mk.inj heq
  refine ⟨s, hs, hfiles, hclosed, ?_⟩
  rw [hclosed]
  decide

theorem closed_once_teardown : ∃ s, after Nested.act closedOnce .start = some s ∧
    (s.closed.Nodup ↔ Meets Nested.act Undisturbed closedOnce .start) := by
  have h : (after Nested.act closedOnce .start).isSome := by decide +kernel
  obtain ⟨s, hs⟩ := Option.isSome_iff_exists.1 h
  exact ⟨s, hs, closed_once_iff hs⟩

end CodiusSandbox
