import CodiusSandbox.OpenFile
/-!
# The descriptors of all sandboxes

Every VFS of the host takes the numbers of its Files from `File::s_nextFD`. `Hosts` is that counter with
the tables of all of them; the calls of their children come one at a time and in any order. Until the
counter wraps, the numbers in the tables are those of the Files behind them, no number is handed out
twice, and a call touches the entry of its own descriptor and no other (`descriptors_sound`).
-/
namespace CodiusSandbox

open Wp

/-- `I` names the VFS instances. -/
structure Hosts (I F : Type) where
  vfs : I → VFS F
  nextFD : Int
  /-- How many Files there have been. -/
  created : Nat
  /-- The descriptors handed out so far, of all children. -/
  handed : List Int

variable {I F W : Type}

def Hosts.start : Hosts I F := ⟨fun _ => .empty, firstVirtualFD, 0, []⟩

/-- What a handler of the VFS `i` works on. -/
def Hosts.view (s : Hosts I F) (i : I) (e : Environment W) : Tracer F W :=
  ⟨s.vfs i, s.nextFD, e.mem, e.errno, e.world, e.slack, e.stack, e.allocLimit, []⟩

/-- Whether a handler has created a File. -/
def Hosts.Creates (s : Hosts I F) (t : Tracer F W) : Prop := t.nextFD ≠ s.nextFD

instance (s : Hosts I F) (t : Tracer F W) : Decidable (s.Creates t) :=
  inferInstanceAs (Decidable (t.nextFD ≠ s.nextFD))

/-- Where a handler of the VFS `i` has gone to `t`. -/
def Hosts.move [DecidableEq I] (s : Hosts I F) (i : I) (t : Tracer F W) : Hosts I F :=
  { s with
    vfs := Function.update s.vfs i t.vfs
    nextFD := t.nextFD
    created := if s.Creates t then s.created + 1 else s.created }

/-- The number of the File that an `open` or `openat` has created, in what it returns. -/
def Hosts.handedBy (s : Hosts I F) (call ret : SyscallCall) (t : Tracer F W) : List Int :=
  if (call.id = SYS_open ∨ call.id = SYS_openat) ∧ s.Creates t then [asInt ret.returnVal] else []

section
variable [Filesystem F W] [DecidableEq I]

inductive HostStep : Hosts I F → Hosts I F → Prop
  | mount (s : Hosts I F) (i : I) (path : Str) (fs : F) :
      HostStep s { s with vfs := Function.update s.vfs i ((s.vfs i).mountFilesystem path fs) }
  | setCWD {s : Hosts I F} {i : I} {e : Environment W} {name : Str} {ret : Int} {t : Tracer F W}
      (h : setCWD name (s.view i e) = .ok ret t) : HostStep s (s.move i t)
  | syscall {s : Hosts I F} {i : I} {e : Environment W} {call ret : SyscallCall} {t : Tracer F W}
      (h : handleSyscall call (s.view i e) = .ok ret t) :
      HostStep s { s.move i t with handed := s.handed ++ s.handedBy call ret t }

inductive Reached : Hosts I F → Prop
  | start : Reached .start
  | step {s s' : Hosts I F} (hs : Reached s) (h : HostStep s s') : Reached s'

end

/-! ## What a call does to the tables -/

/-- From tables `v` and counter `n`, a call that returns `ret`: nothing, a file opened and its number
returned, its descriptor closed, or a new directory. -/
inductive CallStep (call : SyscallCall) (v : VFS F) (n : Int) : SyscallCall → VFS F → Int → Prop
  | same (ret : SyscallCall) : CallStep call v n ret v n
  | opened {f : File F} (hid : call.id = SYS_open ∨ call.id = SYS_openat)
      (hn : f.virtualFD = n) :
      CallStep call v n (call.answer (toWord n)) { v with openFiles := v.openFiles.insertIfNew n f } (succInt n)
  | closed {f : File F} (ret : SyscallCall) (hid : call.id = SYS_close)
      (hf : v.openFiles[asInt (call.args 0)]? = some f) :
      CallStep call v n ret { v with openFiles := v.openFiles.erase f.virtualFD } n
  | moved (ret : SyscallCall) (cwd : File F) (hid : call.id = SYS_chdir) :
      CallStep call v n ret { v with cwd := some cwd } (succInt n)

section
variable [Filesystem F W] {call : SyscallCall} {σ : Tracer F W}

/-- Where `x` returns from `σ`, the tables have made the step of `call`. -/
def StepsAs (call : SyscallCall) (x : TracerM F W SyscallCall) (σ : Tracer F W) : Prop :=
  wp x (fun ret t => CallStep call σ.vfs σ.nextFD ret t.vfs t.nextFD) (fun _ _ => True) σ

omit [Filesystem F W] in
theorem Keeps.stepsAs {x : TracerM F W SyscallCall} (hx : Keeps x) : StepsAs call x σ := by
  refine wp_mono (fun ret t ht => ?_) (fun _ _ _ => trivial) (hx σ)
  rw [(sameTables_iff.2 ht).vfs, (sameTables_iff.2 ht).nextFD]
  exact .same ret

omit [Filesystem F W] in
theorem Keeps.bind_stepsAs {α : Type} {x : TracerM F W α} {f : α → TracerM F W SyscallCall} (hx : Keeps x)
    (hf : ∀ a t, t.vfs = σ.vfs → t.nextFD = σ.nextFD → StepsAs call (f a) t) : StepsAs call (x >>= f) σ := by
  unfold StepsAs
  rw [wp_bind]
  refine wp_mono (fun a t ht => ?_) (fun _ _ _ => trivial) (hx σ)
  have hsame := sameTables_iff.2 ht
  have h := hf a t hsame.vfs hsame.nextFD
  unfold StepsAs at h
  rwa [hsame.vfs, hsame.nextFD] at h

theorem openFile_stepsAs (hid : call.id = SYS_open ∨ call.id = SYS_openat) (n : Str) (flags mode : Int) :
    StepsAs call (openFile call n flags mode) σ := by
  cases hw : isWhitelisted n with
  | true =>
    rw [openFile, if_pos hw]
    exact Keeps.stepsAs (.pure _)
  | false =>
    unfold StepsAs
    by_cases h : ∃ path fs, σ.vfs.getFilesystem n = .ok (some (path, fs))
    · obtain ⟨path, fs, h⟩ := h
      obtain ⟨t, ht, hs⟩ := openFile_run call flags mode hw h
      rw [wp_ok ht, hs.vfs, hs.nextFD]
      split
      · exact .opened hid rfl
      · exact .same _
    · rw [openFile, hw, if_neg (by decide), wp_bind, wp_getFilesystem]
      refine ⟨fun r hr => ?_, fun _ _ => trivial⟩
      rcases r with _ | ⟨path, fs⟩
      · exact .same _
      · exact absurd ⟨path, fs, hr⟩ h

theorem doOpen_stepsAs (hid : call.id = SYS_open) : StepsAs call (doOpen call) σ :=
  (keeps_of_outside (getFilename_outside _)).bind_stepsAs fun n _ _ _ => openFile_stepsAs (.inl hid) n _ _

theorem doOpenat_stepsAs (hid : call.id = SYS_openat) : StepsAs call (doOpenat call) σ := by
  refine (keeps_of_outside (getFilename_outside _)).bind_stepsAs fun n _ _ _ => ?_
  refine (keeps_of_outside (openatName_outside _ _)).bind_stepsAs fun p _ _ _ => ?_
  exact openFile_stepsAs (.inr hid) p _ _

theorem doClose_stepsAs (hid : call.id = SYS_close) : StepsAs call (doClose call) σ := by
  unfold doClose
  split
  · rename_i hv
    unfold StepsAs
    rw [wp_bind, wp_getFile hv]
    refine ⟨fun f hf => ?_, fun _ => trivial⟩
    obtain ⟨a, t, hclose, hfd, ht⟩ := close_run f σ
    dsimp only
    rw [wp_bind, wp_ok hclose, wp_bind, wp_modify]
    obtain ⟨u, hdestroy, hu⟩ := destroy_run a.2
      { t with vfs := { t.vfs with openFiles := t.vfs.openFiles.erase a.2.virtualFD } }
    rw [wp_bind, wp_ok hdestroy, wp_pure, hu.vfs, hu.nextFD, hfd, ht.vfs, ht.nextFD]
    exact .closed _ hid hf
  · exact Keeps.stepsAs (.pure _)

/-- A new directory is a File outside the table. -/
theorem setCWD_moves (n : Str) : wp (setCWD n) (fun _ t => t.tables = σ.tables ∨
    ∃ cwd, t.tables = ({ σ.vfs with cwd := some cwd }, succInt σ.nextFD)) (fun _ _ => True) σ := by
  rcases getFilesystem_cases σ.vfs (trimSlash n) with ⟨_, r, hok⟩ | ⟨_, e, herr⟩
  · rcases r with _ | ⟨path, fs⟩
    · rw [wp_ok (setCWD_none hok)]
      exact .inl rfl
    · obtain ⟨t, ht, hs⟩ := setCWD_some hok
      rw [wp_ok ht]
      exact .inr ⟨_, Prod.ext hs.vfs hs.nextFD⟩
  · rw [setCWD, wp_bind, wp_getFilesystem]
    simp [herr]

theorem doChdir_stepsAs (hid : call.id = SYS_chdir) : StepsAs call (doChdir call) σ := by
  refine (keeps_of_outside (getFilename_outside _)).bind_stepsAs fun n t _ _ => ?_
  unfold StepsAs
  rw [wp_bind]
  refine wp_mono (fun ret u hu => ?_) (fun _ _ _ => trivial) (setCWD_moves n)
  rw [wp_pure]
  rcases hu with hu | ⟨cwd, hu⟩
  · rw [(sameTables_iff.2 hu).vfs, (sameTables_iff.2 hu).nextFD]
    exact .same _
  · obtain ⟨hv, hn⟩ := Prod.mk.inj hu
    rw [hv, hn]
    exact .moved _ cwd hid

omit [Filesystem F W] in
theorem StepsAs.ite {c : Prop} [Decidable c] {x y : TracerM F W SyscallCall} (hx : c → StepsAs call x σ)
    (hy : StepsAs call y σ) : StepsAs call (if c then x else y) σ := by
  split
  · rename_i hc
    exact hx hc
  · exact hy

/-- What a call can do, whatever it is. -/
theorem handleSyscall_stepsAs : StepsAs call (handleSyscall call) σ := by
  have h : Admits fun σ t : Tracer F W => t.tables = σ.tables := tables_admits
  unfold handleSyscall
  refine StepsAs.ite doOpen_stepsAs (StepsAs.ite doClose_stepsAs ?_)
  refine StepsAs.ite (fun _ => Keeps.stepsAs h.doRead) (StepsAs.ite (fun _ => Keeps.stepsAs h.doFstat) ?_)
  refine StepsAs.ite (fun _ => Keeps.stepsAs h.doGetdents) (StepsAs.ite doOpenat_stepsAs ?_)
  refine StepsAs.ite (fun _ => Keeps.stepsAs h.doLseek) (StepsAs.ite (fun _ => Keeps.stepsAs h.doWrite) ?_)
  refine StepsAs.ite (fun _ => Keeps.stepsAs h.doAccess) (StepsAs.ite doChdir_stepsAs ?_)
  refine StepsAs.ite (fun _ => Keeps.stepsAs h.statWith) (StepsAs.ite (fun _ => Keeps.stepsAs h.statWith) ?_)
  refine StepsAs.ite (fun _ => Keeps.stepsAs h.doGetcwd) (StepsAs.ite (fun _ => Keeps.stepsAs h.doReadlink) ?_)
  exact Keeps.stepsAs (.pure _)

end

/-! ## What the tables are to be -/

/-- Each entry is a File with that number, and the numbers are below the counter. -/
def EntriesBelow (files : Std.ExtTreeMap Int (File F)) (n : Int) : Prop :=
  ∀ v f, files[v]? = some f → f.virtualFD = v ∧ firstVirtualFD ≤ v ∧ v < n

structure Sound (s : Hosts I F) : Prop where
  entries : ∀ i, EntriesBelow (s.vfs i).openFiles s.nextFD
  /-- Each descriptor handed out differs from all before. -/
  handedOnce : s.handed.Nodup

/-- Where an entry of a table changes, it is that of the call's own descriptor, or a new one. -/
def OnlyOwn (s : Hosts I F) (i : I) (call : SyscallCall) (s' : Hosts I F) : Prop :=
  ∀ j k, (s'.vfs j).openFiles[k]? ≠ (s.vfs j).openFiles[k]? → j = i ∧
    (call.id = SYS_close ∧ k = asInt (call.args 0) ∨
      (call.id = SYS_open ∨ call.id = SYS_openat) ∧ k ∉ (s.vfs j).openFiles)

/-! ## The invariant -/

/-- How many Files there can be before the counter wraps. -/
def maxFiles : Nat := 2 ^ 31 - 4096

/-- The counter counts, and everything handed out is below it. -/
structure Counted (s : Hosts I F) : Prop extends Sound s where
  count : s.nextFD = firstVirtualFD + s.created
  handedBelow : ∀ v ∈ s.handed, v < s.nextFD

section
variable {s s' : Hosts I F} {i : I} {t : Tracer F W} {call ret : SyscallCall} {v v' : VFS F} {n n' : Int}

theorem succInt_ne (n : Int) : succInt n ≠ n := by
  intro h
  have hmod : succInt n % (2 ^ 32 : Nat) = (n + 1) % (2 ^ 32 : Nat) := Int.bmod_emod
  rw [h] at hmod
  omega

theorem EntriesBelow.succ {files : Std.ExtTreeMap Int (File F)} (h : EntriesBelow files n) :
    EntriesBelow files (n + 1) := fun v f hf => by
  obtain ⟨hv, h0, hlt⟩ := h v f hf
  exact ⟨hv, h0, by omega⟩

/-- A call either creates no File, or the next one. -/
theorem CallStep.counter (h : CallStep call v n ret v' n') : n' = n ∨ n' = succInt n := by
  cases h with
  | same => exact .inl rfl
  | opened => exact .inr rfl
  | closed => exact .inl rfl
  | moved => exact .inr rfl

theorem CallStep.entries (h : CallStep call v n ret v' n') (he : EntriesBelow v.openFiles n)
    (h0 : firstVirtualFD ≤ n) (hsucc : n' ≠ n → n' = n + 1) : EntriesBelow v'.openFiles n' := by
  cases h with
  | same => exact he
  | moved =>
    rw [hsucc (succInt_ne n)]
    exact he.succ
  | closed ret hid hf =>
    intro k g hg
    dsimp only at hg
    rw [Std.ExtTreeMap.getElem?_erase] at hg
    split at hg
    · cases hg
    · exact he k g hg
  | @opened f hid hv =>
    rw [hsucc (succInt_ne n)]
    intro k g hg
    dsimp only at hg
    rw [Std.ExtTreeMap.getElem?_insertIfNew] at hg
    split at hg
    · rename_i hk
      have hkn : n = k := Std.LawfulEqOrd.eq_of_compare hk.1
      cases hg
      exact ⟨hv.trans hkn, by omega, by omega⟩
    · exact he.succ k g hg

/-- The descriptor handed out, if any, is the counter's. -/
theorem CallStep.handed (h : CallStep call (s.vfs i) s.nextFD ret t.vfs t.nextFD)
    (h0 : firstVirtualFD ≤ s.nextFD) (hn : s.nextFD < 2 ^ 31) :
    s.handedBy call ret t = [] ∨ s.handedBy call ret t = [s.nextFD] ∧ s.Creates t := by
  unfold Hosts.handedBy
  split
  · rename_i hcall
    obtain ⟨hid, hcreates⟩ := hcall
    refine .inr ⟨?_, hcreates⟩
    unfold Hosts.Creates at hcreates
    unfold firstVirtualFD at h0
    generalize t.vfs = v', t.nextFD = n' at h hcreates
    cases h with
    | same => exact absurd rfl hcreates
    | closed => exact absurd rfl hcreates
    | opened =>
      have hret : asInt (toWord s.nextFD) = s.nextFD := asInt_toWord ⟨by omega, hn⟩
      rw [SyscallCall.answer, hret]
    | moved _ _ hdir =>
      rw [hdir] at hid
      exact absurd hid (by decide)
  · exact .inl rfl

/-- Which entries a call changes. -/
theorem CallStep.changes (h : CallStep call v n ret v' n') (he : EntriesBelow v.openFiles n) {k : Int}
    (hk : v'.openFiles[k]? ≠ v.openFiles[k]?) :
    call.id = SYS_close ∧ k = asInt (call.args 0) ∨
      (call.id = SYS_open ∨ call.id = SYS_openat) ∧ k ∉ v.openFiles := by
  cases h with
  | same => exact absurd rfl hk
  | moved => exact absurd rfl hk
  | @closed f ret hid hf =>
    dsimp only at hk
    rw [Std.ExtTreeMap.getElem?_erase] at hk
    split at hk
    · rename_i hkf
      have hkf : f.virtualFD = k := Std.LawfulEqOrd.eq_of_compare hkf
      exact .inl ⟨hid, hkf.symm.trans (he _ f hf).1⟩
    · exact absurd rfl hk
  | @opened f hid hv =>
    dsimp only at hk
    rw [Std.ExtTreeMap.getElem?_insertIfNew] at hk
    split at hk
    · rename_i hkn
      have heq : n = k := Std.LawfulEqOrd.eq_of_compare hkn.1
      exact .inr ⟨hid, heq ▸ hkn.2⟩
    · exact absurd rfl hk

variable [DecidableEq I]

theorem CallStep.onlyOwn (h : CallStep call (s.vfs i) s.nextFD ret t.vfs t.nextFD)
    (he : EntriesBelow (s.vfs i).openFiles s.nextFD) : OnlyOwn s i call (s.move i t) := by
  intro j k hk
  by_cases hj : j = i
  · subst hj
    refine ⟨rfl, h.changes he ?_⟩
    have hself : (s.move j t).vfs j = t.vfs := Function.update_self _ _ _
    rwa [hself] at hk
  · have hother : (s.move i t).vfs j = s.vfs j := Function.update_of_ne hj _ _
    rw [hother] at hk
    exact absurd rfl hk

theorem Hosts.created_le_move : s.created ≤ (s.move i t).created := by
  unfold Hosts.move
  dsimp only
  split <;> omega

/-- Before the last number, a File takes the next. -/
theorem Counted.succ (h : Counted s) (hc : CallStep call (s.vfs i) s.nextFD ret t.vfs t.nextFD)
    (hb : (s.move i t).created < maxFiles) (hcreates : s.Creates t) : t.nextFD = s.nextFD + 1 := by
  have hcreated : (s.move i t).created = s.created + 1 := if_pos hcreates
  have hcount := h.count
  unfold firstVirtualFD at hcount
  unfold maxFiles at hb
  rcases hc.counter with hn | hn
  · exact absurd hn hcreates
  · rw [hn]
    refine succInt_of_lt ?_ (by omega)
    unfold firstVirtualFD
    omega

/-- The invariant is kept by a call while there are few enough Files. -/
theorem Counted.move (h : Counted s) (hc : CallStep call (s.vfs i) s.nextFD ret t.vfs t.nextFD)
    (hb : (s.move i t).created < maxFiles) :
    Counted { s.move i t with handed := s.handed ++ s.handedBy call ret t } := by
  have hle := Hosts.created_le_move (s := s) (i := i) (t := t)
  have hcount := h.count
  have h0 : firstVirtualFD ≤ s.nextFD := by omega
  have hn : s.nextFD < 2 ^ 31 := by
    unfold firstVirtualFD at hcount
    unfold maxFiles at hb
    omega
  have hsucc : t.nextFD ≠ s.nextFD → t.nextFD = s.nextFD + 1 := h.succ hc hb
  have hhanded := hc.handed h0 hn
  refine ⟨⟨fun j => ?_, ?_⟩, ?_, fun k hk => ?_⟩
  · by_cases hj : j = i
    · subst hj
      have hself : (s.move j t).vfs j = t.vfs := Function.update_self _ _ _
      show EntriesBelow ((s.move j t).vfs j).openFiles t.nextFD
      rw [hself]
      exact hc.entries (h.entries j) h0 hsucc
    · have hother : (s.move i t).vfs j = s.vfs j := Function.update_of_ne hj _ _
      show EntriesBelow ((s.move i t).vfs j).openFiles t.nextFD
      rw [hother]
      by_cases hcreates : s.Creates t
      · rw [hsucc hcreates]
        exact (h.entries j).succ
      · rw [not_not.1 hcreates]
        exact h.entries j
  · show (s.handed ++ s.handedBy call ret t).Nodup
    rcases hhanded with hnil | ⟨hone, _⟩
    · rw [hnil, List.append_nil]
      exact h.handedOnce
    · rw [hone]
      refine List.nodup_append.2 ⟨h.handedOnce, List.pairwise_singleton _ _, fun a ha b hb' => ?_⟩
      rw [List.mem_singleton.1 hb']
      exact Int.ne_of_lt (h.handedBelow a ha)
  · show t.nextFD = firstVirtualFD + (s.move i t).created
    by_cases hcreates : s.Creates t
    · have hcreated : (s.move i t).created = s.created + 1 := if_pos hcreates
      rw [hsucc hcreates, hcreated, hcount]
      omega
    · have hcreated : (s.move i t).created = s.created := if_neg hcreates
      rw [not_not.1 hcreates, hcreated, hcount]
  · have hk : k ∈ s.handed ++ s.handedBy call ret t := hk
    show k < t.nextFD
    have hgrow : s.nextFD ≤ t.nextFD := by
      by_cases hcreates : s.Creates t
      · rw [hsucc hcreates]
        omega
      · exact Int.le_of_eq (not_not.1 hcreates).symm
    rw [List.mem_append] at hk
    rcases hk with hk | hk
    · have := h.handedBelow k hk
      omega
    · rcases hhanded with hnil | ⟨hone, hcreates⟩
      · rw [hnil] at hk
        cases hk
      · rw [hone] at hk
        rw [List.mem_singleton.1 hk, hsucc hcreates]
        omega

variable [Filesystem F W]

omit [DecidableEq I] in
/-- Setting a directory is a step of the tables as well. -/
theorem setCWD_step {e : Environment W} {name : Str} {r : Int} (ret : SyscallCall) (h : setCWD name (s.view i e) = .ok r t) :
    CallStep ⟨SYS_chdir, fun _ => 0, 0⟩ (s.vfs i) s.nextFD ret t.vfs t.nextFD := by
  rcases (wp_ok h).1 (setCWD_moves name) with htables | ⟨cwd, htables⟩
  · obtain ⟨hv, hn⟩ := Prod.mk.inj htables
    rw [hv, hn]
    exact .same ret
  · obtain ⟨hv, hn⟩ := Prod.mk.inj htables
    rw [hv, hn]
    exact .moved ret cwd rfl

omit [DecidableEq I] in
theorem syscall_step {e : Environment W} (h : handleSyscall call (s.view i e) = .ok ret t) :
    CallStep call (s.vfs i) s.nextFD ret t.vfs t.nextFD := (wp_ok h).1 handleSyscall_stepsAs

omit [DecidableEq I] [Filesystem F W] in
theorem handedBy_of_chdir (hid : call.id = SYS_chdir) : s.handedBy call ret t = [] := by
  refine if_neg fun h => ?_
  rw [hid] at h
  exact absurd h.1 (by decide)

/-- One step of the host. -/
theorem Counted.step (h : s.created < maxFiles → Counted s) (hs : HostStep s s') (hb : s'.created < maxFiles) :
    Counted s' := by
  cases hs with
  | mount i path fs =>
    have h := h hb
    refine ⟨⟨fun j => ?_, h.handedOnce⟩, h.count, h.handedBelow⟩
    by_cases hj : j = i
    · subst hj
      dsimp only
      rw [Function.update_self]
      exact h.entries j
    · dsimp only
      rw [Function.update_of_ne hj]
      exact h.entries j
  | @setCWD i e name r t hset =>
    have hle := Hosts.created_le_move (s := s) (i := i) (t := t)
    have hmove := (h (by omega)).move (setCWD_step ⟨SYS_chdir, fun _ => 0, 0⟩ hset) hb
    rw [handedBy_of_chdir rfl, List.append_nil] at hmove
    exact hmove
  | @syscall i e call ret t hcall =>
    have hle := Hosts.created_le_move (s := s) (i := i) (t := t)
    have hb : (s.move i t).created < maxFiles := hb
    exact (h (by omega)).move (syscall_step hcall) hb

theorem Reached.counted (h : Reached s) (hb : s.created < maxFiles) : Counted s := by
  induction h with
  | start =>
    refine ⟨⟨fun i v f hf => ?_, List.nodup_nil⟩, rfl, nofun⟩
    simp [Hosts.start, VFS.empty] at hf
  | step _ hs ih => exact Counted.step ih hs hb

/-- An `open` that creates a File. -/
theorem Reached.opens (h : Reached s) {e : Environment W} (hid : call.id = SYS_open) {w : Word}
    (hopen : Returns (handleSyscall call) (fun ret t => ret.returnVal = w ∧ t.nextFD ≠ s.nextFD) (s.view i e)) :
    ∃ s' : Hosts I F, Reached s' ∧ s'.handed = s.handed ++ [asInt w] ∧ s'.created = s.created + 1 := by
  obtain ⟨ret, t, hrun, hret, hcreates⟩ := returns_iff.1 hopen
  refine ⟨_, .step h (.syscall hrun), ?_, if_pos hcreates⟩
  show s.handed ++ s.handedBy call ret t = _
  rw [Hosts.handedBy, if_pos ⟨.inl hid, hcreates⟩, hret]

/-- While there have been fewer Files than there are numbers, the tables are as they should be, and a
call touches its own entry only. -/
theorem descriptors_sound (h : Reached s) (hb : s.created < maxFiles) :
    Sound s ∧ ∀ i (e : Environment W) call ret t, handleSyscall call (s.view i e) = .ok ret t →
      OnlyOwn s i call (s.move i t) := by
  have hcounted := h.counted hb
  exact ⟨hcounted.toSound, fun i e call ret t hcall => (syscall_step hcall).onlyOwn (hcounted.entries i)⟩

end

/-- Two VFS instances, the first with a filesystem. -/
def twoHosts : Hosts Bool Fixed :=
  ⟨Function.update (fun _ => .empty) false (VFS.empty.mountFilesystem (str "/") (⟨3⟩ : Fixed)), firstVirtualFD, 0, []⟩

theorem twoHosts_reached : Reached twoHosts := .step .start (.mount _ false (str "/") (⟨3⟩ : Fixed))

/-- The child of the first opens `/a`. -/
theorem descriptors_sound_open : ∃ s : Hosts Bool Fixed, s.handed = [4096] ∧ Sound s ∧
    ∀ i (e : Environment Unit) call ret t, handleSyscall call (s.view i e) = .ok ret t →
      OnlyOwn s i call (s.move i t) := by
  obtain ⟨s, hs, hhanded, hcreated⟩ := twoHosts_reached.opens (i := false) (w := 4096) (e := page (str "/a"))
    (show (SyscallCall.of SYS_open [0]).id = SYS_open from rfl) (by decide +kernel)
  refine ⟨s, hhanded.trans (by decide), descriptors_sound hs ?_⟩
  rw [hcreated]
  decide

end CodiusSandbox
