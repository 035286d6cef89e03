import CodiusSandbox.Mediation
/-!
# What an open leaves behind

A filesystem answers `open` with a local descriptor, 0 included, or with a negative number.
`openFile` tests the answer for truth, so that 0 is a failure to it and a negative number a file.
`open_clean_iff` says when that is right. The other half of its condition is about the counter new
descriptors come from, and holds until the counter wraps (`Unwrapped.fresh`).
-/
namespace CodiusSandbox

open Wp

variable {F W : Type} [Filesystem F W] {σ : Tracer F W} {call : SyscallCall}

/-! ## Opening -/

/-- The name an `open` or `openat` opens. -/
def openTarget (σ : Tracer F W) (call : SyscallCall) : Option Str :=
  if call.id = SYS_open then some (σ.nameAt (call.args 0))
  else openatTarget σ.vfs (call.args 0) (σ.nameAt (call.args 1))

/-- The flags and the mode of an `open` or `openat`. -/
def openFlags (call : SyscallCall) : Int × Int :=
  if call.id = SYS_open then (asInt (call.args 1), asInt (call.args 2))
  else (asInt (call.args 2), asInt (call.args 3))

/-- The call opens `name`, which is `path` on the mounted filesystem `fs`. -/
structure OpensAt (σ : Tracer F W) (call : SyscallCall) (name path : Str) (fs : F) : Prop where
  isOpen : call.id = SYS_open ∨ call.id = SYS_openat
  readable : Readable σ.mem (pathArg call) 1024
  target : openTarget σ call = some name
  notWhitelisted : isWhitelisted name = false
  resolves : σ.vfs.getFilesystem name = .ok (some (path, fs))

/-- What `Filesystem::open` returns for the call. -/
def openResult (σ : Tracer F W) (call : SyscallCall) (path : Str) (fs : F) : Int :=
  σ.replyToPath (Filesystem.fsOpen fs path (openFlags call).1 (openFlags call).2)

/-- A failure is a negative answer and no file, a local descriptor is one new file and its number. -/
def OpensCleanly (σ : Tracer F W) (call : SyscallCall) (name path : Str) (fs : F) : Prop :=
  let r := openResult σ call path fs
  Returns (handleSyscall call) (fun ret t => ret.id = toWord (-1) ∧
    (r < 0 → asOff ret.returnVal < 0 ∧ t.vfs.openFiles = σ.vfs.openFiles) ∧
    (0 ≤ r → ∃ v, isVirtualFD v = true ∧ v ∉ σ.vfs.openFiles ∧ ret.returnVal = toWord v ∧
      t.vfs.openFiles = σ.vfs.openFiles.insert v ⟨r, v, name, fs⟩)) σ

/-- The files behind an `open` whose filesystem returned `r`. -/
def filesAfter (v : VFS F) (n : Int) (r : Int) (name : Str) (fs : F) : Std.ExtTreeMap Int (File F) :=
  if r ≠ 0 then v.openFiles.insertIfNew n ⟨r, n, name, fs⟩ else v.openFiles

/-- Both calls end in `openFile` on their target. -/
theorem handleSyscall_open {name path : Str} {fs : F} (h : OpensAt σ call name path fs) :
    handleSyscall call σ =
      openFile call name (openFlags call).1 (openFlags call).2 { σ with errno := 0 } := by
  obtain ⟨hid, hread, htarget, _, _⟩ := h
  by_cases ho : call.id = SYS_open
  · have hne : call.id ≠ SYS_openat := by rw [ho]; decide
    rw [pathArg, if_neg hne] at hread
    rw [openTarget, if_pos ho, Option.some.injEq] at htarget
    rw [handleSyscall, if_pos ho, doOpen, bind_ok (getFilename_readable hread), openFlags, if_pos ho,
      ← htarget]
  · have hat : call.id = SYS_openat := hid.resolve_left ho
    rw [pathArg, if_pos hat] at hread
    rw [openTarget, if_neg ho] at htarget
    have hdispatch : (handleSyscall call : TracerM F W SyscallCall) = doOpenat call := by
      simp [handleSyscall, hat, SYS_open, SYS_openat, SYS_close, SYS_read, SYS_fstat, SYS_getdents]
    rw [hdispatch, doOpenat, bind_ok (getFilename_readable hread),
      bind_ok (openatName_run (σ := { σ with errno := 0 }) htarget), openFlags, if_neg ho]

theorem open_run {name path : Str} {fs : F} (h : OpensAt σ call name path fs) :
    ∃ e t, handleSyscall call σ =
        .ok (call.answer (toWord (if openResult σ call path fs ≠ 0 then σ.nextFD else e))) t ∧
      t.vfs.openFiles = filesAfter σ.vfs σ.nextFD (openResult σ call path fs) name fs := by
  rw [handleSyscall_open h]
  obtain ⟨t, ht, hs⟩ := openFile_run (σ := { σ with errno := 0 }) call (openFlags call).1
    (openFlags call).2 h.notWhitelisted h.resolves
  refine ⟨_, t, ht, ?_⟩
  rw [hs.vfs]
  unfold filesAfter openResult Tracer.replyToPath
  split
  · rfl
  · rfl

/-! ## The descriptor table -/

section
variable {m : Std.ExtTreeMap Int (File F)} {n v : Int} {f g : File F}

theorem insertIfNew_of_mem (h : n ∈ m) : m.insertIfNew n f = m := by
  apply Std.ExtTreeMap.ext_getElem?
  intro k
  rw [Std.ExtTreeMap.getElem?_insertIfNew, if_neg fun hk => hk.2 h]

theorem insertIfNew_of_not_mem (h : n ∉ m) : m.insertIfNew n f = m.insert n f := by
  apply Std.ExtTreeMap.ext_getElem?
  intro k
  rw [Std.ExtTreeMap.getElem?_insertIfNew, Std.ExtTreeMap.getElem?_insert]
  simp [h]

theorem insertIfNew_eq_self_iff : m.insertIfNew n f = m ↔ n ∈ m := by
  refine ⟨fun h => ?_, insertIfNew_of_mem⟩
  rw [← h]
  exact Std.ExtTreeMap.mem_insertIfNew_self

/-- An insertion at a free number tells which number it was. -/
theorem eq_of_insertIfNew_eq_insert (hv : v ∉ m) (h : m.insertIfNew n f = m.insert v g) :
    n = v ∧ n ∉ m := by
  have hmem : v ∈ m.insertIfNew n f := by rw [h]; exact Std.ExtTreeMap.mem_insert_self
  have hn : n = v := by
    rcases Std.ExtTreeMap.mem_insertIfNew.1 hmem with hc | hc
    · exact Std.LawfulEqOrd.eq_of_compare hc
    · exact absurd hc hv
  exact ⟨hn, hn ▸ hv⟩

end

/-! ## The counter -/

theorem succInt_int (n : Int) : -(2 ^ 31) ≤ succInt n ∧ succInt n < 2 ^ 31 := by
  have hlo := Int.le_bmod (x := n + 1) (m := 2 ^ 32) (by decide)
  have hhi := Int.bmod_lt (x := n + 1) (m := 2 ^ 32) (by decide)
  unfold succInt
  omega

/-- The counter is an `int`. -/
theorem Reachable.nextFD_int (h : Reachable σ) : -(2 ^ 31) ≤ σ.nextFD ∧ σ.nextFD < 2 ^ 31 := by
  induction h with
  | start e => simp [Tracer.start, firstVirtualFD]
  | @step σ t _ hs ih =>
    rcases hs.tables with ⟨_, _, _, hn⟩ | ht | ⟨_, hn⟩
    · rw [hn]; exact ih
    · generalize t.vfs = v, t.nextFD = n at ht
      cases ht with
      | same => exact ih
      | opened => exact succInt_int _
      | closed => exact ih
      | moved => exact succInt_int _
    · rw [hn]; exact succInt_int _

/-- The next descriptor is virtual and free. -/
def FreshDescriptor (σ : Tracer F W) : Prop :=
  firstVirtualFD ≤ σ.nextFD ∧ σ.nextFD ∉ σ.vfs.openFiles

/-- Reachable, and the counter has not wrapped on the way. -/
inductive Unwrapped : Tracer F W → Prop
  | start (e : Environment W) : Unwrapped (.start e)
  | step {σ t : Tracer F W} (hσ : Unwrapped σ) (hn : σ.nextFD < 2 ^ 31 - 1) (h : Step σ t) :
      Unwrapped t

theorem Unwrapped.reachable (h : Unwrapped σ) : Reachable σ := by
  induction h with
  | start e => exact .start e
  | step _ _ hs ih => exact .step ih hs

/-- Open files have their own numbers, all below the counter. -/
structure NumberedBelow (files : Std.ExtTreeMap Int (File F)) (n : Int) : Prop where
  virtual : firstVirtualFD ≤ n
  below : ∀ fd f, files[fd]? = some f → f.virtualFD = fd ∧ fd < n

theorem succInt_of_lt {n : Int} (h0 : firstVirtualFD ≤ n) (h : n < 2 ^ 31 - 1) : succInt n = n + 1 := by
  unfold firstVirtualFD at h0
  exact Int.bmod_eq_of_le (by omega) (by omega)

omit [Filesystem F W] in
theorem NumberedBelow.succ {files : Std.ExtTreeMap Int (File F)} {n : Int} (h : NumberedBelow files n)
    (hn : n < 2 ^ 31 - 1) : NumberedBelow files (succInt n) := by
  rw [succInt_of_lt h.virtual hn]
  refine ⟨?_, fun fd f hf => ?_⟩
  · have := h.virtual
    omega
  · obtain ⟨hv, hlt⟩ := h.below fd f hf
    exact ⟨hv, by omega⟩

omit [Filesystem F W] in
theorem TableStep.numbered {v v' : VFS F} {n n' : Int} (hs : TableStep v n v' n')
    (h : NumberedBelow v.openFiles n) (hn : n < 2 ^ 31 - 1) : NumberedBelow v'.openFiles n' := by
  cases hs with
  | same => exact h
  | moved => exact h.succ hn
  | closed hf =>
    refine ⟨h.virtual, fun fd f hf' => ?_⟩
    dsimp only at hf'
    rw [Std.ExtTreeMap.getElem?_erase] at hf'
    split at hf'
    · cases hf'
    · exact h.below fd f hf'
  | opened fd hfs =>
    refine ⟨(h.succ hn).virtual, fun k f hf => ?_⟩
    dsimp only at hf
    rw [Std.ExtTreeMap.getElem?_insertIfNew] at hf
    split at hf
    · rename_i hk
      have hkn : n = k := Std.LawfulEqOrd.eq_of_compare hk.1
      cases hf
      rw [succInt_of_lt h.virtual hn]
      exact ⟨hkn, by omega⟩
    · exact (h.succ hn).below k f hf

theorem Unwrapped.numbered (h : Unwrapped σ) : NumberedBelow σ.vfs.openFiles σ.nextFD := by
  induction h with
  | start e => exact ⟨by simp [Tracer.start], fun fd f hf => by simp [Tracer.start, VFS.empty] at hf⟩
  | step _ hn hs ih =>
    rcases hs.tables with ⟨_, _, hv, hn'⟩ | ht | ⟨hv, hn'⟩
    · rw [hv, hn']; exact ih
    · exact ht.numbered ih hn
    · rw [hv, hn']; exact ih.succ hn

/-- Before the counter wraps, the next descriptor is fresh. -/
theorem Unwrapped.fresh (h : Unwrapped σ) : FreshDescriptor σ := by
  refine ⟨h.numbered.virtual, fun hmem => ?_⟩
  obtain ⟨f, hf⟩ := Option.isSome_iff_exists.1 (Std.ExtTreeMap.mem_iff_isSome_getElem?.1 hmem)
  exact absurd (h.numbered.below _ f hf).2 (Int.lt_irrefl _)

theorem asOff_toWord_neg_iff {n : Int} (h : -(2 ^ 31) ≤ n ∧ n < 2 ^ 31) : asOff (toWord n) < 0 ↔ n < 0 := by
  have hn : asOff (toWord n) = n := by
    rw [asOff, toWord, BitVec.toInt_ofInt]
    exact Int.bmod_eq_of_le (by omega) (by omega)
  rw [hn]

/-! ## When an open is clean -/

theorem open_clean_iff {name path : Str} {fs : F} (hσ : Reachable σ)
    (h : OpensAt σ call name path fs) :
    OpensCleanly σ call name path fs ↔
      (0 < openResult σ call path fs ∧ FreshDescriptor σ) ∨
        (openResult σ call path fs < 0 ∧ σ.nextFD < 0 ∧ σ.nextFD ∈ σ.vfs.openFiles) := by
  obtain ⟨e, t, hrun, hfiles⟩ := open_run h
  unfold OpensCleanly FreshDescriptor
  generalize openResult σ call path fs = r at hrun hfiles
  simp only [returns_ok hrun, hfiles, filesAfter]
  have hint := hσ.nextFD_int
  rcases Int.lt_trichotomy r 0 with hr | hr | hr
  · have hne : r ≠ 0 := by omega
    have hnn : ¬ 0 ≤ r := by omega
    have hnp : ¬ 0 < r := by omega
    simp only [hne, hr, hnn, hnp, ne_eq, not_false_iff, if_true, insertIfNew_eq_self_iff, true_implies,
      false_implies, false_and, false_or, and_true, true_and, SyscallCall.answer,
      asOff_toWord_neg_iff hint]
  · subst hr
    simp only [ne_eq, not_true, if_false, Int.lt_irrefl, false_and, or_self, iff_false]
    rintro ⟨_, _, h0⟩
    obtain ⟨v, _, hv, _, heq⟩ := h0 (Int.le_refl 0)
    exact hv (heq ▸ Std.ExtTreeMap.mem_insert_self)
  · have hne : r ≠ 0 := by omega
    have hnn : ¬ r < 0 := by omega
    simp only [hne, hr, hnn, Int.le_of_lt hr, ne_eq, not_false_iff, if_true, true_implies,
      false_implies, false_and, or_false, true_and, SyscallCall.answer]
    constructor
    · rintro ⟨v, hv, hfree, _, heq⟩
      obtain ⟨rfl, hn⟩ := eq_of_insertIfNew_eq_insert hfree heq
      exact ⟨isVirtualFD_iff.1 hv, hn⟩
    · rintro ⟨hv, hfree⟩
      exact ⟨σ.nextFD, isVirtualFD_iff.2 hv, hfree, rfl, insertIfNew_of_not_mem hfree⟩

/-- `open ("/a")` with local descriptor 3. -/
theorem open_clean_three :
    OpensCleanly (mounted (str "/a") ⟨3⟩) (.of SYS_open [0]) (str "/a") (str "/a") (⟨3⟩ : Fixed) ↔
      (0 < openResult (mounted (str "/a") ⟨3⟩) (.of SYS_open [0]) (str "/a") (⟨3⟩ : Fixed) ∧
          FreshDescriptor (mounted (str "/a") ⟨3⟩)) ∨
        (openResult (mounted (str "/a") ⟨3⟩) (.of SYS_open [0]) (str "/a") (⟨3⟩ : Fixed) < 0 ∧
          (mounted (str "/a") ⟨3⟩).nextFD < 0 ∧
          (mounted (str "/a") ⟨3⟩).nextFD ∈ (mounted (str "/a") ⟨3⟩).vfs.openFiles) :=
  have hpath : HoldsPath (mounted (str "/a") ⟨3⟩).mem (pathArg (.of SYS_open [0])) (str "/a") := by
    decide +kernel
  open_clean_iff (mounted_reachable _ _)
    ⟨by decide, hpath.readable (by decide +kernel), by decide +kernel, by decide, by decide +kernel⟩

theorem not_clean_of_file {name path : Str} {fs : F} (hr : openResult σ call path fs < 0)
    (h : Returns (handleSyscall call) (fun _ t => t.vfs.openFiles ≠ σ.vfs.openFiles) σ) :
    ¬ OpensCleanly σ call name path fs := by
  intro hc
  obtain ⟨_, _, hne, _, hneg, _⟩ := h.both hc
  exact hne (hneg hr).2

theorem not_clean_of_no_file {name path : Str} {fs : F} (hr : 0 ≤ openResult σ call path fs)
    (h : Returns (handleSyscall call) (fun _ t => t.vfs.openFiles = σ.vfs.openFiles) σ) :
    ¬ OpensCleanly σ call name path fs := by
  intro hc
  obtain ⟨_, _, heq, _, _, hpos⟩ := h.both hc
  obtain ⟨v, _, hv, _, hins⟩ := hpos hr
  rw [heq] at hins
  exact hv (hins ▸ Std.ExtTreeMap.mem_insert_self)

/-- `open ("/a")` where the filesystem answers -1, and where it answers 0. -/
theorem open_failure_is_a_file :
    Reachable (mounted (str "/a") ⟨-1⟩) ∧ Reachable (mounted (str "/a") ⟨0⟩) ∧
    Returns (handleSyscall (.of SYS_open [0])) (fun ret t => ret.returnVal = 4096 ∧
      t.vfs.openFiles[(4096 : Int)]? = some ⟨-1, 4096, str "/a", ⟨-1⟩⟩) (mounted (str "/a") ⟨-1⟩) ∧
    ¬ OpensCleanly (mounted (str "/a") ⟨-1⟩) (.of SYS_open [0]) (str "/a") (str "/a") (⟨-1⟩ : Fixed) ∧
    ¬ OpensCleanly (mounted (str "/a") ⟨0⟩) (.of SYS_open [0]) (str "/a") (str "/a") (⟨0⟩ : Fixed) := by
  refine ⟨mounted_reachable _ _, mounted_reachable _ _, by decide +kernel, ?_, ?_⟩
  · apply not_clean_of_file
    · decide
    · decide +kernel
  · apply not_clean_of_no_file
    · decide
    · decide +kernel

end CodiusSandbox
