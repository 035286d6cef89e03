import CodiusSandbox.PtraceProofs
import CodiusSandbox.Vfs
import CodiusSandbox.Lib.PrefixTable
/-!
# One rule for each step of a handler

Rules of `wp` for `getFilename`, `getFilesystem`, `newVector`, `writeData`, `copyData`, `fsCall` and
`getFile`: a handler is analysed by rewriting with them and never by unfolding what it calls.
-/
namespace CodiusSandbox

open Wp PrefixTable

variable {F W : Type} {α : Type} {Q : α → Tracer F W → Prop} {E : Crash → Tracer F W → Prop}
  {σ : Tracer F W}

/-! ## The name a handler reads -/

/-- The string in the buffer once the one at `addr` has been copied. -/
def nameAt (m : Memory) (slack : List UInt8) (addr : Address) : Str :=
  ((List.range 1024).map (fun k => byteAt m (offset addr k)) ++ slack).takeWhile (· ≠ 0)

theorem takeWhile_congr {f g : Nat → UInt8} {slack : List UInt8} : ∀ (n a : Nat),
    (∀ k, a ≤ k → k < a + n → (∀ j, a ≤ j → j < k → g j ≠ 0) → f k = g k) →
      ((List.range' a n).map f ++ slack).takeWhile (· ≠ 0) =
        ((List.range' a n).map g ++ slack).takeWhile (· ≠ 0)
  | 0, _, _ => rfl
  | n + 1, a, h => by
    have ha : f a = g a := h a (Nat.le_refl a) (by omega) fun j h1 h2 => by omega
    simp only [List.range'_succ, List.map_cons, List.cons_append, List.takeWhile_cons, ha]
    by_cases h0 : g a = 0
    · simp [h0]
    · rw [takeWhile_congr n (a + 1)]
      intro k hk hkn hz
      refine h k (by omega) (by omega) fun j hj hjk => ?_
      by_cases hja : j = a
      · subst hja; exact h0
      · exact hz j (by omega) hjk

theorem cString_copied {m : Memory} {addr : Address} {buf : Buffer} {slack : List UInt8}
    (h : CopiedString m addr 1024 buf) : cString buf 1024 slack = nameAt m slack addr := by
  unfold cString nameAt
  rw [List.range_eq_range']
  refine takeWhile_congr 1024 0 fun k _ hk hz => h k (by omega) fun j hj h0 => ?_
  refine hz j (Nat.zero_le j) hj ?_
  simp [byteAt, h0]

/-- The child holds the NUL-terminated path `n`, of fewer than 1024 bytes, at `addr`. -/
structure HoldsPath (m : Memory) (addr : Address) (n : Str) : Prop where
  short : n.length < 1024
  bytes : ∀ i (h : i < n.length), m (offset addr i) = some n[i]
  noNul : 0 ∉ n
  nul : m (offset addr n.length) = some 0

instance (m : Memory) (addr : Address) (n : Str) : Decidable (HoldsPath m addr n) :=
  decidable_of_iff (n.length < 1024 ∧ (∀ i (h : i < n.length), m (offset addr i) = some n[i]) ∧ 0 ∉ n ∧
    m (offset addr n.length) = some 0) ⟨fun ⟨a, b, c, d⟩ => ⟨a, b, c, d⟩, fun ⟨a, b, c, d⟩ => ⟨a, b, c, d⟩⟩

theorem nameAt_of_holds {m : Memory} {addr : Address} {n : Str} {slack : List UInt8}
    (h : HoldsPath m addr n) : nameAt m slack addr = n := by
  obtain ⟨hlen, hbytes, hnz, hnul⟩ := h
  have hsplit : List.range 1024 = List.range n.length ++ List.range' n.length (1024 - n.length) := by
    have h := List.range'_append_1 (s := 0) (m := n.length) (n := 1024 - n.length)
    rw [Nat.zero_add, Nat.add_sub_cancel' (Nat.le_of_lt hlen)] at h
    rw [List.range_eq_range', List.range_eq_range', h]
  have hmap : (List.range n.length).map (fun k => byteAt m (offset addr k)) = n := by
    refine List.ext_getElem (by simp) fun i h1 h2 => ?_
    simp [byteAt, hbytes i h2]
  have hrest : (List.range' n.length (1024 - n.length)).map (fun k => byteAt m (offset addr k)) =
      0 :: (List.range' (n.length + 1) (1023 - n.length)).map fun k => byteAt m (offset addr k) := by
    rw [show 1024 - n.length = 1023 - n.length + 1 by omega, List.range'_succ, List.map_cons]
    simp [byteAt, hnul]
  rw [nameAt, hsplit, List.map_append, hmap, hrest, List.append_assoc, List.cons_append,
    List.takeWhile_append_of_pos (all_ne_zero hnz), List.takeWhile_cons_of_neg (by simp), List.append_nil]

/-- A path can be read if the words up to its NUL are mapped. -/
theorem HoldsPath.readable {m : Memory} {addr : Address} {n : Str} {maxLength : Nat}
    (h : HoldsPath m addr n) (hm : ∀ i < n.length + 1, 8 ∣ i → WordMapped m (offset addr i)) :
    Readable m addr maxLength := by
  intro i _ h8 hnn
  apply hm i
  · rcases Nat.lt_or_ge n.length i with hlt | hge
    · exact absurd h.nul (hnn n.length hlt)
    · omega
  · exact h8

/-- The string a handler finds at `addr`. -/
def Tracer.nameAt (σ : Tracer F W) (addr : Address) : Str :=
  CodiusSandbox.nameAt σ.mem σ.slack addr

/-- What a path call finds at the address of a path that the child holds. -/
theorem HoldsPath.resolves {addr : Address} {n : Str} {r : Except Crash (Option (Str × F))} (h : HoldsPath σ.mem addr n)
    (hm : ∀ i < n.length + 1, 8 ∣ i → WordMapped σ.mem (offset addr i)) (hw : isWhitelisted n = false)
    (hg : σ.vfs.getFilesystem n = r) :
    Readable σ.mem addr 1024 ∧ isWhitelisted (σ.nameAt addr) = false ∧ σ.vfs.getFilesystem (σ.nameAt addr) = r := by
  have hname : σ.nameAt addr = n := nameAt_of_holds h
  rw [hname]
  exact ⟨h.readable hm, hw, hg⟩

theorem getFilename_readable {addr : Address} (h : Readable σ.mem addr 1024) :
    getFilename addr σ = .ok (σ.nameAt addr) { σ with errno := 0 } := by
  obtain ⟨buf', hrun, hs, _⟩ := copyString_readable (zeroed 1024 σ.slack)
    (s := ⟨σ.mem, σ.errno⟩) (by omega) (by omega) h
  have hp : ptrace (copyString addr 1024 (zeroed 1024 σ.slack)) σ =
      .ok (buf', true) { σ with errno := 0 } := by simp only [ptrace, hrun]
  rw [getFilename, bind_get, bind_ok hp]
  dsimp only
  rw [cString_copied hs]
  rfl

theorem getFilename_unreadable {addr : Address} (h : ¬ Readable σ.mem addr 1024) :
    getFilename addr σ = .error .assertion { σ with errno := EIO } := by
  have hp : ptrace (copyString addr 1024 (zeroed 1024 σ.slack)) σ =
      .error .assertion { σ with errno := EIO } := by
    simp only [ptrace, copyString_unreadable _ (s := ⟨σ.mem, σ.errno⟩) (by omega) h]
  rw [getFilename, bind_get, bind_error hp]

theorem wp_getFilename {Q : Str → Tracer F W → Prop} {addr : Address} :
    wp (getFilename addr) Q E σ ↔
      (Readable σ.mem addr 1024 → Q (σ.nameAt addr) { σ with errno := 0 }) ∧
      (¬ Readable σ.mem addr 1024 → E .assertion { σ with errno := EIO }) := by
  by_cases h : Readable σ.mem addr 1024
  · simp only [wp, getFilename_readable h, h, true_implies, not_true, false_implies, and_true]
  · simp only [wp, getFilename_unreadable h, h, true_implies, not_false_iff, false_implies, true_and]

/-! ## Looking up a filesystem -/

theorem searchMounts_eq {l : List (Str × F)} (h : ∀ e ∈ l, e.1 ≠ []) (p : Str) :
    searchMounts l p =
      .ok ((firstPrefix l p).map fun e => (p.drop (e.1.length - 1), e.2)) := by
  induction l with
  | nil => rfl
  | cons e l ih =>
    obtain ⟨mount, fs⟩ := e
    have hm : mount ≠ [] := h (mount, fs) (by simp)
    simp only [searchMounts, firstPrefix, List.find?_cons]
    by_cases hp : mount.isPrefixOf p = true
    · simp [hp, hm]
    · rw [Bool.not_eq_true] at hp
      simp only [hp, Bool.false_eq_true, if_false]
      exact ih fun e he => h e (by simp [he])

/-- The empty mount path is the first key and a prefix of everything. -/
theorem searchMounts_nil_mem {l : List (Str × F)} (hs : Sorted l) (h : ∃ e ∈ l, e.1 = []) (p : Str) :
    searchMounts l p = .error .outOfRange := by
  cases l with
  | nil => simp at h
  | cons e l =>
    obtain ⟨mount, fs⟩ := e
    have hm : mount = [] := by
      obtain ⟨x, hx, hx0⟩ := h
      rcases List.mem_cons.1 hx with rfl | hx
      · exact hx0
      · have hlt := (List.pairwise_cons.1 hs).1 x hx
        rw [hx0] at hlt
        cases mount with
        | nil => rfl
        | cons a m => simp at hlt
    simp [searchMounts, hm]

theorem sorted_toList (m : Std.ExtTreeMap Str F) : Sorted m.toList :=
  Std.ExtTreeMap.ordered_keys_toList

/-- The table from which `getFilesystem` picks a mount for an absolute path. -/
def VFS.mountFor (v : VFS F) (p : Str) : Option (Str × F) := firstPrefix v.mountpoints.toList p

theorem mem_toList_iff {m : Std.ExtTreeMap Str F} {e : Str × F} :
    e ∈ m.toList ↔ m[e.1]? = some e.2 := Std.ExtTreeMap.mem_toList_iff_getElem?_eq_some

theorem searchMounts_toList {v : VFS F} (h : [] ∉ v.mountpoints) (p : Str) :
    searchMounts v.mountpoints.toList p =
      .ok ((v.mountFor p).map fun e => (p.drop (e.1.length - 1), e.2)) := by
  refine searchMounts_eq (fun e he h0 => h ?_) p
  rw [Std.ExtTreeMap.mem_iff_isSome_getElem?, ← h0, mem_toList_iff.1 he]
  rfl

theorem searchMounts_toList_nil {v : VFS F} (h : [] ∈ v.mountpoints) (p : Str) :
    searchMounts v.mountpoints.toList p = .error .outOfRange := by
  obtain ⟨fs, hfs⟩ := Option.isSome_iff_exists.1 (Std.ExtTreeMap.mem_iff_isSome_getElem?.1 h)
  exact searchMounts_nil_mem (sorted_toList _) ⟨([], fs), mem_toList_iff.2 hfs, rfl⟩ p

/-- `getFilesystem` has an answer for `p`. -/
def Resolvable (v : VFS F) (p : Str) : Prop :=
  (p.head? = some dot → v.cwd.isSome) ∧ [] ∉ v.mountpoints

theorem getFilesystem_cases (v : VFS F) (p : Str) :
    (Resolvable v p ∧ ∃ r, v.getFilesystem p = .ok r) ∨
      (¬ Resolvable v p ∧ ∃ e, v.getFilesystem p = .error e) := by
  unfold Resolvable VFS.getFilesystem
  by_cases hm : [] ∈ v.mountpoints
  · refine Or.inr ⟨fun h => h.2 hm, ?_⟩
    split
    · split
      · exact ⟨_, searchMounts_toList_nil hm _⟩
      · exact ⟨_, rfl⟩
    · exact ⟨_, searchMounts_toList_nil hm _⟩
  · split
    · rename_i hd
      split
      · rename_i c hc
        exact Or.inl ⟨⟨fun _ => by simp [hc], hm⟩, _, searchMounts_toList hm _⟩
      · rename_i hc
        exact Or.inr ⟨fun h => by simpa [hc] using h.1 hd, _, rfl⟩
    · rename_i hd
      exact Or.inl ⟨⟨fun h => absurd h hd, hm⟩, _, searchMounts_toList hm _⟩

theorem getFilesystem_ok_iff {v : VFS F} {p : Str} :
    (∃ r, v.getFilesystem p = .ok r) ↔ Resolvable v p := by
  rcases getFilesystem_cases v p with ⟨h, hr⟩ | ⟨h, e, he⟩
  · exact ⟨fun _ => h, fun _ => hr⟩
  · refine ⟨fun ⟨r, hr⟩ => ?_, fun h' => absurd h' h⟩
    rw [he] at hr
    cases hr

theorem wp_getFilesystem {Q : Option (Str × F) → Tracer F W → Prop} {p : Str} :
    wp (getFilesystem p) Q E σ ↔
      (∀ r, σ.vfs.getFilesystem p = .ok r → Q r σ) ∧
      (∀ e, σ.vfs.getFilesystem p = .error e → E e σ) := by
  unfold wp CodiusSandbox.getFilesystem
  cases σ.vfs.getFilesystem p <;> simp

theorem returns_getFilesystem {Q : Option (Str × F) → Tracer F W → Prop} {p : Str} :
    Returns (getFilesystem p) Q σ ↔ ∃ r, σ.vfs.getFilesystem p = .ok r ∧ Q r σ := by
  unfold Returns
  rw [wp_getFilesystem]
  cases σ.vfs.getFilesystem p <;> simp

/-! ## Buffers and memory -/

/-- A vector of `n` bytes can be had. -/
def Fits (σ : Tracer F W) (n : Nat) : Prop := n ≤ vectorMaxSize ∧ n ≤ σ.allocLimit

instance (σ : Tracer F W) (n : Nat) : Decidable (Fits σ n) :=
  inferInstanceAs (Decidable (n ≤ vectorMaxSize ∧ n ≤ σ.allocLimit))

theorem wp_newVector {Q : Buffer → Tracer F W → Prop} {n : Nat} :
    wp (newVector n) Q E σ ↔
      (n > vectorMaxSize → E .lengthError σ) ∧
      (n ≤ vectorMaxSize → n > σ.allocLimit → E .badAlloc σ) ∧
      (Fits σ n → Q (zeroed n σ.slack) σ) := by
  unfold newVector Fits
  simp only [wp_bind, wp_get, wp_ite, wp_throw, wp_pure, Nat.not_lt, and_imp]
  by_cases h1 : n > vectorMaxSize
  · simp [h1, Nat.not_le.2 h1]
  · simp [h1, Nat.not_lt.1 h1]

theorem returns_newVector {Q : Buffer → Tracer F W → Prop} {n : Nat} :
    Returns (newVector n) Q σ ↔ Fits σ n ∧ Q (zeroed n σ.slack) σ := by
  unfold Returns
  rw [wp_newVector]
  unfold Fits
  by_cases h1 : n > vectorMaxSize
  · simp [h1, Nat.not_le.2 h1]
  · by_cases h2 : n > σ.allocLimit
    · simp [h1, h2, Nat.not_lt.1 h1, Nat.not_le.2 h2]
    · simp [h1, h2, Nat.not_lt.1 h1, Nat.not_lt.1 h2]

theorem newVector_fits {n : Nat} (h : Fits σ n) : newVector n σ = .ok (zeroed n σ.slack) σ := by
  rw [newVector, bind_get, if_neg (Nat.not_lt.2 h.1), if_neg (Nat.not_lt.2 h.2)]
  rfl

theorem newVector_error {n : Nat} (h : ¬ Fits σ n) : ∃ e t, newVector n σ = .error e t := by
  have hret : ¬ Returns (newVector n) (fun _ _ => True) σ := by
    rw [returns_newVector]
    exact fun hr => h hr.1
  exact error_of_not_returns hret

theorem ptrace_eq {x : PtraceM α} : wp (ptrace x) Q E σ ↔
    wp x (fun a p => Q a { σ with mem := p.mem, errno := p.errno })
      (fun e p => E e { σ with mem := p.mem, errno := p.errno }) ⟨σ.mem, σ.errno⟩ := by
  unfold wp ptrace
  cases x ⟨σ.mem, σ.errno⟩ <;> rfl

/-- A write to the child, where what follows does not look at the child's memory or `errno`. -/
theorem returns_writeData {addr : Address} {length : Nat} {buf : Buffer} (hl : length < 2 ^ 64)
    {P : Prop} {Q : Bool → Tracer F W → Prop} (hQ : ∀ a m e, Q a { σ with mem := m, errno := e } ↔ P) :
    Returns (ptrace (writeData addr length buf)) Q σ ↔ TailMapped σ.mem addr length ∧ P := by
  unfold Returns
  rw [ptrace_eq]
  by_cases h : TailMapped σ.mem addr length
  · obtain ⟨r, s', hr⟩ := writeData_mapped buf (s := ⟨σ.mem, σ.errno⟩) hl h
    simp only [wp, hr, hQ, h, true_and]
  · obtain ⟨s', hr⟩ := writeData_unmapped buf (s := ⟨σ.mem, σ.errno⟩) hl h
    simp only [wp, hr, h, false_and]

theorem writeVector_eq {addr : Address} {length size : Nat} {buf : Buffer} (h : size = 0 → length = 0) :
    (writeVector addr length buf size : TracerM F W Bool) = ptrace (writeData addr length buf) :=
  if_neg fun hnull => hnull.2 (h hnull.1)

theorem writeVector_null {addr : Address} {length size : Nat} {buf : Buffer} (h : ¬ (size = 0 → length = 0)) :
    (writeVector addr length buf size : TracerM F W Bool) = throw .nullDeref := by
  rw [Classical.not_imp] at h
  exact if_pos h

theorem returns_writeVector {addr : Address} {length size : Nat} {buf : Buffer} (hl : length < 2 ^ 64)
    {P : Prop} {Q : Bool → Tracer F W → Prop} (hQ : ∀ a m e, Q a { σ with mem := m, errno := e } ↔ P) :
    Returns (writeVector addr length buf size) Q σ ↔ ((size = 0 → length = 0) ∧ TailMapped σ.mem addr length) ∧ P := by
  by_cases h : size = 0 → length = 0
  · rw [writeVector_eq h, returns_writeData hl hQ]
    exact ⟨fun hr => ⟨⟨h, hr.1⟩, hr.2⟩, fun hr => ⟨hr.1.2, hr.2⟩⟩
  · rw [writeVector_null h]
    exact iff_of_false id fun hr => h hr.1.1

theorem returns_copyData {addr : Address} {length : Nat} {buf : Buffer} {P : Prop}
    {Q : Buffer × Bool → Tracer F W → Prop} (hQ : ∀ a e, Q a { σ with errno := e } ↔ P) :
    Returns (ptrace (copyData addr length buf)) Q σ ↔ WordsMapped σ.mem addr length ∧ P := by
  unfold Returns
  rw [ptrace_eq]
  by_cases h : WordsMapped σ.mem addr length
  · obtain ⟨r, e, hr⟩ := copyData_run buf (s := ⟨σ.mem, σ.errno⟩) h
    simp only [wp, hr, hQ, h, true_and]
  · simp only [wp, copyData_unmapped buf (s := ⟨σ.mem, σ.errno⟩) h, h, false_and]

/-! ## Files -/

theorem isVirtualFD_iff {fd : Int} : isVirtualFD fd = true ↔ firstVirtualFD ≤ fd := by
  simp [isVirtualFD]

theorem isVirtualFD_false_iff {fd : Int} : isVirtualFD fd = false ↔ fd < firstVirtualFD := by
  simp [isVirtualFD]

/-- The state behind a request to a filesystem. -/
def Tracer.after (σ : Tracer F W) (fs : F) (request : Request) (result : Int) (h : Host W) :
    Tracer F W :=
  { σ with errno := h.errno, world := h.world, calls := σ.calls ++ [⟨fs, request, result⟩] }

theorem wp_fsCall {fs : F} {request : Request} {result : α → Int} {op : StateM (Host W) α} :
    wp (fsCall fs request result op) Q E σ ↔
      Q (op.run ⟨σ.errno, σ.world⟩).1
        (σ.after fs request (result (op.run ⟨σ.errno, σ.world⟩).1) (op.run ⟨σ.errno, σ.world⟩).2) :=
  Iff.rfl

theorem returns_fsCall {fs : F} {request : Request} {result : α → Int} {op : StateM (Host W) α} :
    Returns (fsCall fs request result op) Q σ ↔
      Q (op.run ⟨σ.errno, σ.world⟩).1
        (σ.after fs request (result (op.run ⟨σ.errno, σ.world⟩).1) (op.run ⟨σ.errno, σ.world⟩).2) :=
  Iff.rfl

theorem getFile_open {fd : Int} {f : File F} (hv : isVirtualFD fd = true)
    (h : σ.vfs.openFiles[fd]? = some f) : getFile fd σ = .ok (some f) σ := by
  rw [getFile, bind_get, if_neg (by simp [hv]), h]
  rfl

theorem getFile_missing {fd : Int} (hv : isVirtualFD fd = true)
    (h : σ.vfs.openFiles[fd]? = none) : getFile fd σ = .error .outOfRange σ := by
  rw [getFile, bind_get, if_neg (by simp [hv]), h]
  rfl

theorem wp_getFile {Q : Option (File F) → Tracer F W → Prop} {fd : Int}
    (hv : isVirtualFD fd = true) :
    wp (getFile fd) Q E σ ↔
      (∀ f, σ.vfs.openFiles[fd]? = some f → Q (some f) σ) ∧
      (σ.vfs.openFiles[fd]? = none → E .outOfRange σ) := by
  unfold wp
  cases h : σ.vfs.openFiles[fd]? with
  | none => simp [getFile_missing hv h]
  | some f => simp [getFile_open hv h]

/-! ## What the steps leave alone -/

/-- Everything but the child's memory and `errno`. -/
def Tracer.outside (σ : Tracer F W) : VFS F × Int × W × List UInt8 × Buffer × Nat × List (FsEvent F) :=
  (σ.vfs, σ.nextFD, σ.world, σ.slack, σ.stack, σ.allocLimit, σ.calls)

theorem ptrace_outside (x : PtraceM α) : Preserves Tracer.outside (ptrace x : TracerM F W α) :=
  fun σ => by
    rw [ptrace_eq]
    unfold wp
    split
    · rfl
    · rfl

theorem writeVector_outside (addr : Address) (length : Nat) (buf : Buffer) (size : Nat) :
    Preserves Tracer.outside (writeVector addr length buf size : TracerM F W Bool) :=
  .ite (.throw _) (ptrace_outside _)

theorem newVector_outside (n : Nat) : Preserves Tracer.outside (newVector n : TracerM F W Buffer) :=
  .bind .get fun _ => .ite (.throw _) (.ite (.throw _) (.pure _))

theorem getFilename_outside (addr : Address) :
    Preserves Tracer.outside (getFilename addr : TracerM F W Str) :=
  .bind .get fun _ => .bind (ptrace_outside _) fun _ => .pure _

theorem getFilesystem_outside (p : Str) :
    Preserves Tracer.outside (getFilesystem p : TracerM F W _) := fun σ => by
  rw [wp_getFilesystem]
  exact ⟨fun _ _ => rfl, fun _ _ => rfl⟩

theorem getFile_outside (fd : Int) : Preserves Tracer.outside (getFile fd : TracerM F W _) := by
  refine .bind .get fun s => .ite (.throw _) ?_
  split
  · exact .pure _
  · exact .throw _

theorem openatName_outside (dirfd : Word) (n : Str) :
    Preserves Tracer.outside (openatName dirfd n : TracerM F W Str) := by
  refine .ite (.pure _) (.ite (.bind .get fun s => ?_)
    (.ite (.bind (getFile_outside _) fun f => ?_) (.pure _)))
  · split
    · exact .pure _
    · exact .throw _
  · split
    · exact .pure _
    · exact .throw _

end CodiusSandbox
