import CodiusSandbox.VfsProofs
/-!
# Which mount an absolute path gets

`MountTable` is what a host mounts: distinct absolute paths with a trailing slash. `mountAll` hands
them to `mountFilesystem` in order; since the table is a map, the order is forgotten
(`mountAll_perm`). The loop of `getFilesystem` meets a shorter mount before a longer one, so it gives
the *outermost* mount of a path (`mountFor_outermost`), which is the innermost one exactly if
only one mount matches (`lookup_innermost_iff`).
-/
namespace CodiusSandbox

open PrefixTable

variable {F : Type}

/-- Filesystems and where to mount them. -/
structure MountTable (F : Type) where
  entries : List (Str × F)
  distinct : (entries.map Prod.fst).Nodup
  absolute : ∀ e ∈ entries, e.1.head? = some slash
  closed : ∀ e ∈ entries, e.1.getLast? = some slash

def MountTable.paths (ms : MountTable F) : List Str := ms.entries.map Prod.fst

/-- The calls of `mountFilesystem`, from a new VFS. -/
def mountAll (entries : List (Str × F)) : VFS F :=
  entries.foldl (fun v e => v.mountFilesystem e.1 e.2) .empty

/-! ## The map behind the calls -/

theorem mountFilesystem_getElem? (v : VFS F) (path k : Str) (fs : F) :
    (v.mountFilesystem path fs).mountpoints[k]? =
      if path = k ∧ path ∉ v.mountpoints then some fs else v.mountpoints[k]? := by
  simp [VFS.mountFilesystem, Std.ExtTreeMap.getElem?_insertIfNew]

theorem getElem?_foldl_mount {k : Str} {fs : F} : ∀ {entries : List (Str × F)} {v : VFS F},
    (entries.map Prod.fst).Nodup → (∀ e ∈ entries, e.1 ∉ v.mountpoints) →
      ((entries.foldl (fun v e => v.mountFilesystem e.1 e.2) v).mountpoints[k]? = some fs ↔
        v.mountpoints[k]? = some fs ∨ (k, fs) ∈ entries)
  | [], v, _, _ => by simp
  | (path, fs') :: entries, v, hd, hfresh => by
    obtain ⟨hnot, hd⟩ := List.nodup_cons.1 hd
    have hpath : path ∉ v.mountpoints := hfresh (path, fs') (by simp)
    have hnew : ∀ e ∈ entries, e.1 ∉ (v.mountFilesystem path fs').mountpoints := by
      intro e he hmem
      have hne : path ≠ e.1 := fun h => hnot (List.mem_map.2 ⟨e, he, h.symm⟩)
      rw [Std.ExtTreeMap.mem_iff_isSome_getElem?, mountFilesystem_getElem?, if_neg fun h => hne h.1] at hmem
      exact hfresh e (by simp [he]) (Std.ExtTreeMap.mem_iff_isSome_getElem?.2 hmem)
    rw [List.foldl_cons, getElem?_foldl_mount hd hnew, mountFilesystem_getElem?]
    by_cases hk : path = k
    · subst hk
      have hnone : v.mountpoints[path]? = none := by simpa using hpath
      simp only [hpath, not_false_iff, and_self, if_true, hnone, List.mem_cons, Prod.mk.injEq,
        true_and, Option.some.injEq, reduceCtorEq, false_or, eq_comm]
    · simp only [hk, false_and, if_false, List.mem_cons, Prod.mk.injEq, Ne.symm hk, false_or]

/-- The table holds what was mounted. -/
theorem mem_mountAll {entries : List (Str × F)} (hd : (entries.map Prod.fst).Nodup) {e : Str × F} :
    e ∈ (mountAll entries).mountpoints.toList ↔ e ∈ entries := by
  rw [mem_toList_iff, mountAll, getElem?_foldl_mount hd fun _ _ h => by simp [VFS.empty] at h]
  simp [VFS.empty]

theorem foldl_mount_tables (entries : List (Str × F)) (v : VFS F) :
    (entries.foldl (fun v e => v.mountFilesystem e.1 e.2) v).cwd = v.cwd ∧
      (entries.foldl (fun v e => v.mountFilesystem e.1 e.2) v).openFiles = v.openFiles := by
  induction entries generalizing v with
  | nil => exact ⟨rfl, rfl⟩
  | cons e entries ih => exact ih (v.mountFilesystem e.1 e.2)

/-- Mounting in another order gives the same VFS. -/
theorem mountAll_perm {entries entries' : List (Str × F)} (hd : (entries.map Prod.fst).Nodup)
    (hp : entries'.Perm entries) : mountAll entries' = mountAll entries := by
  have hd' : (entries'.map Prod.fst).Nodup := (hp.map Prod.fst).nodup_iff.2 hd
  have hmap : (mountAll entries').mountpoints = (mountAll entries).mountpoints := by
    apply Std.ExtTreeMap.ext_getElem?
    intro k
    apply Option.ext
    intro fs
    rw [← mem_toList_iff (e := (k, fs)), ← mem_toList_iff (e := (k, fs)), mem_mountAll hd',
      mem_mountAll hd, hp.mem_iff]
  obtain ⟨hcwd, hfiles⟩ := foldl_mount_tables entries .empty
  obtain ⟨hcwd', hfiles'⟩ := foldl_mount_tables entries' .empty
  unfold mountAll at hmap ⊢
  rw [VFS.mk.injEq]
  exact ⟨hmap, hfiles'.trans hfiles.symm, hcwd'.trans hcwd.symm⟩

/-! ## The lookup -/

variable {ms : MountTable F} {p : Str}

theorem MountTable.ne_nil (ms : MountTable F) {e : Str × F} (he : e ∈ ms.entries) : e.1 ≠ [] := by
  intro h0
  have := ms.absolute e he
  simp [h0] at this

theorem nil_not_mounted (ms : MountTable F) : [] ∉ (mountAll ms.entries).mountpoints := by
  intro h
  obtain ⟨fs, hfs⟩ := Option.isSome_iff_exists.1 (Std.ExtTreeMap.mem_iff_isSome_getElem?.1 h)
  have he : (([] : Str), fs) ∈ ms.entries := (mem_mountAll ms.distinct).1 (mem_toList_iff.2 hfs)
  exact ms.ne_nil he rfl

theorem mem_paths_toList {k : Str} :
    k ∈ (mountAll ms.entries).mountpoints.toList.map Prod.fst ↔ k ∈ ms.paths := by
  simp only [List.mem_map, mem_mountAll ms.distinct, MountTable.paths]

theorem getFilesystem_absolute (hp : p.head? = some slash) :
    (mountAll ms.entries).getFilesystem p =
      .ok (((mountAll ms.entries).mountFor p).map fun e => (p.drop (e.1.length - 1), e.2)) := by
  rw [VFS.getFilesystem, if_neg (by rw [hp]; decide), searchMounts_toList (nil_not_mounted ms)]

/-- The mount found is the shortest that matches. -/
theorem mountFor_outermost {e : Str × F} :
    (mountAll ms.entries).mountFor p = some e ↔ e ∈ ms.entries ∧ IsShortest ms.paths p e.1 := by
  rw [VFS.mountFor, firstPrefix_iff (sorted_toList _), mem_mountAll ms.distinct]
  simp only [IsShortest, mem_paths_toList]

theorem mountFor_none :
    (mountAll ms.entries).mountFor p = none ↔ ∀ k ∈ ms.paths, ¬ k <+: p := by
  rw [VFS.mountFor, firstPrefix_eq_none]
  simp only [mem_mountAll ms.distinct, MountTable.paths, List.mem_map, forall_exists_index, and_imp,
    forall_apply_eq_imp_iff₂]

theorem drop_of_closed {k r : Str} (hk : k.getLast? = some slash) (hp : p = k ++ r) :
    p.drop (k.length - 1) = slash :: r := by
  obtain ⟨k', rfl⟩ := List.getLast?_eq_some_iff.1 hk
  subst hp
  simp

/-- What `VFS::getFilesystem` promises for an absolute path (`vfs.h:63-70`). -/
structure LooksUpInnermost (ms : MountTable F) (p : Str) : Prop where
  found : ∀ e ∈ ms.entries, ∀ r, IsLongest ms.paths p e.1 → p = e.1 ++ r →
    (mountAll ms.entries).getFilesystem p = .ok (some (slash :: r, e.2))
  null : (mountAll ms.entries).getFilesystem p = .ok none ↔ ∀ k ∈ ms.paths, ¬ k <+: p
  order : ∀ entries', entries'.Perm ms.entries →
    (mountAll entries').getFilesystem p = (mountAll ms.entries).getFilesystem p

theorem getFilesystem_none_iff (hp : p.head? = some slash) :
    (mountAll ms.entries).getFilesystem p = .ok none ↔ ∀ k ∈ ms.paths, ¬ k <+: p := by
  rw [getFilesystem_absolute hp, ← mountFor_none]
  simp

/-- Two mounts that match give local paths of different lengths. -/
theorem length_of_found {e : Str × F} {r : Str} (hp : p.head? = some slash) (he : e ∈ ms.entries)
    (hr : p = e.1 ++ r) (h : (mountAll ms.entries).getFilesystem p = .ok (some (slash :: r, e.2))) :
    IsShortest ms.paths p e.1 := by
  rw [getFilesystem_absolute hp] at h
  cases hm : (mountAll ms.entries).mountFor p with
  | none => simp [hm] at h
  | some e' =>
    obtain ⟨he', hs⟩ := mountFor_outermost.1 hm
    simp only [hm, Option.map_some, Except.ok.injEq, Option.some.injEq, Prod.mk.injEq] at h
    have hlen := congrArg List.length h.1
    have hpos := List.length_pos_iff.2 (ms.ne_nil he)
    have hpos' := List.length_pos_iff.2 (ms.ne_nil he')
    have hle := hs.2.1.length_le
    have hpl := congrArg List.length hr
    simp only [List.length_drop, List.length_cons, List.length_append] at hlen hpl
    have heq : e.1 = e'.1 :=
      prefix_eq_of_length ⟨r, hr.symm⟩ hs.2.1 (by omega)
    rw [heq]
    exact hs

theorem lookup_innermost_iff (hp : p.head? = some slash) :
    LooksUpInnermost ms p ↔
      ∀ k ∈ ms.paths, ∀ k' ∈ ms.paths, k <+: p → k' <+: p → k = k' := by
  constructor
  · intro h k hk k' hk' hkp hkp'
    obtain ⟨l, hl⟩ := exists_isLongest hk hkp
    obtain ⟨e, he, rfl⟩ := List.mem_map.1 hl.1
    obtain ⟨r, hr⟩ := hl.2.1
    have hs := length_of_found hp he hr.symm (h.found e he r hl hr.symm)
    have hall := hs.isLongest_iff.1 hl
    rw [hall k hk hkp, hall k' hk' hkp']
  · intro h
    refine ⟨fun e he r hl hr => ?_, getFilesystem_none_iff hp, fun _ hperm => ?_⟩
    · have hs : IsShortest ms.paths p e.1 :=
        ⟨hl.1, hl.2.1, fun k hk hkp => Nat.le_of_eq (by rw [h k hk e.1 hl.1 hkp hl.2.1])⟩
      rw [getFilesystem_absolute hp, mountFor_outermost.2 ⟨he, hs⟩, Option.map_some,
        drop_of_closed (ms.closed e he) hr]
    · rw [mountAll_perm ms.distinct hperm]

/-- `/` and `/data/`. -/
def nested : MountTable Fixed where
  entries := [(str "/", ⟨1⟩), (str "/data/", ⟨2⟩)]
  distinct := by decide
  absolute := by decide
  closed := by decide

theorem lookup_innermost_root : LooksUpInnermost nested (str "/etc/passwd") ↔
    ∀ k ∈ nested.paths, ∀ k' ∈ nested.paths, k <+: str "/etc/passwd" → k' <+: str "/etc/passwd" →
      k = k' :=
  lookup_innermost_iff (by decide)

/-- The filesystem at `/` gets what is mounted over. -/
theorem lookup_nested : (mountAll nested.entries).getFilesystem (str "/data/x") =
      .ok (some (str "/data/x", ⟨1⟩)) ∧
    IsLongest nested.paths (str "/data/x") (str "/data/") ∧
    ¬ LooksUpInnermost nested (str "/data/x") := by
  have hfs : (mountAll nested.entries).getFilesystem (str "/data/x") =
      .ok (some (str "/data/x", ⟨1⟩)) := by decide +kernel
  have hlong : IsLongest nested.paths (str "/data/x") (str "/data/") := by
    unfold IsLongest
    decide
  refine ⟨hfs, hlong, fun h => ?_⟩
  have hx := h.found (str "/data/", ⟨2⟩) (by decide) (str "x") hlong (by decide)
  rw [hfs] at hx
  exact absurd hx (by decide)

end CodiusSandbox
