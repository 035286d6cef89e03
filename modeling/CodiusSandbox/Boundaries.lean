import CodiusSandbox.Mounts
import CodiusSandbox.Reachability
/-!
# Where a mount begins

`getFilesystem` takes a mount path for a prefix of the text and the local path from the mount path's last
character on (`vfs.cpp:90-91`). Both are right for a mount path that ends in a slash, but for the mount
point's own name without the slash; for any other mount path neither is (`matches_at_boundary_iff`).
`setCWD` takes the trailing slash away first, and so looks a mount point up under the name that is not found
(`opens_directory_iff`).
-/
namespace CodiusSandbox

open Wp PrefixTable

variable {F W : Type}

/-! ## One mount -/

/-- `p` is the path `P`, with or without its trailing slash, or lies below it. -/
def AtOrBelow (P p : Str) : Prop := p = trimSlash P ∨ trimSlash P ++ [slash] <+: p

/-- What `VFS::getFilesystem` promises for the path `p` where `fs` is mounted at `P` (`vfs.h:63-70`). -/
structure MatchesAtBoundary (v : VFS F) (P p : Str) (fs : F) : Prop where
  finds : (∃ path, v.getFilesystem p = .ok (some (path, fs))) ↔ AtOrBelow P p
  rooted : ∀ path, v.getFilesystem p = .ok (some (path, fs)) → path.head? = some slash ∧
    if p = trimSlash P then path = [slash] else trimSlash P ++ path = p

theorem ne_nil_of_head {p : Str} {a : UInt8} (h : p.head? = some a) : p ≠ [] := by
  rintro rfl
  cases h

theorem trimSlash_closed (b : Str) : trimSlash (b ++ [slash]) = b := by
  rw [trimSlash, List.getLast?_concat, if_pos rfl, List.dropLast_concat]

theorem trimSlash_of_ne {P : Str} (h : P.getLast? ≠ some slash) : trimSlash P = P := if_neg h

section
variable {v : VFS F} {P p : Str} {fs : F}

theorem mem_mountFilesystem (hv : v.mountpoints = ∅) {e : Str × F} :
    e ∈ (v.mountFilesystem P fs).mountpoints.toList ↔ e = (P, fs) := by
  obtain ⟨k, f⟩ := e
  rw [mem_toList_iff, mountFilesystem_getElem?, hv, Prod.mk.injEq]
  by_cases hk : P = k
  · simp [hk, eq_comm]
  · simp [hk, Ne.symm hk]

/-- With one mount the search is a test of one prefix. -/
theorem getFilesystem_single (hv : v.mountpoints = ∅) (hP : P ≠ []) (hp : p.head? ≠ some dot) :
    (v.mountFilesystem P fs).getFilesystem p =
      .ok (if P <+: p then some (p.drop (P.length - 1), fs) else none) := by
  have hnil : ([] : Str) ∉ (v.mountFilesystem P fs).mountpoints := by
    intro h
    obtain ⟨f, hf⟩ := Option.isSome_iff_exists.1 (Std.ExtTreeMap.mem_iff_isSome_getElem?.1 h)
    have he := (mem_mountFilesystem hv).1 (mem_toList_iff (e := ([], f)).2 hf)
    rw [Prod.mk.injEq] at he
    exact hP he.1.symm
  rw [VFS.getFilesystem, if_neg hp, searchMounts_toList hnil]
  by_cases hpre : P <+: p
  · have hfor : (v.mountFilesystem P fs).mountFor p = some (P, fs) := by
      rw [VFS.mountFor, firstPrefix_iff (sorted_toList _)]
      refine ⟨(mem_mountFilesystem hv).2 rfl, List.mem_map.2 ⟨_, (mem_mountFilesystem hv).2 rfl, rfl⟩, hpre, ?_⟩
      intro k hk _
      obtain ⟨e, he, rfl⟩ := List.mem_map.1 hk
      exact Nat.le_of_eq (congrArg (fun e => e.1.length) ((mem_mountFilesystem hv).1 he).symm)
    rw [hfor, if_pos hpre]
    rfl
  · have hfor : (v.mountFilesystem P fs).mountFor p = none := by
      rw [VFS.mountFor, firstPrefix_eq_none]
      intro e he
      rw [(mem_mountFilesystem hv).1 he]
      exact hpre
    rw [hfor, if_neg hpre]
    rfl

theorem getFilesystem_mounted (hv : v.mountpoints = ∅) (hP : P.head? = some slash) (hp : p.head? = some slash) :
    (v.mountFilesystem P fs).getFilesystem p =
      .ok (if P <+: p then some (p.drop (P.length - 1), fs) else none) :=
  getFilesystem_single hv (ne_nil_of_head hP) (by rw [hp]; decide)

theorem found_mounted (hv : v.mountpoints = ∅) (hP : P.head? = some slash) (hp : p.head? = some slash) {path : Str} :
    (v.mountFilesystem P fs).getFilesystem p = .ok (some (path, fs)) ↔ P <+: p ∧ path = p.drop (P.length - 1) := by
  rw [getFilesystem_mounted hv hP hp]
  by_cases hpre : P <+: p
  · simp [hpre, eq_comm]
  · simp [hpre]

/-- A mount path with its slash: only the mount point's name without the slash is missed. -/
theorem matches_closed_iff (hv : v.mountpoints = ∅) (hP : P.head? = some slash) (hp : p.head? = some slash)
    (hclosed : P.getLast? = some slash) :
    MatchesAtBoundary (v.mountFilesystem P fs) P p fs ↔ p ≠ trimSlash P := by
  obtain ⟨b, rfl⟩ := List.getLast?_eq_some_iff.1 hclosed
  rw [trimSlash_closed]
  constructor
  · rintro h rfl
    obtain ⟨path, hpath⟩ := h.finds.2 (Or.inl (trimSlash_closed p).symm)
    have hlen := ((found_mounted hv hP hp).1 hpath).1.length_le
    rw [List.length_append, List.length_singleton] at hlen
    omega
  · intro hne
    refine ⟨?_, fun path hpath => ?_⟩
    · simp only [found_mounted hv hP hp, exists_and_left, exists_eq, and_true, AtOrBelow, trimSlash_closed]
      exact ⟨Or.inr, fun h => h.resolve_left hne⟩
    · obtain ⟨⟨r, hr⟩, hdrop⟩ := (found_mounted hv hP hp).1 hpath
      have hlocal : path = slash :: r := by
        rw [hdrop]
        exact drop_of_closed hclosed hr.symm
      rw [trimSlash_closed, if_neg hne, hlocal, ← hr]
      exact ⟨rfl, by simp⟩

/-- A mount path without a slash: nothing it matches is right. -/
theorem matches_open_iff (hv : v.mountpoints = ∅) (hP : P.head? = some slash) (hp : p.head? = some slash)
    (hopen : P.getLast? ≠ some slash) : MatchesAtBoundary (v.mountFilesystem P fs) P p fs ↔ ¬ P <+: p := by
  constructor
  · intro h hpre
    obtain ⟨hhead, hlocal⟩ := h.rooted _ ((found_mounted hv hP hp).2 ⟨hpre, rfl⟩)
    have hpos := List.length_pos_iff.2 (ne_nil_of_head hP)
    rw [trimSlash_of_ne hopen] at hlocal
    by_cases heq : p = P
    · subst heq
      rw [if_pos rfl] at hlocal
      obtain ⟨l, hl⟩ : ∃ l, p = l ++ [slash] :=
        ⟨p.take (p.length - 1), by rw [← hlocal, List.take_append_drop]⟩
      exact hopen (by rw [hl, List.getLast?_concat])
    · rw [if_neg heq] at hlocal
      have hlen := congrArg List.length hlocal
      have hle := hpre.length_le
      rw [List.length_append, List.length_drop] at hlen
      omega
  · intro hpre
    refine ⟨iff_of_false ?_ ?_, fun path hpath => absurd ((found_mounted hv hP hp).1 hpath).1 hpre⟩
    · rintro ⟨path, hpath⟩
      exact hpre ((found_mounted hv hP hp).1 hpath).1
    · rintro (rfl | h)
      · rw [trimSlash_of_ne hopen] at hpre
        exact hpre (List.prefix_refl P)
      · rw [trimSlash_of_ne hopen] at h
        exact hpre ((List.prefix_append P [slash]).trans h)

theorem matches_at_boundary_iff (hv : v.mountpoints = ∅) (hP : P.head? = some slash) (hp : p.head? = some slash) :
    MatchesAtBoundary (v.mountFilesystem P fs) P p fs ↔
      (P.getLast? = some slash → p ≠ trimSlash P) ∧ (P.getLast? ≠ some slash → ¬ P <+: p) := by
  by_cases hclosed : P.getLast? = some slash
  · rw [matches_closed_iff hv hP hp hclosed]
    simp [hclosed]
  · rw [matches_open_iff hv hP hp hclosed]
    simp [hclosed]

end

theorem matches_at_boundary_data :
    MatchesAtBoundary (VFS.empty.mountFilesystem (str "/data/") (⟨1⟩ : Fixed)) (str "/data/") (str "/data/x") ⟨1⟩ ↔
      ((str "/data/").getLast? = some slash → str "/data/x" ≠ trimSlash (str "/data/")) ∧
        ((str "/data/").getLast? ≠ some slash → ¬ str "/data/" <+: str "/data/x") :=
  matches_at_boundary_iff rfl (by decide) (by decide)

/-- What is mounted at "/data" is asked for "abase" when the path is "/database". -/
theorem sibling_matches : (VFS.empty.mountFilesystem (str "/data") (⟨1⟩ : Fixed)).getFilesystem (str "/database") =
      .ok (some (str "abase", ⟨1⟩)) ∧ ¬ AtOrBelow (str "/data") (str "/database") ∧
    ¬ MatchesAtBoundary (VFS.empty.mountFilesystem (str "/data") (⟨1⟩ : Fixed)) (str "/data") (str "/database") ⟨1⟩ := by
  have hfs : (VFS.empty.mountFilesystem (str "/data") (⟨1⟩ : Fixed)).getFilesystem (str "/database") =
      .ok (some (str "abase", ⟨1⟩)) := by decide +kernel
  have hnot : ¬ AtOrBelow (str "/data") (str "/database") := by
    unfold AtOrBelow
    decide
  exact ⟨hfs, hnot, fun h => hnot (h.finds.1 ⟨_, hfs⟩)⟩

/-! ## What is added to the log of requests -/

/-- From `σ` to `t` the current directory stays and requests are logged behind those that were. -/
structure Tracer.Stays (σ t : Tracer F W) : Prop where
  cwd : t.vfs.cwd = σ.vfs.cwd
  calls : ∃ events, t.calls = σ.calls ++ events

theorem stays_admits : Admits (Tracer.Stays (F := F) (W := W)) where
  trans := by
    rintro σ t u ⟨hcwd, events, ht⟩ ⟨hcwd', events', hu⟩
    exact ⟨hcwd'.trans hcwd, events ++ events', by rw [hu, ht, List.append_assoc]⟩
  outside := by
    intro σ t h
    simp only [Tracer.outside, Prod.mk.injEq] at h
    exact ⟨by rw [h.1], [], by rw [h.2.2.2.2.2.2, List.append_nil]⟩
  request := fun _ _ _ _ => fun _ => ⟨rfl, _, rfl⟩

section
variable [Filesystem F W] {σ t : Tracer F W} {n path : Str} {fs : F}

theorem close_stays (f : File F) : Advances Tracer.Stays (f.close : TracerM F W _) :=
  .ite (stays_admits.bind (stays_admits.request _ _ _ _) fun _ => stays_admits.pure _) (stays_admits.pure _)

theorem destroy_stays (f : File F) : Advances Tracer.Stays (f.destroy : TracerM F W _) :=
  stays_admits.bind (close_stays f) fun _ => stays_admits.pure _

/-! ## What `setCWD` opens -/

/-- The first thing `setCWD n` does is to have `fs` open `path`. -/
def Tracer.Opens (σ : Tracer F W) (n path : Str) (fs : F) : Prop :=
  ∃ ret t r events, setCWD n σ = .ok ret t ∧ t.calls = σ.calls ++ ⟨fs, .open path O_DIRECTORY 0, r⟩ :: events

/-- A name that is found is opened, and its file becomes the current directory. -/
theorem setCWD_run (h : σ.vfs.getFilesystem (trimSlash n) = .ok (some (path, fs))) :
    ∃ t events, setCWD n σ = .ok 0 t ∧
      t.vfs = { σ.vfs with cwd := some ⟨σ.replyTo (Filesystem.fsOpen fs path O_DIRECTORY 0), σ.nextFD, trimSlash n, fs⟩ } ∧
      t.calls = σ.calls ++ ⟨fs, .open path O_DIRECTORY 0, σ.replyTo (Filesystem.fsOpen fs path O_DIRECTORY 0)⟩ :: events := by
  have hg : getFilesystem (trimSlash n) σ = .ok (some (path, fs)) σ := by
    simp only [getFilesystem, h]
  have hf : fsCall fs (.open path O_DIRECTORY 0) id (Filesystem.fsOpen fs path O_DIRECTORY 0) σ =
      .ok (σ.replyTo (Filesystem.fsOpen fs path O_DIRECTORY 0)) _ := rfl
  rw [setCWD, bind_ok hg]
  dsimp only
  rw [bind_ok hf, bind_ok (newFile_run _ _ _ _), bind_get, bind_set]
  dsimp only
  cases hc : σ.vfs.cwd with
  | none => exact ⟨_, [], rfl, rfl, rfl⟩
  | some c =>
    obtain ⟨t, ht, hs⟩ := destroy_run c (σ.enter n path fs)
    obtain ⟨events, hevents⟩ := ((destroy_stays c).of_ok ht).calls
    refine ⟨t, events, bind_ok ht, hs.vfs, ?_⟩
    rw [hevents]
    exact List.append_assoc _ _ _

theorem opens_iff : σ.Opens n path fs ↔ σ.vfs.getFilesystem (trimSlash n) = .ok (some (path, fs)) := by
  constructor
  · rintro ⟨ret, t, r, events, hrun, hcalls⟩
    rcases getFilesystem_cases σ.vfs (trimSlash n) with ⟨_, found, hok⟩ | ⟨_, e, herr⟩
    · rcases found with _ | ⟨path', fs'⟩
      · rw [setCWD_none hok] at hrun
        cases hrun
        have hlen := congrArg List.length hcalls
        rw [List.length_append, List.length_cons] at hlen
        omega
      · obtain ⟨t', events', hrun', _, hcalls'⟩ := setCWD_run hok
        rw [hrun'] at hrun
        cases hrun
        rw [hcalls'] at hcalls
        have hevent := (List.cons.inj (List.append_cancel_left hcalls)).1
        rw [FsEvent.mk.injEq, Request.open.injEq] at hevent
        rw [hok, hevent.1, hevent.2.1.1]
    · rw [setCWD_error herr] at hrun
      cases hrun
  · intro h
    obtain ⟨t, events, hrun, _, hcalls⟩ := setCWD_run h
    exact ⟨0, t, _, events, hrun, hcalls⟩

/-- `setCWD` only looks at the trimmed name. -/
theorem setCWD_trim {m : Str} (h : trimSlash n = trimSlash m) : (setCWD n : TracerM F W Int) = setCWD m := by
  rw [setCWD, h, setCWD]

end

/-! ## A trailing slash -/

/-- `d` with a trailing slash. -/
def slashed (d : Str) : Str := trimSlash d ++ [slash]

/-- The local path of the directory `d` below the mount path `k`. -/
def localDir (k d : Str) : Str :=
  if k = slashed d then [slash] else (trimSlash d).drop (k.length - 1)

/-- `setCWD` has the innermost mount that covers `d` open `d`, and a trailing slash makes no difference. -/
structure OpensDirectory [Filesystem F W] (ms : MountTable F) (σ : Tracer F W) (d : Str) : Prop where
  opens : ∀ e ∈ ms.entries, IsLongest ms.paths (slashed d) e.1 → σ.Opens d (localDir e.1 d) e.2
  same : trimSlash d ≠ [] → setCWD (slashed d) σ = setCWD (trimSlash d) σ

theorem trimSlash_slashed (d : Str) : trimSlash (slashed d) = trimSlash d := trimSlash_closed _

theorem trimSlash_prefix (d : Str) : trimSlash d <+: d := by
  unfold trimSlash
  split
  · exact List.dropLast_prefix d
  · exact List.prefix_refl d

theorem trimSlash_head {d : Str} (hd : d.head? = some slash) : (trimSlash d).head? ≠ some dot := by
  obtain ⟨r, hr⟩ := trimSlash_prefix d
  intro h
  rw [← hr, List.head?_append, h, Option.some_or] at hd
  exact absurd hd (by decide)

theorem prefix_slashed {k d : Str} : k <+: slashed d ↔ k = slashed d ∨ k <+: trimSlash d := List.prefix_concat_iff

section
variable [Filesystem F W] {ms : MountTable F} {σ t : Tracer F W} {d n p path : Str} {fs : F}

omit [Filesystem F W] in
theorem found_iff (hm : σ.vfs.mountpoints = (mountAll ms.entries).mountpoints) (hp : p.head? ≠ some dot) :
    σ.vfs.getFilesystem p = .ok (some (path, fs)) ↔
      ∃ e ∈ ms.entries, IsShortest ms.paths p e.1 ∧ path = p.drop (e.1.length - 1) ∧ fs = e.2 := by
  rw [VFS.getFilesystem, if_neg hp, hm, searchMounts_toList (nil_not_mounted ms)]
  simp only [Except.ok.injEq, Option.map_eq_some_iff, mountFor_outermost, Prod.mk.injEq]
  constructor
  · rintro ⟨e, ⟨he, hs⟩, hpath, hfs⟩
    exact ⟨e, he, hs, hpath.symm, hfs.symm⟩
  · rintro ⟨e, he, hs, hpath, hfs⟩
    exact ⟨e, ⟨he, hs⟩, hpath.symm, hfs.symm⟩

/-- The trimmed name is what `getCWD` goes on to say. -/
theorem setCWD_path (h : setCWD n σ = .ok 0 t) : t.vfs.cwd.map File.path = some (trimSlash n) := by
  rcases getFilesystem_cases σ.vfs (trimSlash n) with ⟨_, found, hok⟩ | ⟨_, e, herr⟩
  · rcases found with _ | ⟨path, fs⟩
    · rw [setCWD_none hok] at h
      cases h
    · obtain ⟨u, _, hrun, hvfs, _⟩ := setCWD_run hok
      rw [hrun] at h
      cases h
      rw [hvfs]
      rfl
  · rw [setCWD_error herr] at h
    cases h

/-- Two trailing slashes: without one of them, `setCWD` ends in another directory. -/
theorem not_same (h : (trimSlash d).getLast? = some slash) (hopens : σ.Opens d path fs) :
    setCWD (slashed d) σ ≠ setCWD (trimSlash d) σ := by
  have ht : trimSlash d ≠ [] := by
    intro h0
    rw [h0] at h
    cases h
  intro heq
  obtain ⟨t, _, hrun, _, _⟩ := setCWD_run (opens_iff.1 hopens)
  rw [setCWD_trim (trimSlash_slashed d), hrun] at heq
  have hpath := setCWD_path hrun
  rw [setCWD_path heq.symm, Option.some.injEq] at hpath
  rw [trimSlash, if_pos h] at hpath
  have hlen := congrArg List.length hpath
  have hpos := List.length_pos_iff.2 ht
  rw [List.length_dropLast] at hlen
  omega

variable (hm : σ.vfs.mountpoints = (mountAll ms.entries).mountpoints) (hd : d.head? = some slash)
include hm hd

/-- The mount point's own name without the slash is not found below its mount. -/
theorem not_opens_mount (hends : (trimSlash d).getLast? ≠ some slash) {e : Str × F} (he : e.1 = slashed d) :
    ¬ σ.Opens d (localDir e.1 d) e.2 := by
  intro h
  rw [localDir, if_pos he, opens_iff, found_iff hm (trimSlash_head hd)] at h
  obtain ⟨e', he', ⟨_, hpre, _⟩, hpath, _⟩ := h
  have hclosed := ms.closed e' he'
  have hpos := List.length_pos_iff.2 (ms.ne_nil he')
  obtain ⟨r, hr⟩ := hpre
  rw [drop_of_closed hclosed hr.symm, List.cons.injEq] at hpath
  rw [← hpath.2, List.append_nil] at hr
  rw [← hr] at hends
  exact hends hclosed

/-- Below a mount point, the mount asked is the outermost. -/
theorem opens_below_iff {e : Str × F} (he : e ∈ ms.entries) (hnot : slashed d ∉ ms.paths)
    (hlong : IsLongest ms.paths (slashed d) e.1) :
    σ.Opens d (localDir e.1 d) e.2 ↔ ∀ k ∈ ms.paths, k <+: trimSlash d → k = e.1 := by
  have hne : e.1 ≠ slashed d := fun h => hnot (h ▸ hlong.1)
  have hpre : e.1 <+: trimSlash d := (prefix_slashed.1 hlong.2.1).resolve_left hne
  rw [localDir, if_neg hne, opens_iff, found_iff hm (trimSlash_head hd)]
  constructor
  · rintro ⟨e', he', hshort, hpath, _⟩
    have hlen := congrArg List.length hpath
    have hle := hpre.length_le
    have hle' := hshort.2.1.length_le
    have hpos := List.length_pos_iff.2 (ms.ne_nil he)
    have hpos' := List.length_pos_iff.2 (ms.ne_nil he')
    rw [List.length_drop, List.length_drop] at hlen
    have heq : e.1 = e'.1 := prefix_eq_of_length hpre hshort.2.1 (by omega)
    rw [heq] at hlong ⊢
    intro k hk hkp
    exact hshort.isLongest_iff.1 ⟨hlong.1, hshort.2.1, fun k hk hkp => hlong.2.2 k hk (prefix_slashed.2 (Or.inr hkp))⟩ k hk hkp
  · intro h
    refine ⟨e, he, ⟨hlong.1, hpre, fun k hk hkp => ?_⟩, rfl, rfl⟩
    exact Nat.le_of_eq (congrArg List.length (h k hk hkp).symm)

/-- A trailing slash makes no difference where one mount covers the directory, below its mount point. -/
theorem opens_directory_iff (hcov : ∃ k ∈ ms.paths, k <+: slashed d) :
    OpensDirectory ms σ d ↔ slashed d ∉ ms.paths ∧ (trimSlash d).getLast? ≠ some slash ∧
      ∀ k ∈ ms.paths, ∀ k' ∈ ms.paths, k <+: trimSlash d → k' <+: trimSlash d → k = k' := by
  obtain ⟨k₀, hk₀, hp₀⟩ := hcov
  obtain ⟨l, hlong⟩ := exists_isLongest hk₀ hp₀
  obtain ⟨e, he, rfl⟩ := List.mem_map.1 hlong.1
  constructor
  · intro h
    have hopens := h.opens e he hlong
    have hends : (trimSlash d).getLast? ≠ some slash := by
      intro hends
      have hne : trimSlash d ≠ [] := by
        intro h0
        rw [h0] at hends
        cases hends
      exact not_same hends hopens (h.same hne)
    have hnot : slashed d ∉ ms.paths := by
      intro hmem
      have heq : e.1 = slashed d :=
        prefix_eq_of_length hlong.2.1 (List.prefix_refl _)
          (Nat.le_antisymm hlong.2.1.length_le (hlong.2.2 _ hmem (List.prefix_refl _)))
      exact not_opens_mount hm hd hends heq hopens
    refine ⟨hnot, hends, fun k hk k' hk' hkp hkp' => ?_⟩
    have hall := (opens_below_iff hm hd he hnot hlong).1 hopens
    rw [hall k hk hkp, hall k' hk' hkp']
  · rintro ⟨hnot, hends, hunique⟩
    refine ⟨fun e he hlong => ?_, fun hne => ?_⟩
    · refine (opens_below_iff hm hd he hnot hlong).2 fun k hk hkp => ?_
      have hne : e.1 ≠ slashed d := fun h => hnot (h ▸ hlong.1)
      exact hunique k hk e.1 hlong.1 hkp ((prefix_slashed.1 hlong.2.1).resolve_left hne)
    · rw [setCWD_trim ((trimSlash_slashed d).trans (trimSlash_of_ne hends).symm)]

end

/-- One filesystem, at `/`. -/
def rooted : MountTable Fixed where
  entries := [(str "/", ⟨3⟩)]
  distinct := by decide
  absolute := by decide
  closed := by decide

theorem opens_directory_home : OpensDirectory rooted (mounted [] ⟨3⟩) (str "/home") ↔
    slashed (str "/home") ∉ rooted.paths ∧ (trimSlash (str "/home")).getLast? ≠ some slash ∧
      ∀ k ∈ rooted.paths, ∀ k' ∈ rooted.paths, k <+: trimSlash (str "/home") → k' <+: trimSlash (str "/home") → k = k' :=
  opens_directory_iff rfl (by decide) ⟨str "/", by decide, by decide⟩

/-- The root is covered, and refused. -/
theorem root_refused : Reachable (mounted [] ⟨3⟩) ∧ IsLongest rooted.paths (slashed (str "/")) (str "/") ∧
    setCWD (str "/") (mounted [] ⟨3⟩) = .ok (-ENOENT) (mounted [] ⟨3⟩) ∧
      ¬ OpensDirectory rooted (mounted [] ⟨3⟩) (str "/") := by
  have hlong : IsLongest rooted.paths (slashed (str "/")) (str "/") := by
    unfold IsLongest
    decide
  have hnone : (mounted [] ⟨3⟩).vfs.getFilesystem (trimSlash (str "/")) = .ok none := by decide +kernel
  refine ⟨mounted_reachable _ _, hlong, setCWD_none hnone, fun h => ?_⟩
  have hopens := h.opens (str "/", ⟨3⟩) (by decide) hlong
  rw [opens_iff, hnone] at hopens
  cases hopens

end CodiusSandbox
