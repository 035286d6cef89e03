import CodiusSandbox.Resolution
/-!
# What a relative name is relative to

A directory that was entered or opened is resolved in the current directory or lies below a mount
(`Reachable.anchored`), so whatever is glued behind its path resolves below the same mount
(`getFilesystem_below`), and which file is asked about can be read off the text. `getFilesystem`
and `do_openat` glue a name directly behind the directory's path: it lands in the directory only if
that path ends in a separator, which `setCWD` takes away (`relative_resolves_iff`).
-/
namespace CodiusSandbox

open Wp PrefixTable

variable {F W : Type} {v : VFS F} {base n p path : Str} {fs : F}

/-! ## Directories lie below a mount -/

/-- `p` is resolved in the current directory or lies below a mount. -/
def VFS.Covers (v : VFS F) (p : Str) : Prop := p.head? = some dot ∨ ∃ k ∈ v.mountpoints, k <+: p

theorem covers_of_getFilesystem (h : v.getFilesystem p = .ok (some (path, fs))) : v.Covers p := by
  by_cases hd : p.head? = some dot
  · exact Or.inl hd
  · by_cases hm : [] ∈ v.mountpoints
    · exact Or.inr ⟨[], hm, List.nil_prefix⟩
    · rw [VFS.getFilesystem, if_neg hd, searchMounts_toList hm] at h
      cases hf : v.mountFor p with
      | none => simp [hf] at h
      | some e =>
        obtain ⟨he, _, hp, _⟩ := (firstPrefix_iff (sorted_toList _)).1 hf
        refine Or.inr ⟨e.1, ?_, hp⟩
        rw [Std.ExtTreeMap.mem_iff_isSome_getElem?, mem_toList_iff.1 he]
        rfl

theorem VFS.Covers.mount (h : v.Covers p) (path : Str) (fs : F) :
    (v.mountFilesystem path fs).Covers p := by
  rcases h with h | ⟨k, hk, hp⟩
  · exact Or.inl h
  · refine Or.inr ⟨k, ?_, hp⟩
    simp only [VFS.mountFilesystem, Std.ExtTreeMap.mem_insertIfNew]
    exact Or.inr hk

/-- The current directory and every open file are covered. -/
structure VFS.Anchored (v : VFS F) : Prop where
  cwd : ∀ c, v.cwd = some c → v.Covers c.path
  files : ∀ (fd : Int) (f : File F), v.openFiles[fd]? = some f → v.Covers f.path

theorem VFS.Anchored.mount (h : v.Anchored) (path : Str) (fs : F) :
    (v.mountFilesystem path fs).Anchored :=
  ⟨fun c hc => (h.cwd c hc).mount path fs, fun fd f hf => (h.files fd f hf).mount path fs⟩

theorem TableStep.anchored {v' : VFS F} {m m' : Int} (h : TableStep v m v' m') (hv : v.Anchored) :
    v'.Anchored := by
  cases h with
  | same => exact hv
  | opened fd hp =>
    refine ⟨hv.cwd, fun i f hf => ?_⟩
    simp only [Std.ExtTreeMap.getElem?_insertIfNew] at hf
    split at hf
    · cases hf
      exact covers_of_getFilesystem (v := v) hp
    · exact hv.files i f hf
  | closed hfd =>
    refine ⟨hv.cwd, fun i f hf => ?_⟩
    simp only [Std.ExtTreeMap.getElem?_erase] at hf
    split at hf
    · cases hf
    · exact hv.files i f hf
  | moved fd hp =>
    refine ⟨fun c hc => ?_, hv.files⟩
    cases hc
    exact covers_of_getFilesystem (v := v) hp

theorem Reachable.anchored [Filesystem F W] {σ : Tracer F W} (h : Reachable σ) : σ.vfs.Anchored := by
  refine h.invariant (I := fun σ => σ.vfs.Anchored) (fun e => ?_) fun σ t hσ hstep => ?_
  · refine ⟨fun c hc => ?_, fun fd f hf => ?_⟩
    · cases hc
    · simp [Tracer.start, VFS.empty] at hf
  · rcases hstep.tables with ⟨path, fs, ht, _⟩ | ht | ⟨ht, _⟩
    · rw [ht]
      exact hσ.mount path fs
    · exact ht.anchored hσ
    · rw [ht]
      exact hσ

/-! ## Behind a directory -/

theorem VFS.Covers.ne_nil (hm : [] ∉ v.mountpoints) (h : v.Covers base) : base ≠ [] := by
  rintro rfl
  rcases h with h | ⟨k, hk, hp⟩
  · simp at h
  · rw [List.prefix_nil.1 hp] at hk
    exact hm hk

/-- A mount below which `p` lies takes everything behind `p`, and keeps it as it is. -/
theorem searchMounts_below (hm : [] ∉ v.mountpoints) {k : Str} (hk : k ∈ v.mountpoints)
    (hp : k <+: p) : ∃ path fs, path ≠ [] ∧ ∀ tail,
      searchMounts v.mountpoints.toList (p ++ tail) = .ok (some (path ++ tail, fs)) := by
  obtain ⟨e, he⟩ : ∃ e, v.mountFor p = some e := by
    cases hf : v.mountFor p with
    | some e => exact ⟨e, rfl⟩
    | none =>
      obtain ⟨fs, hfs⟩ := Option.isSome_iff_exists.1 (Std.ExtTreeMap.mem_iff_isSome_getElem?.1 hk)
      exact absurd hp (firstPrefix_eq_none.1 hf (k, fs) (mem_toList_iff.2 hfs))
  obtain ⟨hmem, _, hep, _⟩ := (firstPrefix_iff (sorted_toList _)).1 he
  have hlen := hep.length_le
  have hne : e.1 ≠ [] := by
    intro h0
    apply hm
    rw [Std.ExtTreeMap.mem_iff_isSome_getElem?, ← h0, mem_toList_iff.1 hmem]
    rfl
  have hpos := List.length_pos_iff.2 hne
  refine ⟨p.drop (e.1.length - 1), e.2, ?_, fun tail => ?_⟩
  · intro h0
    have := congrArg List.length h0
    simp only [List.length_drop, List.length_nil] at this
    omega
  · have htail : v.mountFor (p ++ tail) = some e := firstPrefix_append (sorted_toList _) he tail
    rw [searchMounts_toList hm, htail, Option.map_some, List.drop_append_of_le_length (by omega)]

/-- What is glued behind a directory resolves below the directory's own local path. -/
theorem getFilesystem_below {c : File F} (hv : v.Anchored) (hm : [] ∉ v.mountpoints)
    (hc : v.cwd = some c) (habs : c.path.head? = some slash) (hb : v.Covers base) :
    ∃ path fs, path ≠ [] ∧ ∀ tail, v.getFilesystem (base ++ tail) = .ok (some (path ++ tail, fs)) := by
  have hhead : ∀ tail, (base ++ tail).head? = base.head? := by
    intro tail
    cases base with
    | nil => exact absurd rfl (hb.ne_nil hm)
    | cons a l => rfl
  unfold VFS.getFilesystem
  by_cases hd : base.head? = some dot
  · have hcov : ∃ k ∈ v.mountpoints, k <+: c.path ++ base := by
      rcases hv.cwd c hc with h | ⟨k, hk, hp⟩
      · rw [habs] at h
        exact absurd h (by decide)
      · exact ⟨k, hk, hp.trans (List.prefix_append _ _)⟩
    obtain ⟨k, hk, hp⟩ := hcov
    obtain ⟨path, fs, hpath, h⟩ := searchMounts_below hm hk hp
    refine ⟨path, fs, hpath, fun tail => ?_⟩
    simp only [hhead, hd, if_true, hc]
    rw [← List.append_assoc]
    exact h tail
  · obtain ⟨k, hk, hp⟩ := hb.resolve_left hd
    obtain ⟨path, fs, hpath, h⟩ := searchMounts_below hm hk hp
    refine ⟨path, fs, hpath, fun tail => ?_⟩
    simp only [hhead, hd, if_false]
    exact h tail

/-! ## Relative names -/

/-- The directory a path call resolves a relative name in; `openat` takes it as an `int`. -/
def baseOf (v : VFS F) (call : SyscallCall) : Option Str :=
  if call.id ≠ SYS_openat ∨ asInt (call.args 0) = AT_FDCWD then v.cwd.map File.path
  else if isVirtualFD (asInt (call.args 0)) then v.openFiles[asInt (call.args 0)]?.map File.path
  else none

/-- Between a directory and a name, if there is not one already. -/
def separator (base : Str) : Str := if base.getLast? = some slash then [] else [slash]

/-- `base` and `n` with one separator in between. -/
def join (base n : Str) : Str := base ++ (separator base ++ n)

/-- The call asks about the file that `getFilesystem` yields for `p`, and about no other. -/
def AsksAbout [Filesystem F W] (σ : Tracer F W) (call : SyscallCall) (p : Str) : Prop :=
  ∃ path fs, σ.vfs.getFilesystem p = .ok (some (path, fs)) ∧ Asks [(fs, path)] (handleSyscall call) σ

/-- `do_openat` glues the name to a directory's path. -/
def Glues (call : SyscallCall) : Prop :=
  call.id = SYS_openat ∧ (call.args 0 = toWord AT_FDCWD ∨ isVirtualFD (asInt (call.args 0)) = true)

/-- What it takes for a relative name to land in its directory. -/
structure Lands (σ : Tracer F W) (call : SyscallCall) (base n : Str) : Prop where
  readable : Readable σ.mem (pathArg call) 1024
  mounts : [] ∉ σ.vfs.mountpoints
  separated : base.getLast? = some slash
  glued : Glues call → base ++ n ∉ whitelist
  looked : ¬ Glues call → n.head? = some dot ∧ call.id ≠ SYS_stat ∧ call.id ≠ SYS_lstat ∧
    (call.id = SYS_readlink → Fits σ (call.args 2).toNat)

theorem separator_eq_nil : separator base = [] ↔ base.getLast? = some slash := by
  unfold separator
  split
  · simp [*]
  · simp [*]

theorem covers_base {call : SyscallCall} (hv : v.Anchored) (h : baseOf v call = some base) :
    v.Covers base := by
  unfold baseOf at h
  split at h
  · obtain ⟨c, hc, rfl⟩ := Option.map_eq_some_iff.1 h
    exact hv.cwd c hc
  · split at h
    · obtain ⟨f, hf, rfl⟩ := Option.map_eq_some_iff.1 h
      exact hv.files _ f hf
    · cases h

/-- A relative name is not whitelisted. -/
theorem not_isWhitelisted (hn : n.head? ≠ some slash) : isWhitelisted n = false := by
  rw [← Bool.not_eq_true, isWhitelisted_iff]
  exact fun h => hn (whitelist_absolute n h)

/-- A name that does not start with `.` is looked up by itself, so nothing is put in front of it. -/
theorem length_getFilesystem_le (hm : [] ∉ v.mountpoints) (hd : n.head? ≠ some dot)
    (h : v.getFilesystem n = .ok (some (path, fs))) : path.length ≤ n.length := by
  rw [VFS.getFilesystem, if_neg hd, searchMounts_toList hm] at h
  cases hf : v.mountFor n with
  | none => simp [hf] at h
  | some e =>
    simp only [hf, Option.map_some, Except.ok.injEq, Option.some.injEq, Prod.mk.injEq] at h
    rw [← h.1, List.length_drop]
    omega

/-- A name that starts with `.` is looked up behind the current directory. -/
theorem getFilesystem_dot {c : File F} (hc : v.cwd = some c) (habs : c.path.head? = some slash)
    (hd : n.head? = some dot) : v.getFilesystem n = v.getFilesystem (c.path ++ n) := by
  have hhead : (c.path ++ n).head? ≠ some dot := by
    rw [List.head?_append, habs, Option.some_or]
    decide
  rw [VFS.getFilesystem, if_pos hd, VFS.getFilesystem, if_neg hhead, hc]

section
variable {σ : Tracer F W} {call : SyscallCall} {c : File F}

theorem pathQuestions_glued (hg : Glues call) (hb : baseOf σ.vfs call = some base)
    (hn : σ.nameAt (pathArg call) = n) (hrel : n.head? ≠ some slash) :
    pathQuestions σ call = question σ.vfs (base ++ n) := by
  obtain ⟨hid, hfd⟩ := hg
  have htarget : openatTarget σ.vfs (call.args 0) n = some (base ++ n) := by
    unfold baseOf at hb
    unfold openatTarget
    by_cases hcwd : call.args 0 = toWord AT_FDCWD
    · have hint : asInt (call.args 0) = AT_FDCWD := by rw [hcwd]; decide
      rw [if_pos (Or.inr hint)] at hb
      obtain ⟨c, hc, rfl⟩ := Option.map_eq_some_iff.1 hb
      rw [if_neg hrel, if_pos hcwd, hc, Option.map_some]
    · have hv := hfd.resolve_left hcwd
      have hint : asInt (call.args 0) ≠ AT_FDCWD := by
        intro h
        rw [h] at hv
        exact absurd hv (by decide)
      rw [if_neg (by simp [hid, hint]), if_pos hv] at hb
      obtain ⟨f, hf, rfl⟩ := Option.map_eq_some_iff.1 hb
      rw [if_neg hrel, if_neg hcwd, if_pos hv, hf, Option.map_some]
  rw [pathQuestions, if_pos hid, hn, openatQuestions, htarget]

theorem base_of_not_glues (hg : ¬ Glues call) (hc : σ.vfs.cwd = some c)
    (hb : baseOf σ.vfs call = some base) : base = c.path := by
  unfold baseOf at hb
  split at hb
  · rw [hc] at hb
    exact (Option.some.inj hb).symm
  · rename_i h
    split at hb
    · rename_i hv
      exact absurd ⟨Decidable.not_not.1 fun hid => h (Or.inl hid), Or.inr hv⟩ hg
    · cases hb

theorem pathQuestions_looked (hg : ¬ Glues call) (hn : σ.nameAt (pathArg call) = n)
    (hrel : n.head? ≠ some slash) :
    pathQuestions σ call = lookupAsks σ.vfs n (asked σ call n) := by
  rw [pathQuestions, hn]
  split
  · rename_i hid
    have hcwd : call.args 0 ≠ toWord AT_FDCWD := fun h => hg ⟨hid, Or.inl h⟩
    have hv : ¬ isVirtualFD (asInt (call.args 0)) = true := fun h => hg ⟨hid, Or.inr h⟩
    have hasked : asked σ call n = fun path fs => [(fs, path)] := by
      funext path fs
      simp [asked, hid, SYS_openat, SYS_stat, SYS_lstat, SYS_readlink]
    rw [openatQuestions, openatTarget, if_neg hrel, if_neg hcwd, if_neg hv, hasked]
    rfl
  · rfl

/-- The file that getting it right asks about has a longer name than `n`. -/
theorem ne_below {q : Str} (hpath : path ≠ []) (hq : q.length ≤ n.length) (s : Str) :
    q ≠ path ++ (s ++ n) := by
  intro h
  have hlen := congrArg List.length h
  have hpos := List.length_pos_iff.2 hpath
  simp only [List.length_append] at hlen
  omega

theorem asked_below_iff (hpath : path ≠ []) :
    asked σ call n (path ++ n) fs = [(fs, path ++ (separator base ++ n))] ↔
      base.getLast? = some slash ∧ call.id ≠ SYS_stat ∧ call.id ≠ SYS_lstat ∧
        (call.id = SYS_readlink → Fits σ (call.args 2).toNat) := by
  unfold asked
  by_cases hstat : call.id = SYS_stat ∨ call.id = SYS_lstat
  · have hne : n ≠ path ++ (separator base ++ n) := ne_below hpath (Nat.le_refl _) _
    simp only [if_pos hstat, List.cons.injEq, Prod.mk.injEq, true_and, and_true]
    constructor
    · intro h
      exact absurd h hne
    · rintro ⟨_, h1, h2, _⟩
      exact absurd hstat (by simp [h1, h2])
  · obtain ⟨h1, h2⟩ := not_or.1 hstat
    rw [if_neg hstat]
    by_cases hfits : call.id = SYS_readlink ∧ ¬ Fits σ (call.args 2).toNat
    · simp [hfits.1, hfits.2]
    · rw [if_neg hfits]
      have hread : call.id = SYS_readlink → Fits σ (call.args 2).toNat := fun h =>
        Decidable.not_not.1 fun hf => hfits ⟨h, hf⟩
      constructor
      · intro h
        exact ⟨separator_eq_nil.1 (by simpa using h), h1, h2, hread⟩
      · rintro ⟨h, _⟩
        rw [separator_eq_nil.2 h]
        rfl

theorem asked_short_ne {q : Str} {fs' : F} (hpath : path ≠ []) (hq : q.length ≤ n.length) (s : Str) :
    asked σ call n q fs' ≠ [(fs, path ++ (s ++ n))] := by
  unfold asked
  have h1 : n ≠ path ++ (s ++ n) := ne_below hpath (Nat.le_refl _) s
  have h2 : q ≠ path ++ (s ++ n) := ne_below hpath hq s
  split
  · simp [h1]
  · split
    · simp
    · simp [h2]

theorem pathQuestions_eq_iff (hm : [] ∉ σ.vfs.mountpoints)
    (hc : σ.vfs.cwd = some c) (habs : c.path.head? = some slash)
    (hb : baseOf σ.vfs call = some base) (hn : σ.nameAt (pathArg call) = n)
    (hrel : n.head? ≠ some slash) (hpath : path ≠ [])
    (hbelow : ∀ tail, σ.vfs.getFilesystem (base ++ tail) = .ok (some (path ++ tail, fs))) :
    pathQuestions σ call = [(fs, path ++ (separator base ++ n))] ↔
      base.getLast? = some slash ∧ (Glues call → base ++ n ∉ whitelist) ∧
        (¬ Glues call → n.head? = some dot ∧ call.id ≠ SYS_stat ∧ call.id ≠ SYS_lstat ∧
          (call.id = SYS_readlink → Fits σ (call.args 2).toNat)) := by
  by_cases hg : Glues call
  · rw [pathQuestions_glued hg hb hn hrel, question, lookupAsks, hbelow n, ← isWhitelisted_iff]
    cases isWhitelisted (base ++ n) with
    | true => simp [hg]
    | false => simp [hg, separator_eq_nil]
  · rw [pathQuestions_looked hg hn hrel, lookupAsks, not_isWhitelisted hrel]
    simp only [hg, not_false_iff, true_implies, false_implies, true_and, Bool.false_eq_true, if_false]
    by_cases hd : n.head? = some dot
    · have hget : σ.vfs.getFilesystem n = .ok (some (path ++ n, fs)) := by
        rw [getFilesystem_dot hc habs hd, ← base_of_not_glues hg hc hb]
        exact hbelow n
      rw [hget]
      simp only [hd, true_and]
      exact asked_below_iff hpath
    · simp only [hd, false_and, and_false, iff_false]
      split
      · rename_i q fs' hget
        exact asked_short_ne hpath (length_getFilesystem_le hm hd hget) _
      · simp

end

section
variable [Filesystem F W] {σ : Tracer F W} {call : SyscallCall} {c : File F}

/-- A relative name is looked for in the directory it is relative to exactly if it `Lands` there. -/
theorem relative_resolves_iff (hσ : Reachable σ) (hp : IsPathCall call.id)
    (hc : σ.vfs.cwd = some c) (habs : c.path.head? = some slash)
    (hb : baseOf σ.vfs call = some base) (hn : HoldsPath σ.mem (pathArg call) n)
    (hrel : n.head? ≠ some slash) :
    AsksAbout σ call (join base n) ↔ Lands σ call base n := by
  by_cases hr : Readable σ.mem (pathArg call) 1024
  · by_cases hm : [] ∈ σ.vfs.mountpoints
    · constructor
      · rintro ⟨path, fs, hget, _⟩
        exact absurd hm (getFilesystem_ok_iff.1 ⟨_, hget⟩).2
      · intro h
        exact absurd hm h.mounts
    · obtain ⟨path, fs, hpath, hbelow⟩ :=
        getFilesystem_below hσ.anchored hm hc habs (covers_base hσ.anchored hb)
      have hname : σ.nameAt (pathArg call) = n := nameAt_of_holds hn
      have hiff := pathQuestions_eq_iff hm hc habs hb hname hrel hpath hbelow
      constructor
      · rintro ⟨path', fs', hget, hasks⟩
        have hq := handleSyscall_asks hp hr
        rw [join, hbelow] at hget
        cases hget
        obtain ⟨h1, h2, h3⟩ := hiff.1 (hq.unique hasks)
        exact ⟨hr, hm, h1, h2, h3⟩
      · rintro ⟨_, _, h1, h2, h3⟩
        refine ⟨_, _, hbelow _, ?_⟩
        rw [← hiff.2 ⟨h1, h2, h3⟩]
        exact handleSyscall_asks hp hr
  · constructor
    · rintro ⟨path, fs, _, hasks⟩
      exact absurd ((handleSyscall_asks_unreadable hp hr).unique hasks) (by simp)
    · intro h
      exact absurd h.readable hr

end

/-- `chdir ("/tmp//")` and then `openat (AT_FDCWD, "x")`. -/
theorem relative_resolves_doubled : ∃ σ : Tracer Fixed Unit, Reachable σ ∧
    Lands σ (.of SYS_openat [toWord AT_FDCWD, 7]) (str "/tmp/") (str "x") ∧
    AsksAbout σ (.of SYS_openat [toWord AT_FDCWD, 7]) (str "/tmp/x") := by
  obtain ⟨σ, hσ, hcwd, hpath, hmap, hm⟩ :=
    (mounted_reachable (str "/tmp//" ++ 0 :: str "x") ⟨3⟩).after (.of SYS_chdir [0])
      (Q := fun σ => σ.vfs.cwd.map File.path = some (str "/tmp/") ∧ HoldsPath σ.mem 7 (str "x") ∧
        (∀ i < (str "x").length + 1, 8 ∣ i → WordMapped σ.mem (offset 7 i)) ∧
        [] ∉ σ.vfs.mountpoints) (by decide +kernel)
  obtain ⟨c, hc, hcp⟩ := Option.map_eq_some_iff.1 hcwd
  have hl : Lands σ (.of SYS_openat [toWord AT_FDCWD, 7]) (str "/tmp/") (str "x") :=
    ⟨hpath.readable hmap, hm, by decide, fun _ => by decide, fun h => absurd ⟨rfl, Or.inl rfl⟩ h⟩
  refine ⟨σ, hσ, hl, ?_⟩
  have hb : baseOf σ.vfs (.of SYS_openat [toWord AT_FDCWD, 7]) = some (str "/tmp/") := by
    rw [baseOf, if_pos (Or.inr (by decide)), hcwd]
  exact (relative_resolves_iff hσ (by decide) hc (by rw [hcp]; decide) hb hpath (by decide)).2 hl

/-- `chdir ("/tmp")` and then `open ("./x")`, which asks about `/tmp./x`. -/
theorem open_misses_directory : ∃ σ : Tracer Fixed Unit, Reachable σ ∧
    σ.vfs.cwd.map File.path = some (str "/tmp") ∧ HoldsPath σ.mem 5 (str "./x") ∧
    Asks [(⟨3⟩, str "/tmp./x")] (handleSyscall (.of SYS_open [5])) σ ∧
    ¬ AsksAbout σ (.of SYS_open [5]) (join (str "/tmp") (str "./x")) := by
  obtain ⟨σ, hσ, hcwd, hpath, hmap, hask, hget⟩ :=
    (mounted_reachable (str "/tmp" ++ 0 :: str "./x") ⟨3⟩).after (.of SYS_chdir [0])
      (Q := fun σ => σ.vfs.cwd.map File.path = some (str "/tmp") ∧ HoldsPath σ.mem 5 (str "./x") ∧
        (∀ i < (str "./x").length + 1, 8 ∣ i → WordMapped σ.mem (offset 5 i)) ∧
        pathQuestions σ (.of SYS_open [5]) = [(⟨3⟩, str "/tmp./x")] ∧
        question σ.vfs (join (str "/tmp") (str "./x")) = [(⟨3⟩, str "/tmp/./x")]) (by decide +kernel)
  have hasks : Asks [(⟨3⟩, str "/tmp./x")] (handleSyscall (.of SYS_open [5])) σ := by
    rw [← hask]
    exact handleSyscall_asks (by decide) (hpath.readable hmap)
  refine ⟨σ, hσ, hcwd, hpath, hasks, ?_⟩
  rintro ⟨path, fs, hok, h⟩
  have hw : isWhitelisted (join (str "/tmp") (str "./x")) = false := by decide
  have hlocal : [(fs, path)] = [(⟨3⟩, str "/tmp/./x")] := by
    simpa only [question, lookupAsks, hw, hok, Bool.false_eq_true, if_false] using hget
  rw [hlocal] at h
  exact absurd (h.unique hasks) (by decide)

end CodiusSandbox
