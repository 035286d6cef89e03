import CodiusSandbox.ExecChild
import CodiusSandbox.Lib.ParallelMove
import Mathlib.Data.List.TakeWhile
/-!
# What the child inherits

The descriptors that are open when `execChild` gets to `execvp`, and what the channels are bound to.

* `only_channels_iff`: just the channels' descriptors are open exactly if descriptor 0 was closed at the fork or is
  one of them, as `permittedFDs` begins with zeros, and no channel has -1, which `dup2` returns for an error.
* `bound_to_own_iff`: each channel has got its own child end exactly if none is made on a descriptor that is the
  child end of a later one.
-/
namespace CodiusSandbox

open ParallelMove

/-- The entries of `/proc/self/fd/` for the open descriptors `l`. -/
def procNames (l : List Int) : List Str := str "." :: str ".." :: l.map decimal

/-- `names` are the entries of `/proc/self/fd/`, in some order. -/
def Lists {D : Type} (names : List Str) (fds : Fds D) : Prop :=
  ∀ d_name, d_name ∈ names ↔
    d_name = str "." ∨ d_name = str ".." ∨ ∃ fd, (fds.get fd).isSome ∧ d_name = decimal fd

/-- What `opendir` and `readdir` give in the child whose table was `fds` at the fork: a free descriptor, and the
names of all that are open with it. -/
def ReadsProcSelfFd {D : Type} (ipcSockets : List SandboxIPC) (fds : Fds D) (dirFd : Int) (dir : D)
    (names : List Str) : Prop :=
  ∀ permitted permittedFDs fds₁, dupAll ipcSockets permitted fds = some (permittedFDs, fds₁) →
    IsFd dirFd ∧ fds₁.get dirFd = none ∧ Lists names (fds₁.set dirFd dir)

/-- The open descriptors are those of the channels. -/
def OnlyChannels {D : Type} (ipcSockets : List SandboxIPC) (fds : Fds D) : Prop :=
  ∀ fd, (fds.get fd).isSome ↔ ∃ ipc ∈ ipcSockets, ipc.dupAs = fd

/-- Between `fds` and `fds'` each channel has got its own child end. -/
def BoundToOwn {D : Type} (ipcSockets : List SandboxIPC) (fds fds' : Fds D) : Prop :=
  ∀ ipc ∈ ipcSockets, fds'.get ipc.dupAs = fds.get ipc.child

/-- What `dup` moves where. -/
def SandboxIPC.move (ipc : SandboxIPC) : Int × Int := (ipc.dupAs, ipc.child)

section
variable {D : Type} {fds fds₁ fds' : Fds D} {fd dirFd : Int} {dir : D} {names : List Str} {ipc : SandboxIPC}
  {ipcSockets : List SandboxIPC} {permittedFDs permitted : List Int}

/-! ## Numbers -/

theorem strtol_digits {s : Str} (hne : s ≠ []) (hd : ∀ c ∈ s, isDigit c = true) (hlt : digitsValue s < 2 ^ 63) :
    strtol s = ((digitsValue s : Int), s.length) := by
  obtain ⟨c, rest, rfl⟩ := List.exists_cons_of_ne_nil hne
  have hc : 48 ≤ c ∧ c ≤ 57 := by simpa [isDigit] using hd c List.mem_cons_self
  have hspace : isSpace c = false := by
    simp only [isSpace, Bool.or_eq_false_iff, Bool.and_eq_false_iff]
    exact ⟨by grind, by grind⟩
  have hsign : signOf (c :: rest) = (false, c :: rest) := by
    rw [signOf, if_neg (by grind), if_neg (by grind)]
  have hdigits : (c :: rest).takeWhile isDigit = c :: rest := List.takeWhile_eq_self_iff.2 hd
  rw [strtol, List.dropWhile_cons_of_neg (by rw [hspace]; decide), hsign]
  simp only [hdigits, if_neg hne, Bool.false_eq_true, if_false, Nat.sub_self, Nat.zero_add]
  refine Prod.ext ?_ rfl
  simp only
  omega

theorem decimal_ofNat (n : Nat) : decimal n = (Nat.toDigits 10 n).map fun c => c.toNat.toUInt8 := by
  rw [decimal, str, ← Nat.toList_repr]
  rfl

/-- The digits of a number are bytes. -/
theorem toNat_digit {n : Nat} {c : Char} (hc : c ∈ Nat.toDigits 10 n) :
    48 ≤ c.toNat ∧ c.toNat ≤ 57 ∧ c.toNat.toUInt8.toNat = c.toNat := by
  have h : c.isDigit = true := Nat.isDigit_of_mem_toDigits (b := 10) (by decide) (by decide) hc
  simp only [Char.isDigit, Bool.and_eq_true, decide_eq_true_eq, ge_iff_le, UInt32.le_iff_toNat_le] at h
  have hlo : 48 ≤ c.toNat := h.1
  have hhi : c.toNat ≤ 57 := h.2
  refine ⟨hlo, hhi, ?_⟩
  rw [Nat.toUInt8_eq, UInt8.toNat_ofNat']
  omega

theorem isDigit_decimal {n : Nat} {b : UInt8} (hb : b ∈ decimal n) : isDigit b = true := by
  rw [decimal_ofNat] at hb
  obtain ⟨c, hc, rfl⟩ := List.mem_map.1 hb
  obtain ⟨hlo, hhi, hbyte⟩ := toNat_digit hc
  simp only [isDigit, Bool.and_eq_true, decide_eq_true_eq, UInt8.le_iff_toNat_le, hbyte]
  exact ⟨hlo, hhi⟩

theorem digitsValue_decimal (n : Nat) : digitsValue (decimal n) = n := by
  have hfold (cs : List Char) : ∀ start : Nat, (∀ c ∈ cs, c ∈ Nat.toDigits 10 n) →
      (cs.map fun c => c.toNat.toUInt8).foldl (fun n c => 10 * n + (c.toNat - 48)) start =
        Nat.ofDigitChars 10 cs start := by
    induction cs with
    | nil => exact fun _ _ => Nat.ofDigitChars_nil.symm
    | cons c cs ih =>
      intro start hcs
      obtain ⟨hc, hcs⟩ := List.forall_mem_cons.1 hcs
      rw [List.map_cons, List.foldl_cons, (toNat_digit hc).2.2, ih _ hcs, Nat.ofDigitChars_cons]
      rfl
  rw [decimal_ofNat, digitsValue, hfold _ 0 fun c hc => hc, Nat.ofDigitChars_ten_toDigits]

/-- A descriptor's name is read as its number. -/
theorem strtol_decimal (h : IsFd fd) : toInt (strtol (decimal fd)).1 = fd ∧ (strtol (decimal fd)).2 ≠ 0 := by
  obtain ⟨hlo, hhi⟩ := h
  obtain ⟨n, rfl⟩ := Int.eq_ofNat_of_zero_le hlo
  have hne : decimal n ≠ [] := by
    rw [decimal_ofNat]
    simp [Nat.toDigits_ne_nil]
  have hread := strtol_digits hne (fun _ => isDigit_decimal) (by rw [digitsValue_decimal]; omega)
  rw [hread, digitsValue_decimal]
  refine ⟨toInt_of_isInt ?_, mt List.length_eq_zero_iff.1 hne⟩
  unfold IsInt
  omega

/-! ## The last two passes -/

theorem mem_scan : ∀ {names : List Str}, fd ∈ scan permittedFDs names ↔
    ∃ d_name ∈ names, ¬ ((strtol d_name).2 = 0 ∧ toInt (strtol d_name).1 = 0) ∧
      toInt (strtol d_name).1 ∉ permittedFDs ∧ toInt (strtol d_name).1 = fd
  | [] => by simp [scan]
  | d_name :: names => by
    have ih : fd ∈ scan permittedFDs names ↔ _ := mem_scan
    simp only [scan, List.exists_mem_cons_iff]
    by_cases hskip : (strtol d_name).2 = 0 ∧ toInt (strtol d_name).1 = 0
    · rw [if_pos hskip, ih]
      simp [hskip]
    · rw [if_neg hskip]
      by_cases hperm : permittedFDs.contains (toInt (strtol d_name).1) = true
      · rw [if_pos hperm, ih]
        simp [List.contains_iff_mem.1 hperm]
      · rw [if_neg hperm, List.mem_cons, ih]
        simp [hskip, mt List.contains_iff_mem.2 hperm, eq_comm]

/-- What is found to be unused are the open descriptors that are not permitted. -/
theorem mem_scan_listed (h : Lists names fds) :
    fd ∈ scan permittedFDs names ↔ (fds.get fd).isSome ∧ fd ∉ permittedFDs := by
  have hdot : ∀ d_name, d_name = str "." ∨ d_name = str ".." →
      (strtol d_name).2 = 0 ∧ toInt (strtol d_name).1 = 0 := by
    rintro d_name (rfl | rfl) <;> decide
  rw [mem_scan]
  constructor
  · rintro ⟨d_name, hmem, hskip, hperm, rfl⟩
    rcases (h d_name).1 hmem with hd | hd | ⟨fd, hopen, rfl⟩
    · exact absurd (hdot _ (.inl hd)) hskip
    · exact absurd (hdot _ (.inr hd)) hskip
    · rw [(strtol_decimal (Fds.isFd_of_get hopen)).1] at hperm ⊢
      exact ⟨hopen, hperm⟩
  · rintro ⟨hopen, hperm⟩
    obtain ⟨hnum, hend⟩ := strtol_decimal (Fds.isFd_of_get hopen)
    refine ⟨decimal fd, (h _).2 (.inr (.inr ⟨fd, hopen, rfl⟩)), fun hskip => hend hskip.1, ?_, hnum⟩
    rw [hnum]
    exact hperm

theorem foldl_close : ∀ (unusedFDs : List Int) (fds : Fds D),
    ((unusedFDs.foldl Fds.close fds).get fd).isSome ↔ (fds.get fd).isSome ∧ fd ∉ unusedFDs
  | [], fds => by simp
  | n :: unusedFDs, fds => by
    rw [List.foldl_cons, foldl_close unusedFDs, Fds.get_close, List.mem_cons, not_or]
    by_cases h : fd = n
    · subst h
      simp
    · simp [h]

/-- The permitted ones stay. -/
theorem closeUnused_open (hfree : fds.get dirFd = none) (hfd : IsFd dirFd) (h : Lists names (fds.set dirFd dir)) :
    ((closeUnused permittedFDs dirFd dir names fds).get fd).isSome ↔ (fds.get fd).isSome ∧ fd ∈ permittedFDs := by
  have hclosed : ((fds.set dirFd dir).close dirFd).get = fds.get := by
    rw [Fds.get_close, Fds.get_set fds hfd, Function.update_idem, Function.update_eq_self_iff, hfree]
  rw [closeUnused, foldl_close, mem_scan_listed h, hclosed, Fds.get_set fds hfd]
  by_cases heq : fd = dirFd
  · subst heq
    simp [hfree]
  · rw [Function.update_of_ne heq]
    tauto

/-! ## The first pass -/

/-- For -1, `dup2` fails and returns just that. -/
theorem dup_negative (fds : Fds D) (h : ipc.dupAs = -1) : ipc.dup fds = (true, fds) := by
  have hfd : ¬ IsFd (-1) := by decide
  rw [SandboxIPC.dup, dup2, h]
  cases fds.get ipc.child with
  | none => rfl
  | some d => simp [hfd]

theorem dup_bound (hne : ipc.dupAs ≠ -1) (h : ipc.dup fds = (true, fds')) :
    IsFd ipc.dupAs ∧ (fds.get ipc.child).isSome ∧
      fds'.get = Function.update fds.get ipc.dupAs (fds.get ipc.child) := by
  rw [SandboxIPC.dup, dup2] at h
  cases hchild : fds.get ipc.child with
  | none =>
    rw [hchild] at h
    exact absurd (by simpa using congrArg Prod.fst h) (Ne.symm hne)
  | some d =>
    rw [hchild] at h
    by_cases hfd : IsFd ipc.dupAs
    · simp only [if_pos hfd, Prod.mk.injEq] at h
      obtain ⟨-, rfl⟩ := h
      exact ⟨hfd, rfl, Fds.get_set fds hfd d⟩
    · simp only [if_neg hfd, Prod.mk.injEq, beq_iff_eq] at h
      exact absurd h.1.symm hne

theorem dupAll_cons (h : dupAll (ipc :: ipcSockets) permitted fds = some (permittedFDs, fds')) :
    ∃ fds₁, ipc.dup fds = (true, fds₁) ∧
      dupAll ipcSockets (permitted ++ [ipc.dupAs]) fds₁ = some (permittedFDs, fds') := by
  rw [dupAll] at h
  rcases hdup : ipc.dup fds with ⟨bound, fds₁⟩
  cases bound with
  | false =>
    simp only [hdup] at h
    cases h
  | true =>
    simp only [hdup] at h
    exact ⟨fds₁, rfl, h⟩

/-- What is permitted and what is open behind the loop. -/
theorem dupAll_open : ∀ {ipcSockets : List SandboxIPC} {permitted : List Int} {fds : Fds D},
    dupAll ipcSockets permitted fds = some (permittedFDs, fds') →
      permittedFDs = permitted ++ ipcSockets.map SandboxIPC.dupAs ∧
      ∀ fd, (fds'.get fd).isSome ↔ (fds.get fd).isSome ∨ (fd ≠ -1 ∧ fd ∈ ipcSockets.map SandboxIPC.dupAs)
  | [], permitted, fds, h => by
    cases h
    simp
  | ipc :: ipcSockets, permitted, fds, h => by
    obtain ⟨fds₁, hdup, hrest⟩ := dupAll_cons h
    obtain ⟨hperm, hopen⟩ := dupAll_open hrest
    refine ⟨by rw [hperm, List.map_cons, List.append_assoc]; rfl, fun fd => ?_⟩
    rw [hopen, List.map_cons, List.mem_cons]
    by_cases hne : ipc.dupAs = -1
    · rw [dup_negative fds hne, Prod.mk.injEq] at hdup
      rw [← hdup.2, hne]
      tauto
    · obtain ⟨-, hchild, hget⟩ := dup_bound hne hdup
      rw [hget]
      by_cases heq : fd = ipc.dupAs
      · subst heq
        simp [hchild, hne]
      · rw [Function.update_of_ne heq]
        tauto

theorem dupAll_sequential : ∀ {ipcSockets : List SandboxIPC} {permitted : List Int} {fds : Fds D},
    dupAll ipcSockets permitted fds = some (permittedFDs, fds') → (∀ ipc ∈ ipcSockets, ipc.dupAs ≠ -1) →
      fds'.get = sequential (ipcSockets.map SandboxIPC.move) fds.get
  | [], _, _, h, _ => by
    cases h
    rfl
  | ipc :: ipcSockets, permitted, fds, h, hne => by
    obtain ⟨fds₁, hdup, hrest⟩ := dupAll_cons h
    obtain ⟨hfirst, hne⟩ := List.forall_mem_cons.1 hne
    rw [dupAll_sequential hrest hne, (dup_bound hfirst hdup).2.2]
    rfl

/-! ## What `execvp` finds -/

/-- The channels' descriptors are open, and 0 if it was. -/
theorem inheritedFds_open (hne : ipcSockets ≠ []) (hproc : ReadsProcSelfFd ipcSockets fds dirFd dir names)
    (h : inheritedFds ipcSockets dirFd dir names fds = some fds') (fd : Int) :
    (fds'.get fd).isSome ↔
      ((fds.get fd).isSome ∧ fd = 0) ∨ (fd ≠ -1 ∧ ∃ ipc ∈ ipcSockets, ipc.dupAs = fd) := by
  unfold inheritedFds at h
  obtain ⟨⟨permittedFDs, fds₁⟩, hdup, h⟩ := Option.bind_eq_some_iff.1 h
  cases h
  obtain ⟨hfd, hfree, hlists⟩ := hproc _ _ _ hdup
  obtain ⟨rfl, hopen⟩ := dupAll_open hdup
  have hzero : fd ∈ List.replicate ipcSockets.length 0 ↔ fd = 0 := by
    rw [List.mem_replicate]
    simp [hne]
  rw [closeUnused_open hfree hfd hlists, hopen, List.mem_append, hzero, List.mem_map]
  have hminus : (fds.get (-1)).isSome ↔ False := by
    rw [iff_false]
    exact fun hsome => absurd (Fds.isFd_of_get hsome) (by decide)
  by_cases heq : fd = -1
  · subst heq
    simp [hminus]
  · tauto

theorem only_channels_iff (hne : ipcSockets ≠ []) (hproc : ReadsProcSelfFd ipcSockets fds dirFd dir names)
    (h : inheritedFds ipcSockets dirFd dir names fds = some fds') :
    OnlyChannels ipcSockets fds' ↔
      ((fds.get 0).isSome → ∃ ipc ∈ ipcSockets, ipc.dupAs = 0) ∧ ∀ ipc ∈ ipcSockets, ipc.dupAs ≠ -1 := by
  have hopen := inheritedFds_open hne hproc h
  constructor
  · intro hall
    refine ⟨fun hzero => (hall 0).1 ((hopen 0).2 (.inl ⟨hzero, rfl⟩)), fun ipc hmem heq => ?_⟩
    have hminus := Fds.isFd_of_get ((hall (-1)).2 ⟨ipc, hmem, heq⟩)
    exact absurd hminus (by decide)
  · rintro ⟨hzero, hminus⟩ fd
    rw [hopen]
    constructor
    · rintro (⟨hsome, rfl⟩ | ⟨-, hchannel⟩)
      · exact hzero hsome
      · exact hchannel
    · rintro ⟨ipc, hmem, rfl⟩
      exact .inr ⟨hminus ipc hmem, ipc, hmem, rfl⟩

theorem lists_of_open {l : List Int} (h : ∀ fd, (fds.get fd).isSome ↔ fd ∈ l) :
    Lists (procNames l) fds := by
  intro d_name
  simp only [procNames, List.mem_cons, List.mem_map, h, eq_comm]

/-- What the child reads where the host had the descriptors `l` open. -/
theorem readsProcSelfFd_of_open {l : List Int} (hfd : IsFd dirFd) (hopen : ∀ fd, (fds.get fd).isSome ↔ fd ∈ l)
    (hfree : dirFd ∉ ipcSockets.map SandboxIPC.dupAs ++ l) (hneg : -1 ∉ ipcSockets.map SandboxIPC.dupAs) :
    ReadsProcSelfFd ipcSockets fds dirFd dir (procNames (dirFd :: (ipcSockets.map SandboxIPC.dupAs ++ l))) := by
  intro permitted permittedFDs fds₁ hdup
  have hall : ∀ fd, (fds₁.get fd).isSome ↔ fd ∈ ipcSockets.map SandboxIPC.dupAs ++ l := by
    intro fd
    rw [(dupAll_open hdup).2, hopen, List.mem_append]
    by_cases heq : fd = -1
    · subst heq
      simp [hneg]
    · tauto
  have hnone : fds₁.get dirFd = none := by
    rw [← Option.not_isSome_iff_eq_none, hall]
    exact hfree
  refine ⟨hfd, hnone, lists_of_open fun fd => ?_⟩
  rw [Fds.get_set fds₁ hfd, List.mem_cons, ← hall]
  by_cases heq : fd = dirFd
  · subst heq
    simp
  · simp [heq]

end

/-- The table with these descriptors. -/
def Fds.ofList {D : Type} : List (Int × D) → Fds D
  | [] => .empty
  | e :: es => (Fds.ofList es).set e.1 e.2

theorem Fds.isSome_ofList {D : Type} {fd : Int} : ∀ {es : List (Int × D)}, (∀ e ∈ es, IsFd e.1) →
    (((Fds.ofList es).get fd).isSome ↔ fd ∈ es.map Prod.fst)
  | [], _ => by simp [Fds.ofList]
  | e :: es, h => by
    obtain ⟨he, h⟩ := List.forall_mem_cons.1 h
    rw [Fds.ofList, Fds.get_set _ he, List.map_cons, List.mem_cons, ← Fds.isSome_ofList h]
    by_cases heq : fd = e.1
    · subst heq
      simp
    · simp [heq]

/-- A channel on descriptor 3. -/
def channel : SandboxIPC := ⟨3, 4, 5⟩

/-- A host with its standard input and the ends of the channel. -/
def hostFds : Fds Nat := .ofList [(0, 10), (4, 11), (5, 12)]

/-- A host without standard input. -/
def bareFds : Fds Nat := .ofList [(4, 11), (5, 12)]

theorem reads_hostFds : ReadsProcSelfFd [channel] hostFds 1 13 (procNames [1, 3, 0, 4, 5]) :=
  readsProcSelfFd_of_open (by decide) (fun _ => Fds.isSome_ofList (by decide)) (by decide) (by decide)

theorem reads_bareFds : ReadsProcSelfFd [channel] bareFds 0 13 (procNames [0, 3, 4, 5]) :=
  readsProcSelfFd_of_open (by decide) (fun _ => Fds.isSome_ofList (by decide)) (by decide) (by decide)

/-- The standard input of the host gets to the child. -/
theorem stdin_inherited : ∃ fds',
    inheritedFds [channel] 1 13 (procNames [1, 3, 0, 4, 5]) hostFds = some fds' ∧
      ReadsProcSelfFd [channel] hostFds 1 13 (procNames [1, 3, 0, 4, 5]) ∧ ¬ OnlyChannels [channel] fds' := by
  obtain ⟨fds', hrun⟩ := Option.isSome_iff_exists.1
    (show (inheritedFds [channel] 1 13 (procNames [1, 3, 0, 4, 5]) hostFds).isSome = true by decide +kernel)
  refine ⟨fds', hrun, reads_hostFds, fun h => ?_⟩
  have hopen := (inheritedFds_open (by decide) reads_hostFds hrun 0).2 (.inl ⟨by decide +kernel, rfl⟩)
  obtain ⟨ipc, hmem, hzero⟩ := (h 0).1 hopen
  rw [List.mem_singleton.1 hmem] at hzero
  cases hzero

theorem only_channels_bare : ∃ fds',
    inheritedFds [channel] 0 13 (procNames [0, 3, 4, 5]) bareFds = some fds' ∧ OnlyChannels [channel] fds' := by
  obtain ⟨fds', hrun⟩ := Option.isSome_iff_exists.1
    (show (inheritedFds [channel] 0 13 (procNames [0, 3, 4, 5]) bareFds).isSome = true by decide +kernel)
  refine ⟨fds', hrun, (only_channels_iff (by decide) reads_bareFds hrun).2 ⟨fun hzero => ?_, by decide⟩⟩
  rw [show bareFds.get 0 = none by decide +kernel] at hzero
  cases hzero

/-! ## What the channels get -/

theorem bound_to_own_iff {D : Type} {fds fds' : Fds D} {ipcSockets : List SandboxIPC}
    {permitted permittedFDs : List Int} (hdup : dupAll ipcSockets permitted fds = some (permittedFDs, fds'))
    (hd : (ipcSockets.map SandboxIPC.dupAs).Nodup) (hopen : ∀ ipc ∈ ipcSockets, (fds.get ipc.child).isSome)
    (hc : (ipcSockets.map fun ipc => fds.get ipc.child).Nodup) :
    BoundToOwn ipcSockets fds fds' ↔
      (∀ ipc ∈ ipcSockets, ipc.dupAs ≠ -1) ∧ ipcSockets.Pairwise fun a b => a.dupAs ≠ b.child := by
  have hown (hne : ∀ ipc ∈ ipcSockets, ipc.dupAs ≠ -1) :
      BoundToOwn ipcSockets fds fds' ↔ ipcSockets.Pairwise fun a b => a.dupAs ≠ b.child := by
    have hparallel : Parallel (ipcSockets.map SandboxIPC.move) fds.get fds'.get ↔
        (ipcSockets.map SandboxIPC.move).Pairwise fun a b => a.1 ≠ b.2 := by
      rw [dupAll_sequential hdup hne]
      refine parallel_iff ?_ ?_
      · rw [List.map_map]
        exact hd
      · rw [List.map_map]
        exact hc
    rw [Parallel, List.forall_mem_map, List.pairwise_map] at hparallel
    exact hparallel
  constructor
  · intro hbound
    have hne : ∀ ipc ∈ ipcSockets, ipc.dupAs ≠ -1 := by
      intro ipc hmem heq
      have hsome := hopen ipc hmem
      rw [← hbound ipc hmem, heq] at hsome
      exact absurd (Fds.isFd_of_get hsome) (by decide)
    exact ⟨hne, (hown hne).1 hbound⟩
  · rintro ⟨hne, hp⟩
    exact (hown hne).2 hp

/-- Two channels: the first is made on the child end of the second. -/
def earlyChannel : SandboxIPC := ⟨6, 4, 5⟩
def lateChannel : SandboxIPC := ⟨7, 6, 8⟩

/-- Their four ends. -/
def crossedFds : Fds Nat := .ofList [(4, 10), (5, 11), (6, 12), (8, 13)]

theorem channel_overwritten : ∃ permittedFDs fds',
    dupAll [earlyChannel, lateChannel] [] crossedFds = some (permittedFDs, fds') ∧
      ([earlyChannel, lateChannel].map SandboxIPC.dupAs).Nodup ∧
      (∀ ipc ∈ [earlyChannel, lateChannel], (crossedFds.get ipc.child).isSome) ∧
      ([earlyChannel, lateChannel].map fun ipc => crossedFds.get ipc.child).Nodup ∧
      ¬ BoundToOwn [earlyChannel, lateChannel] crossedFds fds' := by
  obtain ⟨⟨permittedFDs, fds'⟩, hdup⟩ := Option.isSome_iff_exists.1
    (show (dupAll [earlyChannel, lateChannel] [] crossedFds).isSome = true by decide +kernel)
  refine ⟨permittedFDs, fds', hdup, by decide, by decide +kernel, by decide +kernel, fun h => ?_⟩
  have hown := h lateChannel (by simp)
  rw [dupAll_sequential hdup (by decide)] at hown
  exact absurd hown (by decide +kernel)

/-- In the other order both are right. -/
theorem bound_to_own_crossed : ∃ permittedFDs fds',
    dupAll [lateChannel, earlyChannel] [] crossedFds = some (permittedFDs, fds') ∧
      BoundToOwn [lateChannel, earlyChannel] crossedFds fds' := by
  obtain ⟨⟨permittedFDs, fds'⟩, hdup⟩ := Option.isSome_iff_exists.1
    (show (dupAll [lateChannel, earlyChannel] [] crossedFds).isSome = true by decide +kernel)
  refine ⟨permittedFDs, fds', hdup, (bound_to_own_iff hdup ?_ ?_ ?_).2 ⟨?_, ?_⟩⟩ <;> decide +kernel

end CodiusSandbox
