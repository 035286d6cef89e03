import CodiusSandbox.Mediation
import CodiusSandbox.Exchange
import CodiusSandbox.Boundaries
/-!
# Path names of any length

`getFilename` has `copyString` fill a vector of 1024 bytes, and `copyString` puts no NUL behind what it
copies. The string made of the vector ends at the first NUL, so a longer path is cut after 1024 bytes and goes on
with whatever the heap holds behind the vector. No handler notices: it acts on the name it got
(`names_whole_iff`).
-/
namespace CodiusSandbox

open Wp

/-- The child holds the NUL-terminated path `n` at `addr`. -/
structure PathAt (m : Memory) (addr : Address) (n : Str) : Prop where
  bytes : ∀ i (h : i < n.length), m (offset addr i) = some n[i]
  noNul : 0 ∉ n
  nul : m (offset addr n.length) = some 0

instance (m : Memory) (addr : Address) (n : Str) : Decidable (PathAt m addr n) :=
  decidable_of_iff ((∀ i (h : i < n.length), m (offset addr i) = some n[i]) ∧ 0 ∉ n ∧
    m (offset addr n.length) = some 0) ⟨fun ⟨a, b, c⟩ => ⟨a, b, c⟩, fun ⟨a, b, c⟩ => ⟨a, b, c⟩⟩

/-- The call takes a path. -/
def TakesPath (id : Word) : Prop := IsPathCall id ∨ id = SYS_chdir

instance (id : Word) : Decidable (TakesPath id) := inferInstanceAs (Decidable (IsPathCall id ∨ id = SYS_chdir))

/-- The call is answered with an error number. -/
def AnswersError {F W : Type} [Filesystem F W] (call : SyscallCall) (σ : Tracer F W) : Prop :=
  Returns (handleSyscall call) (fun ret _ => ret.returnVal.toInt < 0) σ

/-- Whatever surrounds the child's memory `m`, a call that passes the path at `addr` gets it whole or
is answered with an error. -/
def NamesWhole (m : Memory) (addr : Address) (n : Str) : Prop :=
  ∀ (F W : Type) [Filesystem F W] (σ : Tracer F W) (call : SyscallCall), Reachable σ → σ.mem = m →
    TakesPath call.id → pathArg call = addr →
    Returns (getFilename addr) (fun name _ => name = n) σ ∨ AnswersError call σ

section
variable {m : Memory} {addr : Address} {n : Str} {slack : List UInt8}

theorem PathAt.holds (h : PathAt m addr n) (hshort : n.length < 1024) : HoldsPath m addr n :=
  ⟨hshort, h.bytes, h.noNul, h.nul⟩

/-- The name that is made of a path that does not fit. -/
theorem nameAt_long (h : PathAt m addr n) (hlong : 1024 ≤ n.length) :
    nameAt m slack addr = n.take 1024 ++ slack.takeWhile (· ≠ 0) := by
  have hbytes : (List.range 1024).map (fun k => byteAt m (offset addr k)) = n.take 1024 := by
    refine List.ext_getElem (by simp [hlong]) fun i hi hi' => ?_
    have hlt : i < n.length := by
      rw [List.length_map, List.length_range] at hi
      omega
    rw [List.getElem_map, List.getElem_range, List.getElem_take, byteAt, h.bytes i hlt]
    rfl
  have hnoNul : 0 ∉ n.take 1024 := fun h0 => h.noNul (List.mem_of_mem_take h0)
  rw [nameAt, hbytes]
  exact List.takeWhile_append_of_pos (all_ne_zero hnoNul)

/-- Bytes behind the vector with which the name is not the path. -/
def spoilingSlack (n : Str) : List UInt8 := if n.length = 1024 then [1] else []

theorem nameAt_spoiled (h : PathAt m addr n) (hlong : 1024 ≤ n.length) :
    1024 ≤ (nameAt m (spoilingSlack n) addr).length ∧ nameAt m (spoilingSlack n) addr ≠ n := by
  have hname : nameAt m (spoilingSlack n) addr = n.take 1024 ++ _ := nameAt_long h hlong
  rw [hname]
  have htake : (n.take 1024).length = 1024 := by rw [List.length_take]; omega
  refine ⟨by rw [List.length_append]; omega, fun heq => ?_⟩
  have hlen := congrArg List.length heq
  rw [List.length_append, htake] at hlen
  by_cases h1024 : n.length = 1024
  · have hone : (spoilingSlack n).takeWhile (· ≠ 0) = [1] := by
      rw [spoilingSlack, if_pos h1024]
      rfl
    rw [hone, h1024] at hlen
    cases hlen
  · have hnone : (spoilingSlack n).takeWhile (· ≠ 0) = [] := by
      rw [spoilingSlack, if_neg h1024]
      rfl
    rw [hnone] at hlen
    exact h1024 hlen.symm

theorem not_whitelisted_of_long {p : Str} (h : 1024 ≤ p.length) : isWhitelisted p = false := by
  cases hw : isWhitelisted p with
  | false => rfl
  | true =>
    have hshort : ∀ q ∈ whitelist, q.length < 1024 := by decide
    have hlt := hshort p (isWhitelisted_iff.1 hw)
    omega

/-! ## A tracer that knows a name -/

/-- A current directory. -/
theorem exists_directory (e : Environment Unit) : ∃ σ : Tracer Fixed Unit, Reachable σ ∧ σ.mem = e.mem ∧
    σ.slack = e.slack ∧ ∃ c : File Fixed, c.path = str "/x" ∧
      σ.vfs = ({ (VFS.empty : VFS Fixed) with cwd := some c }).mountFilesystem (str "/") ⟨0⟩ := by
  have hmount : Reachable _ := .step (.start e) (.mount (Tracer.start e) (str "/") (⟨0⟩ : Fixed))
  have hfound : ((VFS.empty : VFS Fixed).mountFilesystem (str "/") ⟨0⟩).getFilesystem (trimSlash (str "/x")) =
      .ok (some (str "/x", ⟨0⟩)) := by
    rw [getFilesystem_mounted rfl rfl rfl]
    rfl
  obtain ⟨t, hset, htables⟩ :=
    setCWD_some (σ := { Tracer.start e with vfs := VFS.empty.mountFilesystem (str "/") (⟨0⟩ : Fixed) })
      hfound
  refine ⟨t.moveTo e, .step (.step hmount (.setCWD hset)) (.environment t e), rfl, rfl, _, ?_, htables.vfs⟩
  rfl

/-- Any name is found by some VFS, in any environment. -/
theorem exists_finding (e : Environment Unit) {name : Str} (hne : name ≠ []) : ∃ σ : Tracer Fixed Unit, Reachable σ ∧
    σ.mem = e.mem ∧ σ.slack = e.slack ∧ ∃ path, σ.vfs.getFilesystem name = .ok (some (path, ⟨0⟩)) := by
  by_cases hdot : name.head? = some dot
  · obtain ⟨σ, hreach, hmem, hslack, c, hc, hvfs⟩ := exists_directory e
    have hfound : (({ (VFS.empty : VFS Fixed) with cwd := some c }).mountFilesystem (str "/") ⟨0⟩).getFilesystem
        (str "/x" ++ name) = _ := getFilesystem_mounted rfl rfl rfl
    have hprefix : str "/" <+: str "/x" ++ name := ⟨str "x" ++ name, rfl⟩
    have hhead : ¬ (str "/x" ++ name).head? = some dot := by
      have hslash : (str "/x" ++ name).head? = some slash := rfl
      rw [hslash]
      decide
    rw [if_pos hprefix, VFS.getFilesystem, if_neg hhead] at hfound
    refine ⟨σ, hreach, hmem, hslack, (str "/x" ++ name).drop ((str "/").length - 1), ?_⟩
    rw [hvfs, VFS.getFilesystem, if_pos hdot]
    dsimp only [VFS.mountFilesystem]
    rw [hc]
    exact hfound
  · refine ⟨_, .step (.start e) (.mount (Tracer.start e) name (⟨0⟩ : Fixed)), rfl, rfl,
      name.drop (name.length - 1), ?_⟩
    have hfound : ((VFS.empty : VFS Fixed).mountFilesystem name ⟨0⟩).getFilesystem name = _ :=
      getFilesystem_single rfl hne hdot
    rw [if_pos (List.prefix_refl name)] at hfound
    exact hfound

/-! ## What the handlers get -/

/-- `access` of the path at `addr`. -/
def accessAt (addr : Address) : SyscallCall := .of SYS_access [addr]

theorem accessAt_takesPath (addr : Address) : TakesPath (accessAt addr).id ∧ pathArg (accessAt addr) = addr := by
  have htakes : TakesPath SYS_access := by decide
  have hne : SYS_access ≠ SYS_openat := by decide
  exact ⟨htakes, if_neg hne⟩

theorem accessAt_error {σ : Tracer Fixed Unit} (hr : ¬ Readable σ.mem addr 1024) :
    ∃ e t, handleSyscall (accessAt addr) σ = .error e t := by
  have hrun : doAccess (accessAt addr) σ = .error .assertion { σ with errno := EIO } := by
    rw [doAccess]
    exact bind_error (getFilename_unreadable hr)
  exact ⟨_, _, hrun⟩

/-- A handler acts on a name that the child did not pass, and succeeds. -/
theorem acts_on_other_name (h : PathAt m addr n) (hlong : 1024 ≤ n.length) (hr : Readable m addr 1024) :
    ∃ σ : Tracer Fixed Unit, Reachable σ ∧ σ.mem = m ∧ Returns (getFilename addr) (fun name _ => name ≠ n) σ ∧
      Returns (handleSyscall (accessAt addr)) (fun ret _ => ret.returnVal = 0) σ := by
  obtain ⟨hlen, hne⟩ := nameAt_spoiled h hlong
  have hpos : 0 < (nameAt m (spoilingSlack n) addr).length := by omega
  obtain ⟨σ, hreach, hmem, hslack, path, hfound⟩ := exists_finding
    ⟨m, 0, (), spoilingSlack n, fun _ => 0, 0⟩ (List.ne_nil_of_length_pos hpos)
  subst hmem
  have hname : σ.nameAt addr = nameAt σ.mem (spoilingSlack n) addr := by rw [Tracer.nameAt, hslack]
  refine ⟨σ, hreach, rfl, ?_, ?_⟩
  · rw [returns_ok (getFilename_readable hr), hname]
    exact hne
  · have hw : isWhitelisted (σ.nameAt addr) = false := not_whitelisted_of_long (by rw [hname]; exact hlen)
    have hg : σ.vfs.getFilesystem (σ.nameAt addr) = .ok (some (path, ⟨0⟩)) := by rw [hname]; exact hfound
    have hx : σ.exchange (accessAt addr) = some _ := exchange_access hr hw hg rfl
    have hread : SYS_access ≠ SYS_read := by decide
    have hdents : SYS_access ≠ SYS_getdents := by decide
    obtain ⟨t, hrun, -⟩ := (exchange_run hx (backed_of_ne hread hdents)).run fun h => absurd h (Nat.not_lt_zero _)
    rw [returns_ok hrun]
    rfl

theorem not_namesWhole (h : PathAt m addr n) (hlong : 1024 ≤ n.length) (hr : Readable m addr 1024) :
    ¬ NamesWhole m addr n := by
  intro hwhole
  obtain ⟨σ, hreach, hmem, hother, hanswer⟩ := acts_on_other_name h hlong hr
  obtain ⟨hid, harg⟩ := accessAt_takesPath addr
  rcases hwhole Fixed Unit σ (accessAt addr) hreach hmem hid harg with hsame | herror
  · obtain ⟨name, _, heq, hne⟩ := hsame.both hother
    exact hne heq
  · obtain ⟨ret, _, hneg, hzero⟩ := herror.both hanswer
    rw [hzero] at hneg
    exact absurd hneg (by decide)

/-- A path is passed on whole if it fits with its NUL, and the words that hold it can be read. -/
theorem names_whole_iff (h : PathAt m addr n) :
    NamesWhole m addr n ↔ n.length < 1024 ∧ Readable m addr 1024 := by
  constructor
  · intro hwhole
    have hr : Readable m addr 1024 := by
      by_contra hr
      have hreach : Reachable (F := Fixed) _ := .start ⟨m, 0, (), [], fun _ => 0, 0⟩
      obtain ⟨hid, harg⟩ := accessAt_takesPath addr
      rcases hwhole Fixed Unit _ (accessAt addr) hreach rfl hid harg with hsame | herror
      · exact not_returns_of_error (getFilename_unreadable hr) hsame
      · obtain ⟨e, t, hrun⟩ := accessAt_error (σ := Tracer.start ⟨m, 0, (), [], fun _ => 0, 0⟩) hr
        exact not_returns_of_error hrun herror
    refine ⟨?_, hr⟩
    by_contra hlong
    exact not_namesWhole h (Nat.le_of_not_lt hlong) hr hwhole
  · rintro ⟨hshort, hr⟩ F W _ σ call _ rfl _ _
    refine .inl ?_
    rw [returns_ok (getFilename_readable hr)]
    exact nameAt_of_holds (h.holds hshort)

end

/-! ## A long path -/

/-- `/aaa…` with 1100 letters. -/
def longPath : Str := slash :: List.replicate 1100 97

/-- A child with all of its memory mapped, and a string at 0. -/
def holding (bytes : Str) : Memory := fun a => some (bytes.getD a.toNat 0)

theorem holding_pathAt {n : Str} (hnz : 0 ∉ n) (hlen : n.length < 2 ^ 64) : PathAt (holding n) 0 n := by
  have haddr : ∀ i, i ≤ n.length → (offset 0 i).toNat = i := by
    intro i hi
    have hzero : (0 : Address).toNat = 0 := rfl
    rw [offset, BitVec.toNat_add, BitVec.toNat_ofNat, hzero]
    omega
  refine ⟨fun i hi => ?_, hnz, ?_⟩
  · rw [holding, haddr i (by omega)]
    simp [hi]
  · rw [holding, haddr _ (Nat.le_refl _)]
    simp

theorem long_path_cut : ¬ NamesWhole (holding longPath) 0 longPath := by
  have hnz : 0 ∉ longPath := by
    rw [longPath, List.mem_cons, List.mem_replicate]
    decide
  have hlen : longPath.length = 1101 := by rw [longPath, List.length_cons, List.length_replicate]
  exact not_namesWhole (holding_pathAt hnz (by omega)) (by omega) fun _ _ _ _ _ _ => rfl

theorem names_whole_short : NamesWhole (holding (str "/a")) 0 (str "/a") ↔
    (str "/a").length < 1024 ∧ Readable (holding (str "/a")) 0 1024 :=
  names_whole_iff (holding_pathAt (by decide) (by decide))

end CodiusSandbox
