import CodiusSandbox.Exchange
import CodiusSandbox.NativeFilesystem
import CodiusSandbox.NodeFilesystem
/-!
# How an error gets to the child

`CodiusNodeFilesystem` returns `-e` and leaves `errno` alone, `NativeFilesystem` returns -1 and sets
`errno` to `e`. `do_read` goes by `errno`, the other handlers by the result, so that each handler is right
about one of the two. `error_returned_iff` says which calls return `-e`.
-/
namespace CodiusSandbox

open Wp

/-- How a filesystem reports an error. -/
inductive Convention where
  /-- `CodiusNodeFilesystem`. -/
  | result
  /-- `NativeFilesystem`. -/
  | errno
deriving DecidableEq, Repr

variable {F W : Type}

/-- The exchange reports `e`. -/
def Convention.Reports (c : Convention) (x : Exchange F W) (e : Errno) : Prop :=
  match c with
  | .result => x.result = -e ∧ x.after.errno = x.before
  | .errno => x.result = -1 ∧ x.after.errno = e

/-- What has to come together: `do_read` with a file that sets `errno`, or that finds it set already;
any other handler with one that returns the error, or that error 1. -/
def Convention.Suits (c : Convention) (σ : Tracer F W) (call : SyscallCall) (e : Errno) : Prop :=
  match c with
  | .result => call.id = SYS_read → σ.errno = e
  | .errno => call.id = SYS_read ∨ e = 1

section
variable [Filesystem F W] {σ : Tracer F W} {call : SyscallCall} {x : Exchange F W} {e : Int} {c : Convention}

omit [Filesystem F W] in
theorem Convention.Reports.neg (h : c.Reports x e) (he : 0 < e) (hint : IsInt e) :
    x.result < 0 ∧ IsInt x.result := by
  unfold IsInt at *
  cases c with
  | result =>
    rw [h.1]
    omega
  | errno =>
    rw [h.1]
    omega

theorem returned_iff (herrno : IsInt σ.errno) (hx : σ.exchange call = some x) (he : 0 < e) (hint : IsInt e)
    (h : c.Reports x e) : toWord (x.returned call) = toWord (-e) ↔ c.Suits σ call e := by
  have hneg := (h.neg he hint).1
  unfold Exchange.returned Convention.Suits
  by_cases hid : call.id = SYS_read
  · rw [if_pos hid, if_pos hneg]
    cases c with
    | result =>
      have hold : x.after.errno = σ.errno := h.2.trans (exchange_read hx hid).1
      rw [hold, toWord_eq_iff herrno.neg_long hint.neg_long]
      exact ⟨fun heq _ => Int.neg_inj.1 heq, fun heq => congrArg Neg.neg (heq hid)⟩
    | errno =>
      rw [h.2]
      exact iff_of_true rfl (.inl hid)
  · rw [if_neg hid]
    cases c with
    | result =>
      rw [h.1]
      exact iff_of_true rfl fun hread => absurd hread hid
    | errno =>
      rw [h.1, toWord_eq_iff (by decide) hint.neg_long]
      constructor
      · intro heq
        have hone : e = (1 : Int) := by omega
        exact .inr hone
      · rintro (hread | rfl)
        · exact absurd hread hid
        · rfl

/-- The call returns an error exactly when the handler and the filesystem agree on where it stands. -/
theorem error_returned_iff (herrno : IsInt σ.errno) (hx : σ.exchange call = some x) (he : 0 < e) (hint : IsInt e)
    (h : c.Reports x e) :
    Returns (handleSyscall call) (fun ret _ => ret.id = toWord (-1) ∧ ret.returnVal = toWord (-e)) σ ↔
      (call.id = SYS_readlink → TailMapped σ.mem (call.args 1) (call.args 2).toNat) ∧ c.Suits σ call e := by
  obtain ⟨hneg, hresult⟩ := h.neg he hint
  have hlength := length_of_neg hresult.long.1 hneg (fun _ => hresult) fun hid => (exchange_readlink hx hid).1
  have hwrites := exchange_run hx (backed_of_neg hresult.long.1 hneg fun _ => hresult)
  have htail : TailMapped σ.mem (call.args 1) (x.length call) ↔
      (call.id = SYS_readlink → TailMapped σ.mem (call.args 1) (call.args 2).toNat) := by
    rw [hlength]
    split
    · rename_i hl
      exact ⟨fun ht _ => ht, fun ht => ht hl⟩
    · rename_i hl
      exact ⟨fun _ hl' => absurd hl' hl, fun _ => tailMapped_zero _ _⟩
  have hreturned := returned_iff herrno hx he hint h
  by_cases ht : TailMapped σ.mem (call.args 1) (x.length call)
  · obtain ⟨t, hrun, _⟩ := hwrites.run ht
    rw [returns_ok hrun, ← hreturned]
    exact ⟨fun hr => ⟨htail.1 ht, hr.2⟩, fun hr => ⟨rfl, hr.2⟩⟩
  · obtain ⟨err, t, hrun⟩ := hwrites.stop ht
    refine iff_of_false (fun hr => ?_) fun hr => ht (htail.2 hr.1)
    obtain ⟨a, u, hok, _⟩ := returns_iff.1 hr
    rw [hrun] at hok
    cases hok

end

/-- What `CodiusNodeFilesystem` returns as an error it reports in the result: no operation touches
`errno`. -/
theorem node_reports {X : Type} [OnVFS X] {σ : Tracer (CodiusNodeFilesystem X) (Node X)} {call : SyscallCall}
    {x : Exchange (CodiusNodeFilesystem X) (Node X)} {e : Int} (hx : σ.exchange call = some x)
    (he : x.result = -e) : Convention.result.Reports x e := by
  refine ⟨he, ?_⟩
  unfold Tracer.exchange at hx
  dsimp only at hx
  rcases ite_eq_iff.1 hx with ⟨-, hx⟩ | ⟨-, hx⟩
  · obtain ⟨f, _, _, rfl⟩ := askFile_some hx
    rfl
  rcases ite_eq_iff.1 hx with ⟨-, hx⟩ | ⟨-, hx⟩
  · obtain ⟨f, _, _, rfl⟩ := askFile_some hx
    rfl
  rcases ite_eq_iff.1 hx with ⟨-, hx⟩ | ⟨-, hx⟩
  · obtain ⟨f, _, _, rfl⟩ := askFile_some hx
    rfl
  rcases ite_eq_iff.1 hx with ⟨-, hx⟩ | ⟨-, hx⟩
  · obtain ⟨f, _, _, rfl⟩ := askFile_some hx
    rfl
  rcases ite_eq_iff.1 hx with ⟨-, hx⟩ | ⟨-, hx⟩
  · split at hx
    · obtain ⟨f, _, _, rfl⟩ := askFile_some hx
      rfl
    · cases hx
  rcases ite_eq_iff.1 hx with ⟨-, hx⟩ | ⟨-, hx⟩
  · obtain ⟨f, _, _, rfl⟩ := askFile_some hx
    rfl
  rcases ite_eq_iff.1 hx with ⟨-, hx⟩ | ⟨-, hx⟩
  · obtain ⟨path, fs, _, _, rfl⟩ := askPath_some hx
    rfl
  rcases ite_eq_iff.1 hx with ⟨-, hx⟩ | ⟨-, hx⟩
  · obtain ⟨path, fs, _, _, rfl⟩ := askPath_some hx
    rfl
  rcases ite_eq_iff.1 hx with ⟨-, hx⟩ | ⟨-, hx⟩
  · obtain ⟨path, fs, _, _, rfl⟩ := askPath_some hx
    rfl
  rcases ite_eq_iff.1 hx with ⟨-, hx⟩ | ⟨-, hx⟩
  · obtain ⟨path, fs, _, _, rfl⟩ := askPath_some hx
    rfl
  · cases hx

/-! ## Both ways to lose an error -/

theorem isInt_ENOENT : IsInt ENOENT := by decide

/-- A callback that fails with `ENOENT`. -/
def missing : Callback := ⟨⟨ENOENT, .undefined, isInt_ENOENT⟩, undefined_encodable⟩

/-- The child of a Node sandbox. -/
def nodeChild (bytes : Str) (c : Callback) : Tracer (CodiusNodeFilesystem Callback) (Node Callback) :=
  { Tracer.start ⟨(page bytes).mem, 0, ⟨∅, c⟩, [], fun _ => 0, 2 ^ 32⟩ with
    vfs := VFS.empty.mountFilesystem (str "/") ⟨⟩ }

theorem nodeChild_reachable (bytes : Str) (c : Callback) : Reachable (nodeChild bytes c) :=
  .step (.start _) (.mount _ _ _)

/-- A host without files. -/
structure NoFiles where

instance : DecidableEq NoFiles := fun _ _ => .isTrue rfl

/-- What fails with `ENOENT`. -/
def failing {α : Type} (a : α) : StateM (Host NoFiles) α := fun h => (a, { h with errno := ENOENT })

instance : Libc NoFiles where
  cOpen _ _ _ := failing (-1)
  cClose _ := failing (-1)
  cRead _ buf _ := failing (-1, buf)
  cFstat _ buf := failing (-1, buf)
  cGetdents _ buf _ := failing (-1, buf)
  cLseek _ _ _ := failing (-1)
  cWrite _ _ _ := failing (-1)
  cAccess _ _ := failing (-1)
  cStat _ buf := failing (-1, buf)
  cLstat _ buf := failing (-1, buf)
  cReadlink _ buf _ := failing (-1, buf)

/-- A child on a host without files. -/
def bareChild (bytes : Str) : Tracer (NativeFilesystem NoFiles) (Os NoFiles) :=
  { Tracer.start ⟨(page bytes).mem, 0, ⟨⟨⟩, []⟩, [], fun _ => 0, 2 ^ 32⟩ with
    vfs := VFS.empty.mountFilesystem (str "/") ⟨str "/srv"⟩ }

/-- A read of the file behind `open ("/a")`. -/
def readOne : SyscallCall := .of SYS_read [4096, 0, 1]

/-- `access` of the path at 0. -/
def accessPath : SyscallCall := .of SYS_access [0]

theorem read_reports_missing : ∃ σ : Tracer (CodiusNodeFilesystem Callback) (Node Callback), Reachable σ ∧
    σ.errno = 0 ∧ (∃ x, σ.exchange readOne = some x ∧ Convention.result.Reports x ENOENT) ∧
      Returns (handleSyscall readOne) (fun ret _ => ret.returnVal = 0) σ := by
  obtain ⟨σ, hσ, herrno, hx, hret⟩ := (nodeChild_reachable (str "/a") missing).after (.of SYS_open [0])
    (Q := fun σ => σ.errno = 0 ∧
      (σ.exchange readOne).map Exchange.result = some (-2) ∧
      Returns (handleSyscall readOne) (fun ret _ => ret.returnVal = 0) σ) (by decide +kernel)
  obtain ⟨x, hx, heq⟩ := Option.map_eq_some_iff.1 hx
  exact ⟨σ, hσ, herrno, ⟨x, hx, node_reports hx heq⟩, hret⟩

/-- A `read` that fails returns 0, the end of the file; an `access` of what is not there returns -1. -/
theorem errors_lost :
    (∃ σ : Tracer (CodiusNodeFilesystem Callback) (Node Callback), Reachable σ ∧
      (∃ x, σ.exchange readOne = some x ∧ Convention.result.Reports x ENOENT) ∧
      Returns (handleSyscall readOne) (fun ret _ => ret.returnVal = 0) σ ∧
      ¬ Returns (handleSyscall readOne) (fun ret _ => ret.returnVal = toWord (-ENOENT)) σ) ∧
    ∃ σ : Tracer (NativeFilesystem NoFiles) (Os NoFiles), Reachable σ ∧
      (∃ x, σ.exchange accessPath = some x ∧ Convention.errno.Reports x ENOENT) ∧
      Returns (handleSyscall accessPath) (fun ret _ => ret.returnVal = toWord (-1)) σ ∧
      ¬ Returns (handleSyscall accessPath) (fun ret _ => ret.returnVal = toWord (-ENOENT)) σ := by
  refine ⟨?_, bareChild (str "/a"), .step (.start _) (.mount _ _ _), ?_, by decide +kernel, by decide +kernel⟩
  · obtain ⟨σ, hσ, _, hx, hret⟩ := read_reports_missing
    refine ⟨σ, hσ, hx, hret, fun h => ?_⟩
    obtain ⟨ret, _, h0, h2⟩ := hret.both h
    rw [h0] at h2
    exact absurd h2 (by decide)
  · generalize hσ : bareChild (str "/a") = σ
    have hholds : HoldsPath σ.mem 0 (str "/a") := by subst hσ; decide +kernel
    have hfound : σ.vfs.getFilesystem (str "/a") = .ok (some (str "/a", ⟨str "/srv"⟩)) := by subst hσ; decide +kernel
    obtain ⟨hread, hw, hg⟩ := hholds.resolves (by subst hσ; decide +kernel) (by decide +kernel) hfound
    have hx : σ.exchange accessPath = _ := exchange_access hread hw hg rfl
    exact ⟨_, hx, rfl, rfl⟩

theorem error_returned_missing : ∃ σ : Tracer (CodiusNodeFilesystem Callback) (Node Callback),
    Returns (handleSyscall readOne)
        (fun ret _ => ret.id = toWord (-1) ∧ ret.returnVal = toWord (-ENOENT)) σ ↔
      (readOne.id = SYS_readlink → TailMapped σ.mem (readOne.args 1) (readOne.args 2).toNat) ∧
        Convention.result.Suits σ readOne ENOENT := by
  obtain ⟨σ, _, herrno, ⟨x, hx, hreports⟩, _⟩ := read_reports_missing
  exact ⟨σ, error_returned_iff (by rw [herrno]; decide) hx (by decide) isInt_ENOENT hreports⟩

end CodiusSandbox
