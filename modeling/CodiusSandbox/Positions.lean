import CodiusSandbox.Lib.Runs
import CodiusSandbox.Offsets
/-!
# File positions (`node-filesystem.cpp:67-180`)

Calls on one descriptor of a `CodiusNodeFilesystem`, beside a file whose position is a number without bounds.

* `FileCall.run`       — the code: `m_offsets[fd]` is an `int`, `lseek` returns 0, and `write` leaves it alone.
* `FileCall.reference` — the position that POSIX keeps.
* `follows_posix_iff`  — the lists of calls on which the two agree.
-/
namespace CodiusSandbox

open Runs

inductive Whence where
  | set
  | current
deriving DecidableEq

def Whence.value : Whence → Int
  | .set => SEEK_SET
  | .current => SEEK_CUR

/-- A call, with what the callback replies to it. -/
inductive FileCall where
  | read (count : Nat) (reply : VFSReply)
  | write (buf : Buffer) (count : Nat) (reply : VFSReply)
  | lseek (off : Word) (whence : Whence)

/-- `doVFS` with a log of the requests. -/
def logged (reply : VFSReply) (request : VFSRequest) : NodeM (List VFSRequest) VFSReply := do
  modify fun s => { s with js := s.js ++ [request] }
  return reply

def FileCall.run (fd : Int) : FileCall → NodeM (List VFSRequest) Int
  | .read count reply => do
    let r ← CodiusNodeFilesystem.read (logged reply) fd (fun _ => 0) count
    return r.1
  | .write buf count reply => CodiusNodeFilesystem.write (logged reply) fd buf count
  | .lseek off whence => CodiusNodeFilesystem.lseek fd (asOff off) whence.value

/-- A call with a log of its own. -/
def FileCall.result (fd : Int) (call : FileCall) (s : Node (List VFSRequest)) : Int × Node (List VFSRequest) :=
  call.run fd { s with js := [] }

/-! ## The reference -/

/-- The bytes that get to the caller's buffer or, as the callback has it, into the file. -/
def FileCall.transferred : FileCall → Nat
  | .read count reply =>
    if reply.errnum = 0 then (writeUtf8 reply.result.text (utf8Capacity reply.result.text count)).length else 0
  | .write _ _ reply => if reply.errnum = 0 then reply.result.int32.toNat else 0
  | .lseek _ _ => 0

/-- Where a call leads from `q`. -/
def FileCall.target : FileCall → Int → Int
  | .lseek off .set, _ => asOff off
  | .lseek off .current, q => q + asOff off
  | call, q => q + call.transferred

/-- Not before the start. -/
def FileCall.reference (call : FileCall) (q : Int) : Int := if 0 ≤ call.target q then call.target q else q

/-- What a call returns and requests is right where the position is `q`. -/
def FileCall.Agrees (call : FileCall) (fd q r : Int) (requests : List VFSRequest) : Prop :=
  match call with
  | .read count _ => requests = [.read fd (toInt count) q]
  | .write _ _ _ => True
  | .lseek _ _ => if 0 ≤ call.target q then r = call.target q else r < 0

instance (call : FileCall) (fd q r : Int) (requests : List VFSRequest) :
    Decidable (call.Agrees fd q r requests) :=
  match call with
  | .read count _ => inferInstanceAs (Decidable (requests = [.read fd (toInt count) q]))
  | .write _ _ _ => inferInstanceAs (Decidable True)
  | .lseek off whence =>
    inferInstanceAs (Decidable (if 0 ≤ (FileCall.lseek off whence).target q
      then r = (FileCall.lseek off whence).target q else r < 0))

/-- All calls agree with the reference, from the start of the file. -/
def FollowsPosix (fd : Int) (calls : List FileCall) (s : Node (List VFSRequest)) : Prop :=
  Along (fun call (x : Node (List VFSRequest) × Int) => ((call.result fd x.1).2, call.reference x.2))
    (fun call x => call.Agrees fd x.2 (call.result fd x.1).1 (call.result fd x.1).2.js) calls (s, 0)

/-! ## What goes wrong -/

/-- The reference's position, and how much of it `m_offsets` has missed. -/
structure Progress where
  position : Int
  missed : Int

/-- The bytes by which `m_offsets` goes on. -/
def FileCall.counted : FileCall → Nat
  | .read _ reply => reply.length
  | _ => 0

def FileCall.next (call : FileCall) (x : Progress) : Progress where
  position := call.reference x.position
  missed :=
    match call with
    | .lseek _ .set => 0
    | _ => x.missed + call.transferred - call.counted

/-- A seek leads to the start; a read finds the position in range and nothing missed but what an `int` forgets. -/
def FileCall.Harmless (call : FileCall) (x : Progress) : Prop :=
  match call with
  | .read _ _ => x.position < 2 ^ 31 ∧ (2 ^ 32 : Int) ∣ x.missed
  | .write _ _ _ => True
  | .lseek _ _ => call.target x.position = 0

instance (call : FileCall) (x : Progress) : Decidable (call.Harmless x) :=
  match call with
  | .read _ _ => inferInstanceAs (Decidable (x.position < 2 ^ 31 ∧ (2 ^ 32 : Int) ∣ x.missed))
  | .write _ _ _ => inferInstanceAs (Decidable True)
  | .lseek off whence => inferInstanceAs (Decidable ((FileCall.lseek off whence).target x.position = 0))

def HarmlessCalls (calls : List FileCall) : Prop := Along FileCall.next FileCall.Harmless calls ⟨0, 0⟩

section
variable {fd p q d : Int} {call : FileCall} {s : Node (List VFSRequest)} {reply : VFSReply}

/-! ## One call of the code -/

theorem toInt_add_toInt (n m : Int) : toInt (toInt n + m) = toInt (n + m) := Int.bmod_add_bmod

theorem toInt_sub_eq_iff : toInt (q - d) = q ↔ IsInt q ∧ (2 ^ 32 : Int) ∣ d := by
  have hbmod := Int.bmod_eq_iff (a := q - d) (b := 2 ^ 32) (c := q) (by decide)
  rw [toInt, hbmod, IsInt]
  omega

theorem VFSReply.advance_toInt (reply : VFSReply) (n : Int) :
    reply.advance (toInt n) = toInt (n + reply.length) := by
  unfold advance length
  split
  · exact toInt_add_toInt _ _
  · simp

theorem read_result (fd : Int) (count : Nat) (reply : VFSReply) (s : Node (List VFSRequest)) :
    let t := ((FileCall.read count reply).result fd s).2
    t.position fd = reply.advance (s.position fd) ∧ t.js = [.read fd (toInt count) (s.position fd)] := by
  intro t
  obtain ⟨u, hu⟩ : ∃ u : Node (List VFSRequest), u = { s with js := [] } := ⟨_, rfl⟩
  have hpos : u.position fd = s.position fd := by rw [hu]; rfl
  have hjs : u.js = [] := by rw [hu]
  have ht : t = (CodiusNodeFilesystem.read (logged reply) fd (fun _ => 0) count u).2 := by rw [hu]; rfl
  have hlogged : logged reply (.read fd (toInt count) (u.position fd)) (u.setPosition fd (u.position fd)) =
      (reply, { u.setPosition fd (u.position fd) with js := u.js ++ [.read fd (toInt count) (u.position fd)] }) := rfl
  rw [ht, CodiusNodeFilesystem.read_eq, hlogged, hpos, hjs, VFSReply.advance]
  by_cases herr : reply.errnum = 0
  · rw [if_neg (not_not.2 herr), if_pos herr]
    refine ⟨?_, rfl⟩
    rw [Node.position_setPosition]
    exact congrArg (fun p => toInt (p + _)) Node.position_setPosition
  · rw [if_pos herr, if_neg herr]
    exact ⟨Node.position_setPosition, rfl⟩

theorem write_result (fd : Int) (buf : Buffer) (count : Nat) (reply : VFSReply) (s : Node (List VFSRequest)) :
    ((FileCall.write buf count reply).result fd s).2.position fd = s.position fd := by
  have hwrite : (FileCall.write buf count reply).result fd s =
      (if reply.errnum ≠ 0 then pure reply.failure else pure reply.result.int32 : NodeM (List VFSRequest) Int)
        { s with js := [.write fd (stringData buf count)] } := rfl
  rw [hwrite]
  split
  · rfl
  · rfl

theorem lseek_set_result (fd : Int) (off : Word) (s : Node (List VFSRequest)) :
    ((FileCall.lseek off .set).result fd s).1 = 0 ∧
      ((FileCall.lseek off .set).result fd s).2.position fd = toInt (asOff off) :=
  ⟨rfl, Node.position_setPosition⟩

theorem lseek_current_result (fd : Int) (off : Word) (s : Node (List VFSRequest)) :
    ((FileCall.lseek off .current).result fd s).1 = 0 ∧
      ((FileCall.lseek off .current).result fd s).2.position fd = toInt (s.position fd + asOff off) :=
  ⟨rfl, Node.position_setPosition⟩

/-! ## In step -/

/-- The code is where it should be, but for what it has missed. -/
structure InStep (fd : Int) (x : Node (List VFSRequest) × Int) (y : Progress) : Prop where
  reference : x.2 = y.position
  fromStart : 0 ≤ y.position
  position : x.1.position fd = toInt (y.position - y.missed)

theorem FileCall.fromStart_next (call : FileCall) {y : Progress} (h : 0 ≤ y.position) : 0 ≤ (call.next y).position := by
  simp only [next, reference]
  split
  · assumption
  · exact h

/-- `lseek` always returns 0. -/
theorem seek_agrees_iff {r : Int} (target : Int) (hr : r = 0) :
    (if 0 ≤ target then r = target else r < 0) ↔ target = 0 := by
  subst hr
  split
  · exact eq_comm
  · omega

theorem InStep.agrees_iff {x : Node (List VFSRequest) × Int} {y : Progress} (h : InStep fd x y) (call : FileCall) :
    call.Agrees fd x.2 (call.result fd x.1).1 (call.result fd x.1).2.js ↔ call.Harmless y := by
  cases call with
  | read count reply =>
    obtain ⟨-, hjs⟩ := read_result fd count reply x.1
    simp only [FileCall.Agrees, FileCall.Harmless, hjs, h.position, h.reference, List.cons.injEq, and_true,
      VFSRequest.read.injEq, true_and]
    have hlo := h.fromStart
    rw [toInt_sub_eq_iff, IsInt]
    constructor
    · rintro ⟨⟨-, hlt⟩, hd⟩
      exact ⟨hlt, hd⟩
    · rintro ⟨hlt, hd⟩
      exact ⟨⟨by omega, hlt⟩, hd⟩
  | write buf count reply => exact Iff.rfl
  | lseek off whence =>
    rw [FileCall.Agrees, FileCall.Harmless, h.reference]
    cases whence with
    | set => exact seek_agrees_iff _ (lseek_set_result fd off x.1).1
    | current => exact seek_agrees_iff _ (lseek_current_result fd off x.1).1

theorem InStep.next {x : Node (List VFSRequest) × Int} {y : Progress} (h : InStep fd x y) (call : FileCall)
    (hc : call.Harmless y) : InStep fd ((call.result fd x.1).2, call.reference x.2) (call.next y) := by
  refine ⟨by rw [h.reference]; rfl, call.fromStart_next h.fromStart, ?_⟩
  have hlo := h.fromStart
  cases call with
  | read count reply =>
    have hnext : ((FileCall.read count reply).next y).position =
        y.position + (FileCall.read count reply).transferred := if_pos (by simp only [FileCall.target]; omega)
    rw [(read_result fd count reply x.1).1, h.position, VFSReply.advance_toInt, hnext]
    refine congrArg toInt ?_
    simp only [FileCall.next, FileCall.counted]
    omega
  | write buf count reply =>
    have hnext : ((FileCall.write buf count reply).next y).position =
        y.position + (FileCall.write buf count reply).transferred := if_pos (by simp only [FileCall.target]; omega)
    rw [write_result, h.position, hnext]
    refine congrArg toInt ?_
    simp only [FileCall.next, FileCall.counted]
    omega
  | lseek off whence =>
    have hc : (FileCall.lseek off whence).target y.position = 0 := hc
    have hnext : ((FileCall.lseek off whence).next y).position = 0 := (if_pos (by omega)).trans hc
    rw [hnext]
    cases whence with
    | set =>
      have hoff : asOff off = 0 := hc
      rw [(lseek_set_result fd off x.1).2, hoff]
      rfl
    | current =>
      have hoff : y.position + asOff off = 0 := hc
      rw [(lseek_current_result fd off x.1).2, h.position, toInt_add_toInt]
      refine congrArg toInt ?_
      simp only [FileCall.next, FileCall.transferred, FileCall.counted]
      omega

end

/-- The calls on a descriptor that is at its start follow POSIX exactly if they are harmless. -/
theorem follows_posix_iff (fd : Int) (calls : List FileCall) {s : Node (List VFSRequest)} (h : s.position fd = 0) :
    FollowsPosix fd calls s ↔ HarmlessCalls calls := by
  have hstart : InStep fd (s, 0) ⟨0, 0⟩ := ⟨rfl, Int.le_refl _, by rw [h]; rfl⟩
  exact along_iff (fun call _ _ hstep => hstep.agrees_iff call)
    (fun call _ _ hstep hc => hstep.next call hc) hstart

/-- A descriptor that has just been opened. -/
def openedNode : Node (List VFSRequest) :=
  (CodiusNodeFilesystem.open (logged .descriptor) (str "a") 0 0 ⟨∅, []⟩).2

theorem openedNode_position : openedNode.position 3 = 0 := by decide +kernel

def wroteTwo : VFSReply := ⟨0, { Value.undefined with int32 := 2 }, isInt_zero⟩

/-- A seek to 5 returns 0, and a read behind a write starts where the write did. -/
theorem posix_position_lost :
    ¬ FollowsPosix 3 [.lseek 5 .set] openedNode ∧
      ¬ FollowsPosix 3 [.write (fun _ => 97) 2 wroteTwo, .read 2 twoBytes] openedNode := by
  unfold FollowsPosix
  decide +kernel

/-- Two reads of two bytes, back to the start, and another. -/
theorem follows_posix_reads :
    FollowsPosix 3 [.read 2 twoBytes, .read 2 twoBytes, .lseek (-4) .current, .read 2 twoBytes] openedNode := by
  refine (follows_posix_iff 3 _ openedNode_position).2 ?_
  unfold HarmlessCalls
  decide +kernel

end CodiusSandbox
