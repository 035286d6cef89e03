import CodiusSandbox.Lib.Tiling
import CodiusSandbox.NodeFilesystem
/-!
# Reads inside reads of one descriptor

`CodiusNodeFilesystem::read` takes the position from `m_offsets`, lets the event loop run until the reply
is there, and adds the length of the reply to what `m_offsets` has then. `Reads` is an order in which
threads do this on one descriptor: the reads handled while the reply of one is pending, and those behind
it. `reads_tile_iff` says in which orders the ranges read are disjoint and leave no gap.
-/
namespace CodiusSandbox

open Tiling

inductive Reads where
  | done
  | read (count : Nat) (reply : VFSReply) (inner next : Reads)

/-- The range a completed read has asked for and got. -/
def VFSReply.range (reply : VFSReply) (position : Int) : List (Int × Int) :=
  if reply.errnum = 0 then [(position, position + utf8Length reply.result.text)] else []

/-- The ranges of the completed reads, in the order of their replies. -/
abbrev ReadLog := List (Int × Int)

/-- What is logged for a request and its reply. -/
def served : VFSRequest → VFSReply → ReadLog
  | .read _ _ position, reply => reply.range position
  | _, _ => []

/-- `doVFS` where `loop` is handled before the reply. -/
def answer (loop : NodeM ReadLog Unit) (reply : VFSReply) (request : VFSRequest) : NodeM ReadLog VFSReply := do
  loop
  modify fun s => { s with js := s.js ++ served request reply }
  return reply

def Reads.run (fd : Int) : Reads → NodeM ReadLog Unit
  | .done => pure ()
  | .read count reply inner next => do
    let _ ← CodiusNodeFilesystem.read (answer (inner.run fd) reply) fd (fun _ => 0) count
    next.run fd

/-! ## The effect on one position -/

/-- `m_offsets[fd]` behind a reply. -/
def VFSReply.advance (reply : VFSReply) (position : Int) : Int :=
  if reply.errnum = 0 then toInt (position + utf8Length reply.result.text) else position

/-- The last position. -/
def Reads.final : Reads → Int → Int
  | .done, p => p
  | .read _ reply inner next, p => next.final (reply.advance (inner.final p))

def Reads.ranges : Reads → Int → ReadLog
  | .done, _ => []
  | .read _ reply inner next, p =>
    inner.ranges p ++ (reply.range p ++ next.ranges (reply.advance (inner.final p)))

/-- The position is added to behind the loop, the range is that before it. -/
theorem read_run (loop : NodeM ReadLog Unit) (reply : VFSReply) (fd : Int) (buf : Buffer) (count : Nat)
    (s : Node ReadLog) :
    let t := (loop (s.setPosition fd (s.position fd))).2
    let u := (CodiusNodeFilesystem.read (answer loop reply) fd buf count s).2
    u.position fd = reply.advance (t.position fd) ∧ u.js = t.js ++ reply.range (s.position fd) := by
  intro t u
  have hwaited : answer loop reply (.read fd (toInt count) (s.position fd))
      (s.setPosition fd (s.position fd)) = (reply, { t with js := t.js ++ reply.range (s.position fd) }) := rfl
  have hread : u = (if reply.errnum ≠ 0 then { t with js := t.js ++ reply.range (s.position fd) }
      else Node.setPosition { t with js := t.js ++ reply.range (s.position fd) } fd
        (toInt (t.position fd + utf8Length reply.result.text))) := by
    dsimp only [u]
    rw [CodiusNodeFilesystem.read_eq, hwaited]
    split
    · rfl
    · rfl
  rw [hread, VFSReply.advance]
  by_cases herr : reply.errnum = 0
  · rw [if_neg (not_not.2 herr), if_pos herr]
    exact ⟨Node.position_setPosition, rfl⟩
  · rw [if_pos herr, if_neg herr]
    exact ⟨rfl, rfl⟩

theorem Reads.run_eq (fd : Int) : ∀ (reads : Reads) (s : Node ReadLog),
    (reads.run fd s).2.position fd = reads.final (s.position fd) ∧
      (reads.run fd s).2.js = s.js ++ reads.ranges (s.position fd) := by
  intro reads
  induction reads with
  | done => exact fun s => ⟨rfl, (List.append_nil _).symm⟩
  | read count reply inner next ihinner ihnext =>
    intro s
    obtain ⟨hpos, hjs⟩ := read_run (inner.run fd) reply fd (fun _ => 0) count s
    obtain ⟨hpos', hjs'⟩ := ihinner (s.setPosition fd (s.position fd))
    obtain ⟨hpos'', hjs''⟩ :=
      ihnext (CodiusNodeFilesystem.read (answer (inner.run fd) reply) fd (fun _ => 0) count s).2
    rw [Node.position_setPosition] at hpos' hjs'
    rw [run, Wp.state_bind, hpos'', hjs'', hpos, hjs, hpos', hjs', final, ranges]
    exact ⟨rfl, by simp [Node.setPosition]⟩

/-! ## When the ranges tile -/

/-- The bytes of a reply. -/
def VFSReply.length (reply : VFSReply) : Nat :=
  if reply.errnum = 0 then utf8Length reply.result.text else 0

def Reads.total : Reads → Nat
  | .done => 0
  | .read _ reply inner next => inner.total + reply.length + next.total

/-- Inside a read that gets bytes there is none that does. -/
def Reads.Separate : Reads → Prop
  | .done => True
  | .read _ reply inner next =>
    (reply.length = 0 ∨ inner.total = 0) ∧ inner.Separate ∧ next.Separate

/-- A log that no later reads make good: two ranges overlap, or one goes beyond what an `int` holds. -/
def Spoilt (log : ReadLog) : Prop := ¬ Apart log ∨ ∃ x ∈ covered log, 2 ^ 31 - 1 ≤ x

section
variable {p q : Int} {reply : VFSReply} {log log' : ReadLog}

theorem VFSReply.advance_eq (h : IsInt (p + reply.length)) : reply.advance p = p + reply.length := by
  unfold advance length at *
  split
  · rename_i herr
    rw [if_pos herr] at h
    exact toInt_of_isInt h
  · simp

theorem VFSReply.advance_isInt (h : IsInt p) : IsInt (reply.advance p) := by
  unfold advance
  split
  · exact isInt_toInt _
  · exact h

theorem VFSReply.range_tiles (h : 0 < reply.length) : reply.range p = [(p, p + reply.length)] := by
  unfold length range at *
  split
  · rfl
  · rename_i herr
    rw [if_neg herr] at h
    exact absurd h (by decide)

/-- A reply without bytes takes nothing anywhere. -/
theorem VFSReply.range_empty (h : reply.length = 0) (p q : Int) : Tiles (reply.range p) q q := by
  unfold length range at *
  split
  · rename_i herr
    rw [if_pos herr] at h
    exact ⟨List.pairwise_singleton _ _, by simp [h]⟩
  · exact tiles_nil q

theorem Reads.final_isInt : ∀ (reads : Reads) {p : Int}, IsInt p → IsInt (reads.final p) := by
  intro reads
  induction reads with
  | done => exact fun h => h
  | read _ reply inner next ihinner ihnext => exact fun h => ihnext (VFSReply.advance_isInt (ihinner h))

/-- Separate reads whose positions are in range take one range after the other. -/
theorem Reads.tiles : ∀ (reads : Reads) {p : Int}, IsInt p → reads.Separate → p + reads.total < 2 ^ 31 →
    reads.final p = p + reads.total ∧ Tiles (reads.ranges p) p (p + reads.total) := by
  intro reads
  induction reads with
  | done =>
    intro p _ _ _
    simp [final, ranges, total, tiles_nil]
  | read count reply inner next ihinner ihnext =>
    intro p hp hsep hlt
    obtain ⟨hone, hinner, hnext⟩ := hsep
    rw [total] at hlt
    unfold IsInt at hp
    push_cast at hlt
    obtain ⟨hfinal, htiles⟩ := ihinner hp hinner (by omega)
    have hadvance : reply.advance (p + inner.total) = p + inner.total + reply.length :=
      VFSReply.advance_eq ⟨by omega, by omega⟩
    have hreply : Tiles (reply.range p) (p + inner.total) (p + inner.total + reply.length) := by
      rcases Nat.eq_zero_or_pos reply.length with hz | hpos
      · rw [hz]
        simpa using VFSReply.range_empty hz p (p + inner.total)
      · rw [VFSReply.range_tiles hpos, hone.resolve_left (by omega)]
        simpa using tiles_singleton p (p + reply.length)
    obtain ⟨hfinal', htiles'⟩ := ihnext (p := p + inner.total + reply.length) ⟨by omega, by omega⟩ hnext (by omega)
    rw [final, ranges, total, hfinal, hadvance, hfinal']
    have hsum : p + ((inner.total + reply.length + next.total : Nat) : Int) =
        p + inner.total + reply.length + next.total := by
      push_cast
      omega
    rw [hsum]
    refine ⟨rfl, htiles.append (hreply.append htiles' ?_ ?_) ?_ ?_⟩
    all_goals omega

theorem Spoilt.append_left (h : Spoilt log) : Spoilt (log ++ log') := by
  rcases h with h | ⟨x, hx, hbig⟩
  · exact .inl fun ha => h (apart_append.1 ha).1
  · exact .inr ⟨x, by simp [hx], hbig⟩

theorem Spoilt.append_right (h : Spoilt log') : Spoilt (log ++ log') := by
  rcases h with h | ⟨x, hx, hbig⟩
  · exact .inl fun ha => h (apart_append.1 ha).2.1
  · exact .inr ⟨x, by simp [hx], hbig⟩

theorem Spoilt.not_tiles (h : Spoilt log) (hq : IsInt q) : ¬ Tiles log p q := by
  intro ht
  rcases h with h | ⟨x, hx, hbig⟩
  · exact h ht.1
  · have := (ht.mem hx).2
    unfold IsInt at hq
    omega

/-- All other reads spoil the log. -/
theorem Reads.spoils : ∀ (reads : Reads) {p : Int}, IsInt p →
    ¬ (reads.Separate ∧ p + reads.total < 2 ^ 31) → Spoilt (reads.ranges p) := by
  intro reads
  induction reads with
  | done =>
    intro p hp hn
    exact absurd ⟨trivial, by simpa [total] using hp.2⟩ hn
  | read count reply inner next ihinner ihnext =>
    intro p hp hn
    rw [ranges]
    by_cases hinner : inner.Separate ∧ p + inner.total < 2 ^ 31
    · obtain ⟨hfinal, htiles⟩ := inner.tiles hp hinner.1 hinner.2
      have hq : IsInt (inner.final p) := inner.final_isInt hp
      rcases Nat.eq_zero_or_pos reply.length with hz | hpos
      · -- the reply is empty, and the rest goes on from where the inner reads are
        have hadvance : reply.advance (inner.final p) = inner.final p := by
          rw [VFSReply.advance_eq (by simpa [hz] using hq), hz]
          simp
        rw [hadvance]
        refine Spoilt.append_right (Spoilt.append_right (ihnext hq fun h => hn ?_))
        refine ⟨⟨.inl hz, hinner.1, h.1⟩, ?_⟩
        rw [total]
        push_cast
        omega
      · rw [VFSReply.range_tiles hpos]
        rcases Nat.eq_zero_or_pos inner.total with hi | hi
        · have hfin : inner.final p = p := by rw [hfinal, hi]; simp
          rw [hfin]
          by_cases hbig : p + reply.length < 2 ^ 31
          · have hadvance : reply.advance p = p + reply.length := by
              refine VFSReply.advance_eq ⟨?_, hbig⟩
              have := hp.1
              omega
            rw [hadvance]
            have hr : IsInt (p + reply.length) := ⟨by have := hp.1; omega, hbig⟩
            refine Spoilt.append_right (Spoilt.append_right (ihnext hr fun h => hn ?_))
            refine ⟨⟨.inr hi, hinner.1, h.1⟩, ?_⟩
            rw [total, hi]
            push_cast
            omega
          · -- the range ends beyond an `int`
            refine Spoilt.append_right (Spoilt.append_left (.inr ⟨2 ^ 31 - 1, ?_, Int.le_refl _⟩))
            rw [covered_singleton]
            have := hp.2
            exact ⟨by omega, by omega⟩
        · -- the inner reads begin where this one does
          refine .inl fun ha => ?_
          obtain ⟨_, _, hd⟩ := apart_append.1 ha
          have hin : p ∈ covered (inner.ranges p) := by
            rw [htiles.2]
            exact ⟨Int.le_refl _, by omega⟩
          have hout : p ∈ covered ([(p, p + (reply.length : Int))] ++
              next.ranges (reply.advance (inner.final p))) := by
            rw [covered_append, covered_singleton]
            exact .inl ⟨Int.le_refl _, by omega⟩
          exact Set.disjoint_left.1 hd hin hout
    · exact Spoilt.append_left (ihinner hp hinner)

end

/-- The ranges of nested reads of one descriptor tile what lies between the first and the last position
exactly when no read that gets bytes has one inside it that does, and the position stays an `int`. -/
theorem reads_tile_iff (fd : Int) (reads : Reads) {s : Node ReadLog} (hlog : s.js = [])
    (hint : IsInt (s.position fd)) :
    Tiles (reads.run fd s).2.js (s.position fd) ((reads.run fd s).2.position fd) ↔
      reads.Separate ∧ s.position fd + reads.total < 2 ^ 31 := by
  obtain ⟨hpos, hjs⟩ := reads.run_eq fd s
  rw [hpos, hjs, hlog, List.nil_append]
  by_cases h : reads.Separate ∧ s.position fd + reads.total < 2 ^ 31
  · obtain ⟨hfinal, htiles⟩ := reads.tiles hint h.1 h.2
    rw [hfinal]
    exact iff_of_true htiles h
  · exact iff_of_false ((reads.spoils hint h).not_tiles (reads.final_isInt hint)) h

/-- A reply of two bytes. -/
def twoBytes : VFSReply := ⟨0, { Value.undefined with text := [str "a", str "b"] }, isInt_zero⟩

/-- A read of two bytes while another waits for its two. -/
def readTwice : Reads := .read 2 twoBytes (.read 2 twoBytes .done .done) .done

/-- One read behind the other. -/
def readInTurn : Reads := .read 2 twoBytes .done (.read 2 twoBytes .done .done)

/-- Both reads ask for the first two bytes, and two others are skipped. -/
theorem reads_repeat : (readTwice.run 3 ⟨∅, []⟩).2.js = [(0, 2), (0, 2)] ∧
    (readTwice.run 3 ⟨∅, []⟩).2.position 3 = 4 ∧
    ¬ Tiles (readTwice.run 3 ⟨∅, []⟩).2.js 0 ((readTwice.run 3 ⟨∅, []⟩).2.position 3) := by
  have hjs : (readTwice.run 3 ⟨∅, []⟩).2.js = [(0, 2), (0, 2)] := by decide +kernel
  have hpos : (readTwice.run 3 ⟨∅, []⟩).2.position 3 = 4 := by decide +kernel
  refine ⟨hjs, hpos, fun h => ?_⟩
  rw [hjs, hpos] at h
  have hmem : (3 : Int) ∈ covered [((0 : Int), (2 : Int)), (0, 2)] := by
    rw [h.2]
    decide
  simp [covered] at hmem

theorem reads_tile_in_turn : Tiles (readInTurn.run 3 ⟨∅, []⟩).2.js 0 ((readInTurn.run 3 ⟨∅, []⟩).2.position 3) ↔
    readInTurn.Separate ∧ 0 + (readInTurn.total : Int) < 2 ^ 31 :=
  reads_tile_iff 3 readInTurn (s := ⟨∅, []⟩) rfl (by decide)

end CodiusSandbox
