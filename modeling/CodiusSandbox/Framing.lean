import CodiusSandbox.Ipc
import Mathlib.Data.List.TakeWhile
/-!
# Frames on a stream socket

`writeFrame` and `readFrame` make one call each for the header and for the body and look at its result
only to see whether it failed. `delivers_iff`: messages arrive complete and in order, whatever the
reader's memory holds, exactly if every call moves all the bytes it asks for; the end of the stream is
seen as such exactly if the header that nobody has written there does not begin with the magic bytes.
A result is not terminated, so what lies behind its block matters as well.
-/
namespace CodiusSandbox

open Wp LittleEndian

/-! ## The two ends -/

structure Frame where
  id : Word
  body : Str

def Frame.header (f : Frame) : RpcHeader := ⟨CODIUS_MAGIC_BYTES, f.id, BitVec.ofNat 64 f.body.length⟩

def Frame.bytes (f : Frame) : Str := f.header.bytes ++ f.body

/-- A frame with a text that the peer accepts. -/
structure Message extends Frame where
  noNul : 0 ∉ body
  bounded : body.length ≤ CODIUS_MAX_RESPONSE_SIZE

/-- The memory that a call of `readFrame` finds. -/
structure Garbage where
  /-- The header, on the stack. -/
  stack : Buffer
  /-- The block for the body. -/
  block : Buffer
  /-- What is behind that block. -/
  slack : List UInt8

def writeMessages : List Message → ProcessM Unit
  | [] => return ()
  | m :: msgs => do
    let _ ← writeFrame m.id m.body
    writeMessages msgs

/-- One call of `readFrame` after another, each in its own garbage. -/
def readMessages (terminate : Bool) : List Garbage → ProcessM (List (Option (Word × Str)))
  | [] => return []
  | g :: gs => do
    modify fun s => { s with stack := g.stack, block := g.block, slack := g.slack }
    let m ← readFrame terminate
    return m :: (← readMessages terminate gs)

/-- Between the processes `w` and `r`, whose calls move what the plans `writes` and `reads` say, the
messages `msgs` arrive, and behind them the end of the stream in the garbage `last`. With `nul`, a block
from `malloc` has a NUL behind it. -/
def Delivers (terminate : Bool) (nul : Prop) (w r : Process) (msgs : List Message)
    (writes reads : List Nat) (last : Garbage) : Prop :=
  ∀ gs : List Garbage, gs.length = msgs.length → (nul → ∀ g ∈ gs, g.slack.takeWhile (· ≠ 0) = []) →
    Returns (writeMessages msgs) (fun _ t =>
      Returns (readMessages terminate (gs ++ [last]))
        (fun ms _ => ms = msgs.map (fun m => some (m.id, m.body)) ++ [none])
        { r with input := t.output, reads := reads.map some })
      { w with output := [], writes := writes.map some }

/-- What the calls ask for, on either side. -/
def callCounts (msgs : List Message) : List Nat := msgs.flatMap fun m => [sizeofHeader, m.body.length]

/-- Each call moves all it asks for. -/
def Whole : List Nat → List Nat → Prop
  | count :: counts, n :: plan => count ≤ max n 1 ∧ Whole counts plan
  | _, _ => True

def Message.frame (m : Message) : Str := m.bytes

/-! ## Calls -/

/-- What the next call moves. -/
def moved (plan : List Nat) (count available : Nat) : Nat :=
  min (max (plan.headD count) 1) (min count available)

section
variable {s : Process} {plan counts : List Nat} {count available : Nat} {msgs : List Message}

theorem moved_le (plan : List Nat) (count available : Nat) : moved plan count available ≤ count := by
  unfold moved
  omega

theorem moved_le_available (plan : List Nat) (count available : Nat) :
    moved plan count available ≤ available := by
  unfold moved
  omega

theorem headD_map_some (plan : List Nat) (count : Nat) :
    (plan.map some).headD (some count) = some (plan.headD count) := by
  cases plan <;> rfl

theorem whole_cons : Whole (count :: counts) plan ↔ count ≤ max (plan.headD count) 1 ∧ Whole counts plan.tail := by
  cases plan with
  | nil => exact iff_of_true trivial ⟨Nat.le_max_left _ _, by cases counts <;> trivial⟩
  | cons n plan => rfl

theorem moved_eq (h : count ≤ max (plan.headD count) 1) (ha : count ≤ available) :
    moved plan count available = count := by
  unfold moved
  omega

theorem le_of_moved (available : Nat) (h : count ≤ moved plan count available) : count ≤ max (plan.headD count) 1 := by
  unfold moved at h
  omega

theorem sysWrite_run (plan : List Nat) (hs : s.writes = plan.map some) (data : Str) :
    sysWrite data s = .ok (moved plan data.length data.length : Nat)
      { s with output := s.output ++ data.take (moved plan data.length data.length),
               writes := plan.tail.map some } := by
  unfold sysWrite
  rw [bind_get, bind_set, hs, headD_map_some, List.map_tail]
  rfl

theorem sysRead_run (hs : s.reads = plan.map some) (buf : Buffer) (count : Nat) :
    sysRead buf count s = .ok ((moved plan count s.input.length : Nat),
        overlay (s.input.take (moved plan count s.input.length)) buf)
      { s with input := s.input.drop (moved plan count s.input.length), reads := plan.tail.map some } := by
  unfold sysRead
  rw [bind_get, bind_set, hs, headD_map_some, List.map_tail]
  rfl

/-! ## The writer -/

/-- What of the messages gets on the channel. -/
def sent : List Message → List Nat → Str
  | [], _ => []
  | m :: msgs, plan =>
    m.header.bytes.take (moved plan sizeofHeader sizeofHeader) ++
      (m.body.take (moved plan.tail m.body.length m.body.length) ++ sent msgs plan.tail.tail)

@[simp] theorem RpcHeader.length_bytes (header : RpcHeader) : header.bytes.length = sizeofHeader := by
  simp [RpcHeader.bytes, sizeofHeader]

theorem Message.takeWhile_body (m : Message) : m.body.takeWhile (· ≠ 0) = m.body :=
  List.takeWhile_eq_self_iff.2 (all_ne_zero m.noNul)

def frameHeader (id : Word) (body : Str) : RpcHeader := ⟨CODIUS_MAGIC_BYTES, id, BitVec.ofNat 64 body.length⟩

/-- A frame with a body of any length. -/
def frameBytes (id : Word) (body : Str) : Str := (frameHeader id body).bytes ++ body

theorem writeFrame_run (plan : List Nat) (hs : s.writes = plan.map some) (id : Word) {buf body : Str}
    (hbuf : buf.takeWhile (· ≠ 0) = body) :
    writeFrame id buf s = .ok 0 { s with
      output := s.output ++ ((frameHeader id body).bytes.take (moved plan sizeofHeader sizeofHeader) ++
        body.take (moved plan.tail body.length body.length)),
      writes := plan.tail.tail.map some } := by
  have hne (n : Nat) : ((n : Nat) : Int) ≠ -1 := by omega
  have hheader := sysWrite_run plan hs (frameHeader id body).bytes
  rw [RpcHeader.length_bytes] at hheader
  have hbody := sysWrite_run plan.tail (s := { s with
    output := s.output ++ (frameHeader id body).bytes.take (moved plan sizeofHeader sizeofHeader),
    writes := plan.tail.map some }) rfl body
  have hframe : writeFrame id buf = (do
      if (← sysWrite (frameHeader id body).bytes) = -1 then return -1
      else if (← sysWrite body) = -1 then return -1
      else return 0) := by
    rw [writeFrame, hbuf]
    rfl
  rw [hframe, bind_ok hheader, if_neg (hne _), bind_ok hbody, if_neg (hne _), ← List.append_assoc]
  rfl

/-- Calls that move all their bytes write the whole frame. -/
theorem writeFrame_whole (hs : s.writes = []) (id : Word) {buf body : Str} (hbuf : buf.takeWhile (· ≠ 0) = body) :
    writeFrame id buf s = .ok 0 { s with output := s.output ++ frameBytes id body, writes := [] } := by
  have hall (count : Nat) : moved [] count count = count := moved_eq (Nat.le_max_left _ _) (Nat.le_refl _)
  have hrun := writeFrame_run [] hs id hbuf
  rw [List.tail_nil, hall, hall, List.take_length, List.take_of_length_le (Nat.le_of_eq (RpcHeader.length_bytes _))]
    at hrun
  exact hrun

theorem writeMessages_run (msgs : List Message) : ∀ {s : Process} (plan : List Nat), s.writes = plan.map some →
    ∃ t, writeMessages msgs s = .ok () t ∧ t.output = s.output ++ sent msgs plan := by
  induction msgs with
  | nil => exact fun {s} _ _ => ⟨s, rfl, (List.append_nil _).symm⟩
  | cons m msgs ih =>
    intro s plan hs
    obtain ⟨u, hrest, hsent⟩ := ih plan.tail.tail (s := { s with
      output := s.output ++ (m.header.bytes.take (moved plan sizeofHeader sizeofHeader) ++
        m.body.take (moved plan.tail m.body.length m.body.length)),
      writes := plan.tail.tail.map some }) rfl
    refine ⟨u, ?_, ?_⟩
    · rw [writeMessages, bind_ok (writeFrame_run plan hs m.id m.takeWhile_body)]
      exact hrest
    · rw [hsent, sent]
      simp only [List.append_assoc]

/-- Fewer bytes get on the channel unless every call moves all of its own. -/
theorem whole_of_length_sent (msgs : List Message) : ∀ plan : List Nat,
    (sent msgs plan).length ≤ (msgs.flatMap Message.frame).length ∧
      ((msgs.flatMap Message.frame).length ≤ (sent msgs plan).length → Whole (callCounts msgs) plan) := by
  induction msgs with
  | nil => exact fun plan => ⟨Nat.le_refl _, fun _ => by cases plan <;> trivial⟩
  | cons m msgs ih =>
    intro plan
    obtain ⟨hle, hwhole⟩ := ih plan.tail.tail
    have hheader := moved_le plan sizeofHeader sizeofHeader
    have hbody := moved_le plan.tail m.body.length m.body.length
    simp only [sent, List.flatMap_cons, Message.frame, Frame.bytes, List.length_append, List.length_take,
      RpcHeader.length_bytes]
    refine ⟨by omega, fun h => ?_⟩
    rw [callCounts, List.flatMap_cons]
    refine whole_cons.2 ⟨le_of_moved sizeofHeader (by omega),
      whole_cons.2 ⟨le_of_moved m.body.length (by omega), hwhole (by omega)⟩⟩

theorem sent_whole (msgs : List Message) : ∀ {plan : List Nat}, Whole (callCounts msgs) plan →
    sent msgs plan = msgs.flatMap Message.frame := by
  induction msgs with
  | nil => exact fun _ => rfl
  | cons m msgs ih =>
    intro plan h
    rw [callCounts, List.flatMap_cons] at h
    obtain ⟨hheader, h⟩ := whole_cons.1 h
    obtain ⟨hbody, h⟩ := whole_cons.1 h
    rw [sent, ih h, moved_eq hheader (Nat.le_refl _), moved_eq hbody (Nat.le_refl _), List.flatMap_cons,
      Message.frame, Frame.bytes, List.append_assoc, List.take_length]
    rw [List.take_of_length_le (Nat.le_of_eq m.header.length_bytes)]

/-! ## The header -/

theorem overlay_of_lt {data : Str} {i : Nat} (h : i < data.length) (buf : Buffer) :
    overlay data buf i = data[i] := by
  simp [overlay, h]

theorem overlay_of_le {data : Str} {i : Nat} (h : data.length ≤ i) (buf : Buffer) :
    overlay data buf i = buf i := by
  simp [overlay, h]

theorem wordAt_overlay {data : Str} {i : Nat} (h : i + 8 ≤ data.length) (buf : Buffer) :
    wordAt (overlay data buf) i = BitVec.ofNat 64 (ofBytes ((data.drop i).take 8)) := by
  have hbytes : (List.range 8).map (fun j => overlay data buf (i + j)) = (data.drop i).take 8 := by
    refine List.ext_getElem (by simp; omega) fun j hj hj' => ?_
    simp only [List.length_map, List.length_range] at hj
    simp only [List.getElem_map, List.getElem_range, List.getElem_take, List.getElem_drop]
    exact overlay_of_lt (by omega) buf
  rw [wordAt, hbytes]

theorem ofNat_ofBytes_toBytes (w : Word) : BitVec.ofNat 64 (ofBytes (toBytes 8 w.toNat)) = w := by
  have hlt : w.toNat < 256 ^ 8 := w.isLt
  rw [ofBytes_toBytes, Nat.mod_eq_of_lt hlt, BitVec.ofNat_toNat, BitVec.setWidth_eq]

/-- A header that has arrived is read as it was written. -/
theorem ofBuffer_bytes (header : RpcHeader) (buf : Buffer) :
    RpcHeader.ofBuffer (overlay header.bytes buf) = header := by
  have hlen : header.bytes.length = 24 := header.length_bytes
  have h0 : (header.bytes.drop 0).take 8 = toBytes 8 header.magicBytes.toNat := by
    simp [RpcHeader.bytes]
  have h8 : (header.bytes.drop 8).take 8 = toBytes 8 header.callbackId.toNat := by
    simp [RpcHeader.bytes]
  have h16 : (header.bytes.drop 16).take 8 = toBytes 8 header.size.toNat := by
    have hdrop : (toBytes 8 header.magicBytes.toNat).drop 16 = [] := List.drop_eq_nil_of_le (by simp)
    simp [RpcHeader.bytes, List.drop_append, hdrop, List.take_of_length_le]
  rw [RpcHeader.ofBuffer, wordAt_overlay (by omega), wordAt_overlay (by omega), wordAt_overlay (by omega),
    h0, h8, h16, ofNat_ofBytes_toBytes, ofNat_ofBytes_toBytes, ofNat_ofBytes_toBytes]

/-- Where the last byte of a header is missing, the size may be too large. -/
theorem size_of_short (data : Str) (h : data.length < sizeofHeader) :
    CODIUS_MAX_RESPONSE_SIZE < (RpcHeader.ofBuffer (overlay data fun _ => 255)).size.toNat := by
  have hlast : overlay data (fun _ => 255) (16 + 7) = 255 :=
    overlay_of_le (by unfold sizeofHeader at h; omega) _
  have hbytes : (List.range 8).map (fun j => overlay data (fun _ => 255) (16 + j)) =
      (List.range 7).map (fun j => overlay data (fun _ => 255) (16 + j)) ++ [255] := by
    rw [List.range_succ, List.map_append, List.map_singleton, hlast]
  have hlt := ofBytes_lt ((List.range 7).map fun j => overlay data (fun _ => 255) (16 + j))
  rw [List.length_map, List.length_range] at hlt
  have hsize : (wordAt (overlay data fun _ => 255) 16).toNat =
      ofBytes ((List.range 7).map fun j => overlay data (fun _ => 255) (16 + j)) + 256 ^ 7 * 255 := by
    rw [wordAt, hbytes, ofBytes_append, List.length_map, List.length_range, BitVec.toNat_ofNat]
    have hone : ofBytes [255] = 255 := rfl
    rw [hone]
    omega
  have hmax : CODIUS_MAX_RESPONSE_SIZE < 256 ^ 7 * 255 := by decide
  rw [RpcHeader.ofBuffer]
  dsimp only
  omega

/-! ## The body -/

theorem cString_of_noNul {body : Str} (h : 0 ∉ body) (buf : Buffer) (slack : List UInt8) :
    cString (overlay body buf) body.length slack = body ++ slack.takeWhile (· ≠ 0) := by
  have hbytes : (List.range body.length).map (overlay body buf) = body := by
    refine List.ext_getElem (by simp) fun j hj hj' => ?_
    rw [List.getElem_map, List.getElem_range]
    exact overlay_of_lt hj' buf
  rw [cString, hbytes]
  exact List.takeWhile_append_of_pos (all_ne_zero h)

/-- What is taken ends before the first element that does not satisfy the predicate. -/
theorem length_takeWhile_le_of_getElem {α : Type} {l : List α} {p : α → Bool} {k : Nat} (hk : k < l.length)
    (hp : p l[k] = false) : (l.takeWhile p).length ≤ k := by
  by_contra hlt
  have hget : (l.takeWhile p)[k] = l[k] := (List.takeWhile_prefix (l := l) p).getElem (by omega)
  have hmem : (l.takeWhile p)[k] ∈ l.takeWhile p := List.getElem_mem (by omega)
  have htrue := List.mem_takeWhile_imp hmem
  rw [hget, hp] at htrue
  cases htrue

/-- In a block of zeros, the text ends where the data does. -/
theorem length_cString_le (data : Str) (n : Nat) :
    (cString (overlay data fun _ => 0) n []).length ≤ data.length := by
  rw [cString, List.append_nil]
  by_cases hn : n ≤ data.length
  · have h := (List.takeWhile_prefix (l := (List.range n).map (overlay data fun _ => 0))
      fun b => decide (b ≠ 0)).length_le
    rw [List.length_map, List.length_range] at h
    omega
  · refine length_takeWhile_le_of_getElem (by simp; omega) ?_
    rw [List.getElem_map, List.getElem_range, overlay_of_le (Nat.le_refl _)]
    rfl

/-! ## The reader -/

/-- The process behind the first read. -/
def afterHeader (s : Process) (plan : List Nat) : Process :=
  { s with input := s.input.drop (moved plan sizeofHeader s.input.length), reads := plan.tail.map some }

/-- The header that the first read leaves. -/
def headerRead (s : Process) (plan : List Nat) : RpcHeader :=
  RpcHeader.ofBuffer (overlay (s.input.take (moved plan sizeofHeader s.input.length)) s.stack)

/-- What a frame with a header that is accepted gives. -/
theorem readFrame_some (hs : s.reads = plan.map some) (terminate : Bool)
    (hmagic : (headerRead s plan).magicBytes = CODIUS_MAGIC_BYTES)
    (hsize : (headerRead s plan).size.toNat ≤ CODIUS_MAX_RESPONSE_SIZE) :
    readFrame terminate s = .ok (some ((headerRead s plan).callbackId,
        cString (overlay ((afterHeader s plan).input.take (moved plan.tail (headerRead s plan).size.toNat
          (afterHeader s plan).input.length)) s.block) (headerRead s plan).size.toNat
          (if terminate then [] else s.slack)))
      { s with
        input := (afterHeader s plan).input.drop (moved plan.tail (headerRead s plan).size.toNat
          (afterHeader s plan).input.length),
        reads := plan.tail.tail.map some } := by
  have hne (n : Nat) : ((n : Nat) : Int) ≠ -1 := by omega
  have hnot : ¬ (((moved plan sizeofHeader s.input.length : Nat) : Int) = -1 ∨
      (headerRead s plan).magicBytes ≠ CODIUS_MAGIC_BYTES) := by
    rintro (h | h)
    · exact hne _ h
    · exact h hmagic
  unfold readFrame
  rw [bind_get, bind_ok (sysRead_run hs _ _)]
  refine (congrFun (if_neg hnot) _).trans ?_
  refine (congrFun (if_neg (Nat.not_lt.2 hsize)) _).trans ?_
  refine (bind_ok (sysRead_run (s := afterHeader s plan) rfl _ _)).trans ?_
  exact congrFun (if_neg (hne _)) _

theorem readFrame_none (hs : s.reads = plan.map some) (terminate : Bool)
    (hmagic : (headerRead s plan).magicBytes ≠ CODIUS_MAGIC_BYTES) :
    readFrame terminate s = .ok none (afterHeader s plan) := by
  unfold readFrame
  rw [bind_get, bind_ok (sysRead_run hs _ _)]
  exact congrFun (if_pos (.inr hmagic)) _

theorem readFrame_abort (hs : s.reads = plan.map some) (terminate : Bool)
    (hmagic : (headerRead s plan).magicBytes = CODIUS_MAGIC_BYTES)
    (hsize : CODIUS_MAX_RESPONSE_SIZE < (headerRead s plan).size.toNat) :
    readFrame terminate s = .error .abort (afterHeader s plan) := by
  have hnot : ¬ (((moved plan sizeofHeader s.input.length : Nat) : Int) = -1 ∨
      (headerRead s plan).magicBytes ≠ CODIUS_MAGIC_BYTES) := by
    rintro (h | h)
    · omega
    · exact h hmagic
  unfold readFrame
  rw [bind_get, bind_ok (sysRead_run hs _ _)]
  refine (congrFun (if_neg hnot) _).trans ?_
  exact congrFun (if_pos hsize) _

theorem le_max_headD {n : Nat} (h : n ≤ moved plan count available) : n ≤ max (plan.headD n) 1 := by
  unfold moved at h
  cases plan with
  | nil => exact Nat.le_max_left _ _
  | cons a plan =>
    rw [List.headD_cons] at h ⊢
    omega

/-- Memory in which nothing that is missing looks as if it were there. -/
def Garbage.hostile : Garbage := ⟨fun _ => 255, fun _ => 0, []⟩

def Garbage.fill (g : Garbage) (s : Process) : Process :=
  { s with stack := g.stack, block := g.block, slack := g.slack }

/-- A frame that is read in hostile memory has been there. -/
theorem readFrame_hostile {terminate : Bool} {t : Process} {id : Word} {body : Str}
    (hs : s.reads = plan.map some)
    (h : readFrame terminate (Garbage.hostile.fill s) = .ok (some (id, body)) t) :
    sizeofHeader + body.length + t.input.length ≤ s.input.length ∧
      sizeofHeader ≤ max (plan.headD sizeofHeader) 1 ∧
      body.length ≤ max (plan.tail.headD body.length) 1 ∧ t.reads = plan.tail.tail.map some := by
  obtain ⟨u, hu⟩ : ∃ u, u = Garbage.hostile.fill s := ⟨_, rfl⟩
  have hinput : u.input = s.input := by rw [hu]; rfl
  have hstack : u.stack = fun _ => 255 := by rw [hu]; rfl
  have hblock : u.block = fun _ => 0 := by rw [hu]; rfl
  have hslack : (if terminate then [] else u.slack) = [] := by rw [hu]; cases terminate <;> rfl
  have hreads : u.reads = plan.map some := by rw [hu]; exact hs
  rw [← hu] at h
  rw [← hinput]
  have hmagic : (headerRead u plan).magicBytes = CODIUS_MAGIC_BYTES := by
    by_contra hmagic
    rw [readFrame_none hreads terminate hmagic] at h
    cases h
  have hsize : (headerRead u plan).size.toNat ≤ CODIUS_MAX_RESPONSE_SIZE := by
    by_contra hsize
    rw [readFrame_abort hreads terminate hmagic (Nat.lt_of_not_le hsize)] at h
    cases h
  have hlen := moved_le_available plan sizeofHeader u.input.length
  have hheader : sizeofHeader ≤ moved plan sizeofHeader u.input.length := by
    by_contra hshort
    have hlarge := size_of_short (u.input.take (moved plan sizeofHeader u.input.length))
      (by rw [List.length_take]; omega)
    rw [headerRead, hstack] at hsize
    exact absurd hlarge (Nat.not_lt.2 hsize)
  rw [readFrame_some hreads terminate hmagic hsize, hblock, hslack] at h
  simp only [EStateM.Result.ok.injEq, Option.some.injEq, Prod.mk.injEq] at h
  obtain ⟨⟨_, rfl⟩, rfl⟩ := h
  have hbody := length_cString_le ((afterHeader u plan).input.take (moved plan.tail
    (headerRead u plan).size.toNat (afterHeader u plan).input.length)) (headerRead u plan).size.toNat
  have hmoved := moved_le_available plan.tail (headerRead u plan).size.toNat (afterHeader u plan).input.length
  have hafter : (afterHeader u plan).input.length =
      u.input.length - moved plan sizeofHeader u.input.length := List.length_drop
  rw [List.length_take] at hbody
  refine ⟨?_, le_max_headD hheader, le_max_headD (Nat.le_trans hbody (Nat.min_le_left _ _)), rfl⟩
  rw [List.length_drop]
  omega

/-- What `readMessages` gives, call by call. -/
theorem readMessages_cons {terminate : Bool} {g : Garbage} {gs : List Garbage}
    {Q : List (Option (Word × Str)) → Process → Prop} :
    Returns (readMessages terminate (g :: gs)) Q s ↔
      Returns (readFrame terminate) (fun m t =>
        Returns (readMessages terminate gs) (fun ms u => Q (m :: ms) u) t) (g.fill s) := by
  rw [readMessages]
  simp only [returns_bind, returns_modify, returns_pure]
  rfl

/-- Messages that are read in hostile memory have been there, and every call has moved all its bytes. -/
theorem readMessages_hostile {terminate : Bool} {gs : List Garbage} (msgs : List Message) :
    ∀ {s : Process} {plan : List Nat}, s.reads = plan.map some →
      Returns (readMessages terminate (List.replicate msgs.length Garbage.hostile ++ gs))
        (fun ms _ => ∃ rest, ms = msgs.map (fun m => some (m.id, m.body)) ++ rest) s →
      (msgs.flatMap Message.frame).length ≤ s.input.length ∧ Whole (callCounts msgs) plan := by
  induction msgs with
  | nil => exact fun {s plan} _ _ => ⟨Nat.zero_le _, by cases plan <;> trivial⟩
  | cons m msgs ih =>
    intro s plan hs h
    rw [List.length_cons, List.replicate_succ, List.cons_append, readMessages_cons] at h
    obtain ⟨m', t, hread, h⟩ := returns_iff.1 h
    obtain ⟨_, _, _, rest, hms⟩ := returns_iff.1 h
    rw [List.map_cons, List.cons_append, List.cons.injEq] at hms
    obtain ⟨rfl, _⟩ := hms
    obtain ⟨hlen, hheader, hbody, hreads⟩ := readFrame_hostile hs hread
    obtain ⟨hle, hwhole⟩ := ih hreads (h.mono fun ms _ hms => by
      obtain ⟨rest, hms⟩ := hms
      exact ⟨rest, (List.cons.inj hms).2⟩)
    rw [callCounts, List.flatMap_cons]
    refine ⟨?_, whole_cons.2 ⟨hheader, whole_cons.2 ⟨hbody, hwhole⟩⟩⟩
    rw [List.length_append, Message.frame, Frame.bytes, List.length_append, RpcHeader.length_bytes]
    omega

theorem Message.size_header (m : Message) : m.header.size.toNat = m.body.length := by
  have hmax : CODIUS_MAX_RESPONSE_SIZE < 2 ^ 64 := by decide
  have hlen := m.bounded
  exact Nat.mod_eq_of_lt (by omega)

/-- The header of a frame that is there. -/
theorem headerRead_frame (id : Word) (body : Str) {rest : Str} (hinput : s.input = frameBytes id body ++ rest)
    (hheader : sizeofHeader ≤ max (plan.headD sizeofHeader) 1) :
    headerRead s plan = frameHeader id body ∧ (afterHeader s plan).input = body ++ rest := by
  have hframe : s.input = (frameHeader id body).bytes ++ (body ++ rest) := by
    rw [hinput, frameBytes, List.append_assoc]
  have hmoved : moved plan sizeofHeader s.input.length = (frameHeader id body).bytes.length := by
    rw [RpcHeader.length_bytes]
    refine moved_eq hheader ?_
    rw [hframe, List.length_append, RpcHeader.length_bytes]
    exact Nat.le_add_right _ _
  constructor
  · rw [headerRead, hmoved, hframe, List.take_left, ofBuffer_bytes]
  · rw [afterHeader]
    dsimp only
    rw [hmoved, hframe, List.drop_left]

/-- A frame that is there is read, with what lies behind the block if nothing terminates the body. -/
theorem readFrame_frame (terminate : Bool) (plan : List Nat) {rest : Str} (m : Message) (hs : s.reads = plan.map some)
    (hinput : s.input = m.frame ++ rest) (hheader : sizeofHeader ≤ max (plan.headD sizeofHeader) 1)
    (hbody : m.body.length ≤ max (plan.tail.headD m.body.length) 1) :
    readFrame terminate s = .ok (some (m.id, m.body ++
        (if terminate then [] else s.slack).takeWhile (· ≠ 0)))
      { s with input := rest, reads := plan.tail.tail.map some } := by
  have hboth : headerRead s plan = m.header ∧ (afterHeader s plan).input = m.body ++ rest :=
    headerRead_frame m.id m.body hinput hheader
  obtain ⟨hread, hafter⟩ := hboth
  have hmovedBody : moved plan.tail m.body.length (m.body ++ rest).length = m.body.length :=
    moved_eq hbody (by rw [List.length_append]; exact Nat.le_add_right _ _)
  have hsize : (headerRead s plan).size.toNat ≤ CODIUS_MAX_RESPONSE_SIZE := by
    rw [hread, m.size_header]
    exact m.bounded
  rw [readFrame_some hs terminate (by rw [hread]; rfl) hsize, hread, hafter, m.size_header, hmovedBody,
    List.take_left, List.drop_left, cString_of_noNul m.noNul]
  rfl

/-- A body that is too long is the end of the process. -/
theorem readFrame_long (terminate : Bool) {id : Word} {body rest : Str} (hs : s.reads = [])
    (hinput : s.input = frameBytes id body ++ rest) (hlong : CODIUS_MAX_RESPONSE_SIZE < body.length)
    (hlt : body.length < 2 ^ 64) : ∃ t, readFrame terminate s = .error .abort t := by
  have hheader : headerRead s [] = frameHeader id body := (headerRead_frame id body hinput (Nat.le_max_left _ _)).1
  have hsize : (frameHeader id body).size.toNat = body.length := Nat.mod_eq_of_lt hlt
  exact ⟨_, readFrame_abort hs terminate (by rw [hheader]; rfl) (by rw [hheader, hsize]; exact hlong)⟩

/-- Where there is nothing, the header is what the stack holds. -/
theorem headerRead_nil (hinput : s.input = []) : headerRead s plan = .ofBuffer s.stack := by
  have hbuf : overlay [] s.stack = s.stack := funext fun i => overlay_of_le (Nat.zero_le i) _
  rw [headerRead, hinput, List.take_nil, hbuf]

/-- What complete frames are read as. -/
def received (terminate : Bool) (msgs : List Message) (gs : List Garbage) : List (Option (Word × Str)) :=
  List.zipWith (fun m g => some (m.id, m.body ++
    (if terminate then [] else g.slack).takeWhile (· ≠ 0))) msgs gs

/-- Frames that are there are read one after another by calls that move all their bytes. -/
theorem readMessages_frames {terminate : Bool} (last : List Garbage) (msgs : List Message) :
    ∀ {s : Process} {plan : List Nat} {gs : List Garbage},
      s.reads = plan.map some → s.input = msgs.flatMap Message.frame → Whole (callCounts msgs) plan →
      gs.length = msgs.length →
      ∃ t : Process, ∃ rest : List Nat, t.reads = rest.map some ∧ t.input = [] ∧
        ∀ Q : List (Option (Word × Str)) → Process → Prop,
          (Returns (readMessages terminate (gs ++ last)) Q s ↔
            Returns (readMessages terminate last) (fun ms u => Q (received terminate msgs gs ++ ms) u) t) := by
  induction msgs with
  | nil =>
    intro s plan gs hs hinput _ hgs
    rw [List.length_eq_zero_iff.1 hgs]
    exact ⟨s, plan, hs, hinput, fun Q => Iff.rfl⟩
  | cons m msgs ih =>
    intro s plan gs hs hinput hwhole hgs
    obtain ⟨g, gs, rfl⟩ := List.exists_cons_of_length_eq_add_one hgs
    rw [callCounts, List.flatMap_cons] at hwhole
    obtain ⟨hheader, hwhole⟩ := whole_cons.1 hwhole
    obtain ⟨hbody, hwhole⟩ := whole_cons.1 hwhole
    have hread := readFrame_frame terminate plan (s := g.fill s) m hs hinput hheader hbody
    obtain ⟨t, rest, ht, hnil, hiff⟩ := ih (s := { g.fill s with
      input := msgs.flatMap Message.frame, reads := plan.tail.tail.map some }) rfl rfl hwhole
      (Nat.succ.inj hgs)
    refine ⟨t, rest, ht, hnil, fun Q => ?_⟩
    rw [List.cons_append, readMessages_cons, returns_ok hread]
    exact hiff _

/-! ## Delivery -/

/-- The end of the stream is seen exactly if the stack does not hold the magic bytes. -/
theorem readFrame_end {terminate : Bool} (hs : s.reads = plan.map some) (hinput : s.input = []) :
    Returns (readFrame terminate) (fun m _ => m = none) s ↔
      (RpcHeader.ofBuffer s.stack).magicBytes ≠ CODIUS_MAGIC_BYTES := by
  have hread : headerRead s plan = .ofBuffer s.stack := headerRead_nil hinput
  constructor
  · intro h hmagic
    rw [← hread] at hmagic
    by_cases hsize : (headerRead s plan).size.toNat ≤ CODIUS_MAX_RESPONSE_SIZE
    · have hrun := (returns_ok (readFrame_some hs terminate hmagic hsize)).1 h
      cases hrun
    · have hrun := readFrame_abort hs terminate hmagic (Nat.lt_of_not_le hsize)
      obtain ⟨_, _, hok, _⟩ := returns_iff.1 h
      rw [hrun] at hok
      cases hok
  · intro h
    rw [← hread] at h
    exact (returns_ok (readFrame_none hs terminate h)).2 rfl

theorem length_received {terminate : Bool} {gs : List Garbage} (h : gs.length = msgs.length) :
    (received terminate msgs gs).length = msgs.length := by
  simp [received, h]

/-- The bodies are complete exactly if nothing comes behind them. -/
theorem received_eq_iff (terminate : Bool) : ∀ {msgs : List Message} {gs : List Garbage}, gs.length = msgs.length →
    (received terminate msgs gs = msgs.map (fun m => some (m.id, m.body)) ↔
      (terminate = false → ∀ g ∈ gs, g.slack.takeWhile (· ≠ 0) = []))
  | [], [], _ => by simp [received]
  | m :: msgs, g :: gs, h => by
    have ih := received_eq_iff terminate (Nat.succ.inj h : gs.length = msgs.length)
    unfold received at ih ⊢
    rw [List.zipWith_cons_cons, List.map_cons, List.cons.injEq, ih]
    cases terminate <;> simp
  | [], _ :: _, h => by simp at h
  | _ :: _, [], h => by simp at h

/-- Behind complete frames, the messages and the end of the stream. -/
theorem delivered_iff {terminate : Bool} {last : Garbage} {gs : List Garbage} {s : Process} {plan : List Nat}
    (hs : s.reads = plan.map some) (hinput : s.input = msgs.flatMap Message.frame)
    (hwhole : Whole (callCounts msgs) plan) (hgs : gs.length = msgs.length) :
    Returns (readMessages terminate (gs ++ [last]))
        (fun ms _ => ms = msgs.map (fun m => some (m.id, m.body)) ++ [none]) s ↔
      received terminate msgs gs = msgs.map (fun m => some (m.id, m.body)) ∧
        (RpcHeader.ofBuffer last.stack).magicBytes ≠ CODIUS_MAGIC_BYTES := by
  obtain ⟨t, rest, ht, hnil, hiff⟩ := readMessages_frames [last] msgs hs hinput hwhole hgs
  have hlen : (received terminate msgs gs).length = (msgs.map fun m => some (m.id, m.body)).length := by
    rw [length_received hgs, List.length_map]
  have hend : Returns (readFrame terminate) (fun m _ => m = none) (last.fill t) ↔
    (RpcHeader.ofBuffer last.stack).magicBytes ≠ CODIUS_MAGIC_BYTES := readFrame_end (s := last.fill t) ht hnil
  rw [hiff, readMessages_cons, ← hend, returns_iff, returns_iff]
  constructor
  · rintro ⟨m, u, hrun, h⟩
    have happend : received terminate msgs gs ++ [m] =
      msgs.map (fun m => some (m.id, m.body)) ++ [none] := h
    obtain ⟨heq, hm⟩ := List.append_inj happend hlen
    exact ⟨heq, m, u, hrun, (List.cons.inj hm).1⟩
  · rintro ⟨heq, m, u, hrun, rfl⟩
    have happend : received terminate msgs gs ++ [none] =
      msgs.map (fun m => some (m.id, m.body)) ++ [none] := by rw [heq]
    exact ⟨none, u, hrun, happend⟩

variable {terminate : Bool} {nul : Prop} {w r : Process} {writes reads : List Nat} {last : Garbage}

/-- What the writer sends is what the reader gets. -/
theorem delivers_run : Delivers terminate nul w r msgs writes reads last ↔
    ∀ gs : List Garbage, gs.length = msgs.length → (nul → ∀ g ∈ gs, g.slack.takeWhile (· ≠ 0) = []) →
      Returns (readMessages terminate (gs ++ [last]))
        (fun ms _ => ms = msgs.map (fun m => some (m.id, m.body)) ++ [none])
        { r with input := sent msgs writes, reads := reads.map some } := by
  obtain ⟨t, hrun, hout⟩ := writeMessages_run msgs (s := { w with
    output := [], writes := writes.map some }) writes rfl
  rw [List.nil_append] at hout
  unfold Delivers
  simp only [returns_ok hrun, hout]

theorem hostile_slack {n : Nat} {g : Garbage} (hg : g ∈ List.replicate n .hostile) :
    g.slack.takeWhile (· ≠ 0) = [] := by
  rw [List.eq_of_mem_replicate hg]
  rfl

/-- In hostile memory, whatever is not moved is missed. -/
theorem Delivers.whole (h : Delivers terminate nul w r msgs writes reads last) :
    Whole (callCounts msgs) writes ∧ Whole (callCounts msgs) reads := by
  have hhostile := delivers_run.1 h _ List.length_replicate fun _ _ => hostile_slack
  obtain ⟨hle, hreads⟩ := readMessages_hostile msgs rfl (hhostile.mono fun ms _ hms => ⟨[none], hms⟩)
  exact ⟨(whole_of_length_sent msgs writes).2 hle, hreads⟩

/-- What is sent is what is received, and then nothing, exactly if every call moves all its bytes, a
body that nothing terminates has a NUL behind it, and the last header does not hold the magic bytes. -/
theorem delivers_iff : Delivers terminate nul w r msgs writes reads last ↔
    Whole (callCounts msgs) writes ∧ Whole (callCounts msgs) reads ∧ (terminate = false → msgs ≠ [] → nul) ∧
      (RpcHeader.ofBuffer last.stack).magicBytes ≠ CODIUS_MAGIC_BYTES := by
  constructor
  · intro h
    obtain ⟨hwrites, hreads⟩ := h.whole
    have hall := delivers_run.1 h
    rw [sent_whole msgs hwrites] at hall
    refine ⟨hwrites, hreads, fun hterm hne => ?_, ?_⟩
    · -- without the NUL, the block may have a letter behind it
      by_contra hnul
      have hslack := hall (List.replicate msgs.length ⟨fun _ => 0, fun _ => 0, [65]⟩) List.length_replicate
        fun hn => absurd hn hnul
      have heq := ((delivered_iff rfl rfl hreads List.length_replicate).1 hslack).1
      have hempty := (received_eq_iff _ List.length_replicate).1 heq hterm _
        (List.mem_replicate.2 ⟨fun h0 => hne (List.length_eq_zero_iff.1 h0), rfl⟩)
      cases hempty
    · have hhostile := hall _ List.length_replicate fun _ _ => hostile_slack
      exact ((delivered_iff rfl rfl hreads List.length_replicate).1 hhostile).2
  · rintro ⟨hwrites, hreads, hnul, hmagic⟩
    refine delivers_run.2 fun gs hgs hslack => ?_
    rw [sent_whole msgs hwrites]
    refine (delivered_iff rfl rfl hreads hgs).2 ⟨(received_eq_iff _ hgs).2 fun hterm g hg => ?_, hmagic⟩
    have hne : msgs ≠ [] := by
      rintro rfl
      rw [List.length_eq_zero_iff.1 hgs] at hg
      cases hg
    exact hslack (hnul hterm hne) g hg

end

/-- A request without arguments. -/
def plainMessage : Message :=
  ⟨⟨7, str "\x7b\"api\":\"a\",\"method\":\"m\",\"arguments\":null\x7d"⟩, by decide, by decide⟩

/-- Of a body that arrives in two parts, the second is lost. -/
theorem lost_behind_short_read :
    ¬ Delivers true True (.idle .empty) (.idle .empty) [plainMessage] [] [24, 16] .hostile := by
  intro h
  obtain ⟨_, hbody, _⟩ := h.whole.2
  revert hbody
  decide

end CodiusSandbox
