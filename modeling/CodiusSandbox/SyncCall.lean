import CodiusSandbox.Framing
import CodiusSandbox.Lib.Runs
import Mathlib.Logic.Function.Basic
/-!
# Synchronous calls of several threads (`codius-util.c:171`)

`codius_sync_call` writes a request to descriptor 3 and reads a result from it, four calls in all, with
nothing to keep other threads out. `Channel` is the state between these calls: the bytes on their way in
either direction, where each thread stands in its call, and what the host has read and answered.

`answered_of_alone`: while no thread begins a call during the call of another, every result goes to
the caller it is for. `answers_swapped`: two calls at once may get each other's.
-/
namespace CodiusSandbox

open Runs LittleEndian

/-- What `codius_sync_call` and the host write: `strlen` has a value for the text. -/
structure SizedFrame extends Frame where
  fits : body.length < 2 ^ 64

/-- The header in 24 bytes. -/
def headerOf (bytes : Str) : RpcHeader := .ofBuffer (overlay bytes fun _ => 0)

/-- Where a thread stands in `codius_sync_call`. -/
inductive Phase where
  | idle
  /-- Between the writes of a request. -/
  | wroteHeader (request : SizedFrame)
  /-- Between the last write and the first read. -/
  | waiting (request : SizedFrame)
  /-- Between the reads of a result. -/
  | readHeader (request : SizedFrame) (header : RpcHeader)

structure Channel (T : Type) where
  /-- The bytes on their way to the host. -/
  toHost : Str
  /-- The bytes on their way to the threads. -/
  toChild : Str
  phase : T → Phase
  /-- The ids of the requests that the host has read and not answered. -/
  pending : List Word
  /-- The answers of the host, in order: id and text. -/
  sent : List (Word × Str)
  /-- The calls that have returned, in order: the id of the request, and the id and text of the result
  if there is one. -/
  returned : List (Word × Option (Word × Str))
  /-- The host has exited or aborted. -/
  hostDown : Bool
  /-- A thread has aborted, and the process with it. -/
  childDown : Bool

def Channel.initial (T : Type) : Channel T := ⟨[], [], fun _ => .idle, [], [], [], false, false⟩

inductive Event (T : Type) where
  | writeHeader (t : T) (request : SizedFrame)
  | writeBody (t : T)
  | readHeader (t : T)
  | readBody (t : T)
  /-- `handle_ipc_read`. -/
  | hostRead
  /-- `finishIPC` for a pending request. -/
  | hostAnswer (i : Nat) (result : SizedFrame)

section
variable {T : Type} [DecidableEq T]

def Channel.setPhase (s : Channel T) (t : T) (p : Phase) : Channel T :=
  { s with phase := Function.update s.phase t p }

/-- The first write of `codius_write_request`. -/
def stepWriteHeader (t : T) (request : SizedFrame) (s : Channel T) : Option (Channel T) :=
  match s.phase t with
  | .idle => some { s.setPhase t (.wroteHeader request) with toHost := s.toHost ++ request.header.bytes }
  | _ => none

/-- The second. -/
def stepWriteBody (t : T) (s : Channel T) : Option (Channel T) :=
  match s.phase t with
  | .wroteHeader request => some { s.setPhase t (.waiting request) with toHost := s.toHost ++ request.body }
  | _ => none

/-- The first read of `codius_read_result`. Without the magic bytes, the call returns null. -/
def stepReadHeader (t : T) (s : Channel T) : Option (Channel T) :=
  match s.phase t with
  | .waiting request =>
    if s.toChild.length < sizeofHeader then none
    else
      let header := headerOf (s.toChild.take sizeofHeader)
      let s := { s with toChild := s.toChild.drop sizeofHeader }
      if header.magicBytes ≠ CODIUS_MAGIC_BYTES then
        some { s.setPhase t .idle with returned := s.returned ++ [(request.id, none)] }
      else if header.size.toNat > CODIUS_MAX_RESPONSE_SIZE then some { s with childDown := true }
      else some (s.setPhase t (.readHeader request header))
  | _ => none

/-- The second. -/
def stepReadBody (t : T) (s : Channel T) : Option (Channel T) :=
  match s.phase t with
  | .readHeader request header =>
    let size := header.size.toNat
    if s.toChild.length < size then none
    else some { s.setPhase t .idle with
      toChild := s.toChild.drop size,
      returned := s.returned ++ [(request.id, some (header.callbackId, s.toChild.take size))] }
  | _ => none

/-- `codius_read_request`, which no other reader of the host interrupts. -/
def stepHostRead (s : Channel T) : Option (Channel T) :=
  if s.toHost.length < sizeofHeader then none
  else
    let header := headerOf (s.toHost.take sizeofHeader)
    let body := s.toHost.drop sizeofHeader
    if header.magicBytes ≠ CODIUS_MAGIC_BYTES ∨ header.size.toNat > CODIUS_MAX_RESPONSE_SIZE then
      some { s with hostDown := true }
    else if body.length < header.size.toNat then none
    else some { s with
      toHost := body.drop header.size.toNat,
      pending := s.pending ++ [header.callbackId] }

/-- `codius_send_reply`, to a request of the host's choice. -/
def stepHostAnswer (i : Nat) (result : SizedFrame) (s : Channel T) : Option (Channel T) :=
  match s.pending[i]? with
  | some id =>
    if result.id = id then
      some { s with
        toChild := s.toChild ++ result.bytes,
        pending := s.pending.eraseIdx i,
        sent := s.sent ++ [(id, result.body)] }
    else none
  | none => none

def Event.byHost : Event T → Bool
  | .hostRead => true
  | .hostAnswer _ _ => true
  | _ => false

def Event.act : Event T → Channel T → Option (Channel T)
  | .writeHeader t request => stepWriteHeader t request
  | .writeBody t => stepWriteBody t
  | .readHeader t => stepReadHeader t
  | .readBody t => stepReadBody t
  | .hostRead => stepHostRead
  | .hostAnswer i result => stepHostAnswer i result

/-- Nothing is done by a side that is down. -/
def stepCall (e : Event T) (s : Channel T) : Option (Channel T) :=
  if if e.byHost then s.hostDown else s.childDown then none else e.act s

/-! ## Calls one at a time -/

def Phase.request? : Phase → Option SizedFrame
  | .idle => none
  | .wroteHeader request => some request
  | .waiting request => some request
  | .readHeader request _ => some request

/-- Every result is that of its caller's request, and the answers are those that have been returned,
each once, and behind them some that are on their way to a caller that has not returned. -/
structure Answered (s : Channel T) : Prop where
  own : ∀ call ∈ s.returned, ∀ result, call.2 = some result → result.1 = call.1
  once : ∃ rest, s.sent = s.returned.filterMap (·.2) ++ rest ∧
    ∀ answer ∈ rest, ∃ t request, (s.phase t).request? = some request ∧ request.id = answer.1

/-- No thread begins a call during that of another, and the host answers with texts that are accepted. -/
def Alone (e : Event T) (s : Channel T) : Prop :=
  match e with
  | .writeHeader _ _ => ∀ t, s.phase t = .idle
  | .hostAnswer _ result => result.body.length ≤ CODIUS_MAX_RESPONSE_SIZE
  | _ => True

/-! ### The stages of a call that is alone -/

/-- What the calls have returned. -/
def Channel.delivered (s : Channel T) : List (Word × Str) := s.returned.filterMap (·.2)

/-- Only `t` is in a call, and stands at `p`. -/
def Channel.Solo (s : Channel T) (t : T) (p : Phase) : Prop := s.phase = Function.update (fun _ => .idle) t p

/-- The request is written. Of one without a text, the header is all there is. -/
def Phase.Wrote (request : SizedFrame) (p : Phase) : Prop :=
  p = .waiting request ∨ p = .wroteHeader request ∧ request.body = []

inductive Stage (s : Channel T) : Prop
  | quiet (phase : s.phase = fun _ => .idle) (toHost : s.toHost = []) (toChild : s.toChild = [])
      (pending : s.pending = []) (sent : s.sent = s.delivered)
  | begun (t : T) (request : SizedFrame) (phase : s.Solo t (.wroteHeader request))
      (toHost : s.toHost = request.header.bytes) (toChild : s.toChild = [])
      (pending : s.pending = []) (sent : s.sent = s.delivered)
  | asked (t : T) (request : SizedFrame) (phase : s.Solo t (.waiting request))
      (toHost : s.toHost = request.bytes) (toChild : s.toChild = [])
      (pending : s.pending = []) (sent : s.sent = s.delivered)
  | taken (t : T) (request : SizedFrame) (p : Phase) (wrote : p.Wrote request) (phase : s.Solo t p)
      (toHost : s.toHost = []) (toChild : s.toChild = [])
      (pending : s.pending = [request.id]) (sent : s.sent = s.delivered)
  | answered (t : T) (request result : SizedFrame) (id : result.id = request.id)
      (bounded : result.body.length ≤ CODIUS_MAX_RESPONSE_SIZE) (p : Phase) (wrote : p.Wrote request)
      (phase : s.Solo t p)
      (toHost : s.toHost = []) (toChild : s.toChild = result.bytes)
      (pending : s.pending = []) (sent : s.sent = s.delivered ++ [(result.id, result.body)])
  | reading (t : T) (request result : SizedFrame) (id : result.id = request.id)
      (phase : s.Solo t (.readHeader request result.header))
      (toHost : s.toHost = []) (toChild : s.toChild = result.body)
      (pending : s.pending = []) (sent : s.sent = s.delivered ++ [(result.id, result.body)])

variable {s s' : Channel T} {t u : T} {p q : Phase}

theorem Channel.Solo.at (h : s.Solo t p) (hu : s.phase u = q) (hq : q ≠ .idle) : u = t ∧ q = p := by
  unfold Channel.Solo at h
  rw [h] at hu
  by_cases hut : u = t
  · subst hut
    rw [Function.update_self] at hu
    exact ⟨rfl, hu.symm⟩
  · rw [Function.update_of_ne hut] at hu
    exact absurd hu.symm hq

theorem Channel.Solo.here (h : s.Solo t p) : s.phase t = p := by
  unfold Channel.Solo at h
  rw [h, Function.update_self]

theorem Channel.Solo.set (h : s.Solo t p) (q : Phase) : (s.setPhase t q).Solo t q := by
  unfold Channel.Solo at h ⊢
  rw [Channel.setPhase, h]
  exact Function.update_idem _ _ _

theorem Channel.Solo.setIdle (h : s.Solo t p) : (s.setPhase t .idle).phase = fun _ => .idle := by
  have hset : (s.setPhase t .idle).phase = _ := h.set .idle
  rw [hset]
  exact Function.update_eq_self t fun _ => Phase.idle

theorem SizedFrame.headerOf_bytes (f : SizedFrame) : headerOf (f.bytes.take sizeofHeader) = f.header := by
  rw [Frame.bytes, List.take_left' f.header.length_bytes]
  exact ofBuffer_bytes _ _

theorem SizedFrame.drop_bytes (f : SizedFrame) : f.bytes.drop sizeofHeader = f.body :=
  List.drop_left' f.header.length_bytes

theorem SizedFrame.length_bytes (f : SizedFrame) : f.bytes.length = sizeofHeader + f.body.length := by
  rw [Frame.bytes, List.length_append, f.header.length_bytes]

theorem SizedFrame.size_header (f : SizedFrame) : f.header.size.toNat = f.body.length := Nat.mod_eq_of_lt f.fits

theorem Channel.Solo.not_idle (h : s.Solo t p) (hp : p ≠ .idle) : ¬ ∀ t, s.phase t = .idle := by
  intro hidle
  exact hp (h.here.symm.trans (hidle t))

theorem Phase.Wrote.ne_idle {request : SizedFrame} (h : p.Wrote request) : p ≠ .idle := by
  rcases h with rfl | ⟨rfl, _⟩
  · nofun
  · nofun

/-- The frame in front is read as what it is. -/
theorem SizedFrame.magic (f : SizedFrame) : ¬ f.header.magicBytes ≠ CODIUS_MAGIC_BYTES := not_not.2 rfl

/-! ### What an event makes of the stage -/

theorem Stage.writeHeader {request : SizedFrame} (h : Stage s) (hidle : ∀ t, s.phase t = .idle)
    (hs : stepWriteHeader t request s = some s') : Stage s' := by
  rw [stepWriteHeader, hidle t] at hs
  cases hs
  cases h with
  | quiet phase toHost toChild pending sent =>
    refine .begun t request ?_ ?_ toChild pending sent
    · show Function.update s.phase t _ = _
      rw [phase]
    · show s.toHost ++ _ = _
      rw [toHost, List.nil_append]
  | begun _ _ phase => exact absurd hidle (phase.not_idle nofun)
  | asked _ _ phase => exact absurd hidle (phase.not_idle nofun)
  | taken _ _ _ wrote phase => exact absurd hidle (phase.not_idle wrote.ne_idle)
  | answered _ _ _ _ _ _ wrote phase => exact absurd hidle (phase.not_idle wrote.ne_idle)
  | reading _ _ _ _ phase => exact absurd hidle (phase.not_idle nofun)

theorem Stage.writeBody (h : Stage s) (hs : stepWriteBody t s = some s') : Stage s' := by
  unfold stepWriteBody at hs
  split at hs
  · rename_i request hphase
    cases hs
    cases h with
    | quiet phase =>
      rw [phase] at hphase
      cases hphase
    | begun u req phase toHost toChild pending sent =>
      obtain ⟨rfl, hp⟩ := phase.at hphase nofun
      cases hp
      refine .asked t request (phase.set _) ?_ toChild pending sent
      show s.toHost ++ _ = _
      rw [toHost]
      rfl
    | asked _ _ phase => cases (phase.at hphase nofun).2
    | taken u req p wrote phase toHost toChild pending sent =>
      obtain ⟨rfl, rfl⟩ := phase.at hphase nofun
      obtain hw | ⟨hw, hbody⟩ := wrote
      · cases hw
      · cases hw
        refine .taken t request _ (.inl rfl) (phase.set _) ?_ toChild pending sent
        show s.toHost ++ _ = _
        rw [toHost, hbody, List.nil_append]
    | answered u req result id bounded p wrote phase toHost toChild pending sent =>
      obtain ⟨rfl, rfl⟩ := phase.at hphase nofun
      obtain hw | ⟨hw, hbody⟩ := wrote
      · cases hw
      · cases hw
        refine .answered t request result id bounded _ (.inl rfl) (phase.set _) ?_ toChild pending sent
        show s.toHost ++ _ = _
        rw [toHost, hbody, List.nil_append]
    | reading _ _ _ _ phase => cases (phase.at hphase nofun).2
  · cases hs

theorem Stage.readHeader (h : Stage s) (hs : stepReadHeader t s = some s') : Stage s' := by
  unfold stepReadHeader at hs
  split at hs
  · rename_i request hphase
    have hempty (hnil : s.toChild = []) : Stage s' := by
      rw [hnil, if_pos (by decide)] at hs
      cases hs
    cases h with
    | quiet _ _ toChild => exact hempty toChild
    | begun _ _ _ _ toChild => exact hempty toChild
    | asked _ _ _ _ toChild => exact hempty toChild
    | taken _ _ _ _ _ _ toChild => exact hempty toChild
    | answered u req result id bounded p wrote phase toHost toChild pending sent =>
      obtain ⟨rfl, rfl⟩ := phase.at hphase nofun
      obtain hw | ⟨hw, _⟩ := wrote
      · cases hw
        have hlen : ¬ result.bytes.length < sizeofHeader := by
          rw [result.length_bytes]
          omega
        have hsize : ¬ result.header.size.toNat > CODIUS_MAX_RESPONSE_SIZE := by
          rw [result.size_header]
          omega
        rw [toChild, if_neg hlen] at hs
        dsimp only at hs
        rw [result.headerOf_bytes, if_neg result.magic, if_neg hsize, result.drop_bytes] at hs
        cases hs
        have hsolo : ({ s with toChild := result.body } : Channel T).Solo t (.waiting request) := phase
        exact .reading t request result id (hsolo.set _) toHost rfl pending sent
      · cases hw
    | reading _ _ _ _ phase => cases (phase.at hphase nofun).2
  · cases hs

theorem Stage.readBody (h : Stage s) (hs : stepReadBody t s = some s') : Stage s' := by
  unfold stepReadBody at hs
  split at hs
  · rename_i request header hphase
    have hwrote (req : SizedFrame) (hw : (Phase.readHeader request header).Wrote req) : Stage s' := by
      obtain hw | ⟨hw, _⟩ := hw
      · cases hw
      · cases hw
    cases h with
    | quiet phase =>
      rw [phase] at hphase
      cases hphase
    | begun _ _ phase => cases (phase.at hphase nofun).2
    | asked _ _ phase => cases (phase.at hphase nofun).2
    | taken _ req _ wrote phase =>
      obtain ⟨_, rfl⟩ := phase.at hphase nofun
      exact hwrote req wrote
    | answered _ req _ _ _ _ wrote phase =>
      obtain ⟨_, rfl⟩ := phase.at hphase nofun
      exact hwrote req wrote
    | reading u req result id phase toHost toChild pending sent =>
      obtain ⟨rfl, hp⟩ := phase.at hphase nofun
      cases hp
      dsimp only at hs
      rw [result.size_header, toChild, if_neg (Nat.lt_irrefl _)] at hs
      cases hs
      refine .quiet phase.setIdle toHost ?_ pending ?_
      · exact List.drop_length
      · show s.sent = (s.returned ++ _).filterMap _
        rw [sent, List.filterMap_append, List.take_length]
        rfl
  · cases hs

omit [DecidableEq T] in
/-- What the host does with a header that is there, and what is there behind it. -/
theorem stepHostRead_frame {request : SizedFrame} {rest : Str} (htoHost : s.toHost = request.header.bytes ++ rest)
    (hs : stepHostRead s = some s') :
    s' = { s with hostDown := true } ∨ request.body.length ≤ rest.length ∧
      s' = { s with toHost := rest.drop request.body.length, pending := s.pending ++ [request.id] } := by
  have htake : (request.header.bytes ++ rest).take sizeofHeader = request.header.bytes :=
    List.take_left' request.header.length_bytes
  have hdrop : (request.header.bytes ++ rest).drop sizeofHeader = rest :=
    List.drop_left' request.header.length_bytes
  have hheader : headerOf request.header.bytes = request.header := ofBuffer_bytes _ _
  have hlen : ¬ (request.header.bytes ++ rest).length < sizeofHeader := by
    rw [List.length_append, request.header.length_bytes]
    omega
  unfold stepHostRead at hs
  rw [htoHost, if_neg hlen] at hs
  dsimp only at hs
  rw [htake, hdrop, hheader, request.size_header] at hs
  by_cases hdown : request.header.magicBytes ≠ CODIUS_MAGIC_BYTES ∨
      request.body.length > CODIUS_MAX_RESPONSE_SIZE
  · rw [if_pos hdown] at hs
    cases hs
    refine .inl ?_
    rw [htoHost]
  · rw [if_neg hdown] at hs
    by_cases hshort : rest.length < request.body.length
    · rw [if_pos hshort] at hs
      cases hs
    · rw [if_neg hshort] at hs
      cases hs
      exact .inr ⟨Nat.le_of_not_lt hshort, rfl⟩

theorem Stage.hostRead (h : Stage s) (hs : stepHostRead s = some s') : Stage s' := by
  have hempty (hnil : s.toHost = []) : Stage s' := by
    rw [stepHostRead, hnil, if_pos (by decide)] at hs
    cases hs
  cases h with
  | quiet _ toHost => exact hempty toHost
  | begun u req phase toHost toChild pending sent =>
    obtain rfl | ⟨hle, rfl⟩ := stepHostRead_frame (toHost.trans (List.append_nil _).symm) hs
    · exact .begun u req phase toHost toChild pending sent
    · have hbody : req.body = [] := List.length_eq_zero_iff.1 (Nat.le_zero.1 hle)
      refine .taken u req _ (.inr ⟨rfl, hbody⟩) phase List.drop_nil toChild ?_ sent
      show s.pending ++ _ = _
      rw [pending, List.nil_append]
  | asked u req phase toHost toChild pending sent =>
    obtain rfl | ⟨_, rfl⟩ := stepHostRead_frame toHost hs
    · exact .asked u req phase toHost toChild pending sent
    · refine .taken u req _ (.inl rfl) phase List.drop_length toChild ?_ sent
      show s.pending ++ _ = _
      rw [pending, List.nil_append]
  | taken _ _ _ _ _ toHost => exact hempty toHost
  | answered _ _ _ _ _ _ _ _ toHost => exact hempty toHost
  | reading _ _ _ _ _ toHost => exact hempty toHost

theorem Stage.hostAnswer {i : Nat} {result : SizedFrame} (h : Stage s)
    (hbounded : result.body.length ≤ CODIUS_MAX_RESPONSE_SIZE)
    (hs : stepHostAnswer i result s = some s') : Stage s' := by
  unfold stepHostAnswer at hs
  have hempty (hnil : s.pending = []) : Stage s' := by
    rw [hnil] at hs
    cases hs
  cases h with
  | quiet _ _ _ pending => exact hempty pending
  | begun _ _ _ _ _ pending => exact hempty pending
  | asked _ _ _ _ _ pending => exact hempty pending
  | taken u req p wrote phase toHost toChild pending sent =>
    rw [pending] at hs
    cases i with
    | succ i => cases hs
    | zero =>
      dsimp only [List.getElem?_cons_zero] at hs
      by_cases hid : result.id = req.id
      · rw [if_pos hid] at hs
        cases hs
        refine .answered u req result hid hbounded p wrote phase toHost ?_ rfl ?_
        · show s.toChild ++ _ = _
          rw [toChild, List.nil_append]
        · show s.sent ++ _ = s.delivered ++ _
          rw [sent, hid]
      · rw [if_neg hid] at hs
        cases hs
  | answered _ _ _ _ _ _ _ _ _ _ pending => exact hempty pending
  | reading _ _ _ _ _ _ _ pending => exact hempty pending

/-! ### Runs -/

def Channel.Owned (s : Channel T) : Prop :=
  ∀ call ∈ s.returned, ∀ result, call.2 = some result → result.1 = call.1

omit [DecidableEq T] in
theorem Channel.Owned.append (h : s.Owned) {call : Word × Option (Word × Str)}
    (hcall : ∀ result, call.2 = some result → result.1 = call.1) (hs : s'.returned = s.returned ++ [call]) :
    s'.Owned := by
  intro c hc
  rw [hs, List.mem_append, List.mem_singleton] at hc
  rcases hc with hc | rfl
  · exact h c hc
  · exact hcall

/-- The result that a call is reading is for it. -/
theorem Stage.callbackId_eq {request : SizedFrame} {header : RpcHeader} (h : Stage s)
    (hphase : s.phase t = .readHeader request header) : header.callbackId = request.id := by
  have hwrote (req : SizedFrame) : ¬ (Phase.readHeader request header).Wrote req := by
    rintro (hw | ⟨hw, _⟩)
    · cases hw
    · cases hw
  cases h with
  | quiet phase =>
    rw [phase] at hphase
    cases hphase
  | begun _ _ phase => cases (phase.at hphase nofun).2
  | asked _ _ phase => cases (phase.at hphase nofun).2
  | taken _ req _ wrote phase =>
    obtain ⟨_, rfl⟩ := phase.at hphase nofun
    exact absurd wrote (hwrote req)
  | answered _ req _ _ _ _ wrote phase =>
    obtain ⟨_, rfl⟩ := phase.at hphase nofun
    exact absurd wrote (hwrote req)
  | reading _ req result id phase =>
    cases (phase.at hphase nofun).2
    exact id

theorem Channel.Owned.readBody (ho : s.Owned) (h : Stage s) (hs : stepReadBody t s = some s') : s'.Owned := by
  unfold stepReadBody at hs
  split at hs
  · rename_i request header hphase
    dsimp only at hs
    split at hs
    · cases hs
    · cases hs
      refine ho.append ?_ rfl
      rintro result ⟨⟩
      exact h.callbackId_eq hphase
  · cases hs

theorem Channel.Owned.readHeader (ho : s.Owned) (hs : stepReadHeader t s = some s') : s'.Owned := by
  unfold stepReadHeader at hs
  split at hs
  · split at hs
    · cases hs
    · dsimp only at hs
      split at hs
      · cases hs
        refine ho.append ?_ rfl
        rintro result ⟨⟩
      · split at hs <;> cases hs <;> exact ho
  · cases hs

/-- The other events return nothing. -/
theorem returned_writeHeader {request : SizedFrame} (hs : stepWriteHeader t request s = some s') :
    s'.returned = s.returned := by
  unfold stepWriteHeader at hs
  split at hs <;> cases hs
  rfl

theorem returned_writeBody (hs : stepWriteBody t s = some s') : s'.returned = s.returned := by
  unfold stepWriteBody at hs
  split at hs <;> cases hs
  rfl

omit [DecidableEq T] in
theorem returned_hostRead (hs : stepHostRead s = some s') : s'.returned = s.returned := by
  unfold stepHostRead at hs
  by_cases hlen : s.toHost.length < sizeofHeader
  · rw [if_pos hlen] at hs
    cases hs
  · rw [if_neg hlen] at hs
    dsimp only at hs
    obtain ⟨header, hheader⟩ : ∃ h, h = headerOf (s.toHost.take sizeofHeader) := ⟨_, rfl⟩
    rw [← hheader] at hs
    by_cases hdown : header.magicBytes ≠ CODIUS_MAGIC_BYTES ∨ header.size.toNat > CODIUS_MAX_RESPONSE_SIZE
    · rw [if_pos hdown] at hs
      cases hs
      rfl
    · rw [if_neg hdown] at hs
      split at hs <;> cases hs
      rfl

omit [DecidableEq T] in
theorem returned_hostAnswer {i : Nat} {result : SizedFrame} (hs : stepHostAnswer i result s = some s') :
    s'.returned = s.returned := by
  unfold stepHostAnswer at hs
  split at hs
  · split at hs <;> cases hs
    rfl
  · cases hs

omit [DecidableEq T] in
theorem Channel.Owned.of_returned (ho : s.Owned) (h : s'.returned = s.returned) : s'.Owned := by
  unfold Channel.Owned
  rw [h]
  exact ho

/-- One event of a call that is alone. -/
theorem stage_act {e : Event T} (h : Stage s ∧ s.Owned) (hc : Alone e s) (hs : e.act s = some s') :
    Stage s' ∧ s'.Owned := by
  obtain ⟨h, ho⟩ := h
  cases e with
  | writeHeader t request => exact ⟨h.writeHeader hc hs, ho.of_returned (returned_writeHeader hs)⟩
  | writeBody t => exact ⟨h.writeBody hs, ho.of_returned (returned_writeBody hs)⟩
  | readHeader t => exact ⟨h.readHeader hs, ho.readHeader hs⟩
  | readBody t => exact ⟨h.readBody hs, ho.readBody h hs⟩
  | hostRead => exact ⟨h.hostRead hs, ho.of_returned (returned_hostRead hs)⟩
  | hostAnswer i result => exact ⟨h.hostAnswer hc hs, ho.of_returned (returned_hostAnswer hs)⟩

theorem Phase.Wrote.request? {request : SizedFrame} (h : p.Wrote request) : p.request? = some request := by
  rcases h with rfl | ⟨rfl, _⟩
  · rfl
  · rfl

/-- The answer on its way is for the caller. -/
theorem Stage.answered? (h : Stage s) (ho : s.Owned) : Answered s := by
  have hnone (sent : s.sent = s.delivered) : Answered s := by
    refine ⟨ho, [], ?_, nofun⟩
    rw [List.append_nil]
    exact sent
  have hone (t : T) (request result : SizedFrame) (id : result.id = request.id) (p : Phase)
      (hp : p.request? = some request) (phase : s.Solo t p)
      (sent : s.sent = s.delivered ++ [(result.id, result.body)]) : Answered s := by
    refine ⟨ho, [(result.id, result.body)], sent, fun answer hanswer => ?_⟩
    rw [List.mem_singleton.1 hanswer]
    refine ⟨t, request, ?_, id.symm⟩
    rw [show s.phase t = p from phase.here]
    exact hp
  cases h with
  | quiet _ _ _ _ sent => exact hnone sent
  | begun _ _ _ _ _ _ sent => exact hnone sent
  | asked _ _ _ _ _ _ sent => exact hnone sent
  | taken _ _ _ _ _ _ _ _ sent => exact hnone sent
  | answered t req result id _ p wrote phase _ _ _ sent => exact hone t req result id p wrote.request? phase sent
  | reading t req result id phase _ _ _ sent => exact hone t req result id _ rfl phase sent

theorem act_of_stepCall {e : Event T} (hs : stepCall e s = some s') : e.act s = some s' := by
  unfold stepCall at hs
  by_cases hdown : (if e.byHost then s.hostDown else s.childDown) = true
  · rw [if_pos hdown] at hs
    cases hs
  · rwa [if_neg hdown] at hs

/-- In a run in which no call begins during another, every result is its caller's. -/
theorem answered_of_alone (h : Run stepCall Alone (.initial T) s) : Answered s := by
  have hstart : Stage (Channel.initial T) ∧ (Channel.initial T).Owned := ⟨.quiet rfl rfl rfl rfl rfl, nofun⟩
  have hinv : Stage s ∧ s.Owned :=
    h.invariant (I := fun s => Stage s ∧ s.Owned) hstart fun _ _ _ hi hc hs =>
      stage_act hi hc (act_of_stepCall hs)
  exact hinv.1.answered? hinv.2

end

theorem fits_object : (str "\x7b\x7d").length < 2 ^ 64 := by decide
theorem fits_null : (str "null").length < 2 ^ 64 := by decide
theorem null_accepted : (str "null").length ≤ CODIUS_MAX_RESPONSE_SIZE := by decide

def objectFrame (id : Word) : SizedFrame := ⟨⟨id, str "\x7b\x7d"⟩, fits_object⟩
def nullFrame (id : Word) : SizedFrame := ⟨⟨id, str "null"⟩, fits_null⟩

/-- One thread calls and is answered. -/
def oneCall : List (Event Bool) :=
  [.writeHeader false (objectFrame 1), .writeBody false, .hostRead, .hostAnswer 0 (nullFrame 1),
    .readHeader false, .readBody false]

theorem answered_oneCall : ∃ s, after stepCall oneCall (.initial Bool) = some s ∧ Answered s := by
  obtain ⟨s, hs⟩ := Option.isSome_iff_exists.1 (show (after stepCall oneCall (.initial Bool)).isSome by decide)
  have hmeets : Meets stepCall Alone oneCall (.initial Bool) :=
    ⟨fun _ => rfl, fun _ _ => ⟨trivial, fun _ _ => ⟨trivial, fun _ _ => ⟨null_accepted, fun _ _ =>
      ⟨trivial, fun _ _ => ⟨trivial, fun _ _ => trivial⟩⟩⟩⟩⟩⟩
  exact ⟨s, hs, answered_of_alone (.of_after .start hmeets hs)⟩

/-- Two threads call; the host answers the second call first; the first thread reads first. -/
def swappedCalls : List (Event Bool) :=
  [.writeHeader false (objectFrame 1), .writeBody false, .writeHeader true (objectFrame 2), .writeBody true,
    .hostRead, .hostRead, .hostAnswer 1 (nullFrame 2), .hostAnswer 0 (nullFrame 1),
    .readHeader false, .readBody false, .readHeader true, .readBody true]

theorem answers_swapped : ∃ s, after stepCall swappedCalls (.initial Bool) = some s ∧ ¬ Answered s := by
  have hreturned : (after stepCall swappedCalls (.initial Bool)).map Channel.returned =
    some [(1, some (2, str "null")), (2, some (1, str "null"))] := by decide
  rw [Option.map_eq_some_iff] at hreturned
  obtain ⟨s, hs, hreturned⟩ := hreturned
  refine ⟨s, hs, fun h => ?_⟩
  have hmem : (1, some (2, str "null")) ∈ s.returned := by
    rw [hreturned]
    exact List.mem_cons_self
  have hid := h.own _ hmem _ rfl
  cases hid

end CodiusSandbox
