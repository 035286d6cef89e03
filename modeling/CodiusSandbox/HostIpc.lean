import CodiusSandbox.RoundTrip
/-!
# Requests at the host (`sandbox.cpp:595`, `sandbox-node-module.cpp:135-192`)

| here | there |
| --- | --- |
| `fromJsonNode`  | `fromJsonNode` up to `JSON.parse`, which gets the text |
| `handleIPC`     | `NodeSandbox::handleIPC`; the result is what `onIPC` is called with |
| `handleIpcRead` | `handle_ipc_read`, on the bytes that the child has put on the channel |

No input gets through (`never_tolerated`): whatever is not a well-formed request ends the host in one of
the ways of `hostFault`, and a well-formed one is encoded from nodes that are gone or were never there.
-/
namespace CodiusSandbox

open TreeHeap Wp

/-- What `onIPC` is called with. -/
structure Delivery where
  apiName : Str
  methodName : Str
  requestArgs : Str

def fromJsonNode (codec : JsonCodec) (node : Option Ptr) : HeapM Str := jsonEncode codec node

def handleIPC (codec : JsonCodec) (request : CodiusRequest) : ProcessM Delivery := do
  let requestArgs ← onHeap (fromJsonNode codec request.data)
  return ⟨request.apiName, request.methodName, requestArgs⟩

/-- `handle_ipc_read`. `error (EXIT_FAILURE, …)` does not return. -/
def handleIpcRead (codec : JsonCodec) (fd : Int) : ProcessM Delivery := do
  match ← codiusReadRequest codec fd with
  | none => throw .exit
  | some request => handleIPC codec request

/-- The names and arguments of the message on the channel. -/
def Carries (codec : JsonCodec) (s : Process) (api method : Str) (args : Json) : Prop :=
  ∃ id buf t, readFrame true s = .ok (some (id, buf)) t ∧
    requestFields codec buf = .ok (api, method, args)

/-- The host goes on, having delivered the message. -/
def IpcTolerated (codec : JsonCodec) (fd : Int) (s : Process) : Prop :=
  Returns (handleIpcRead codec fd)
    (fun d _ => ∃ args, Carries codec s d.apiName d.methodName args) s

/-- How a request with the arguments `args` ends the host. -/
def dataFault : Json → Fault
  | .null => .nullDeref
  | _ => .useAfterFree

/-- How the bytes on the channel end the host. -/
def hostFault (codec : JsonCodec) (s : Process) : Fault :=
  match readFrame true s with
  | .error e _ => e
  | .ok none _ => .exit
  | .ok (some (_, buf)) _ =>
    match requestFields codec buf with
    | .error e => e
    | .ok (_, _, args) => dataFault args

section
variable {codec : JsonCodec} {fd : Int} {s : Process} {request : CodiusRequest} {args : Json}

/-! ## Reading a frame -/

theorem preserves_sysRead (buf : Buffer) (count : Nat) : Preserves Process.heap (sysRead buf count) := by
  intro s
  unfold sysRead
  simp only [wp_bind, wp_get, wp_set]
  split <;> rfl

/-- Reading a frame touches no JSON node. -/
theorem preserves_readFrame (terminate : Bool) : Preserves Process.heap (readFrame terminate) := by
  unfold readFrame
  refine .bind .get fun s => .bind (preserves_sysRead _ _) fun r => ?_
  refine Preserves.ite ?_ (Preserves.ite ?_ ?_)
  · exact .pure _
  · exact .throw _
  · refine .bind .get fun s => .bind (preserves_sysRead _ _) fun r => ?_
    exact .ite (.pure _) (.pure _)

theorem sysRead_returns (buf : Buffer) (count : Nat) (s : Process) :
    wp (sysRead buf count) (fun _ _ => True) (fun _ _ => False) s := by
  unfold sysRead
  simp only [wp_bind, wp_get, wp_set]
  split <;> trivial

/-- All that can go wrong in a frame is its size. -/
theorem readFrame_throws (terminate : Bool) (s : Process) :
    wp (readFrame terminate) (fun _ _ => True) (fun e _ => e = .abort) s := by
  unfold readFrame
  simp only [wp_bind, wp_get]
  refine wp_mono (fun r t _ => ?_) (fun _ _ h => h.elim) (sysRead_returns _ _ _)
  rw [wp_ite, wp_ite]
  refine ⟨fun _ => trivial, fun _ => ⟨fun _ => rfl, fun _ => ?_⟩⟩
  simp only [wp_bind, wp_get]
  refine wp_mono (fun r t _ => ?_) (fun _ _ h => h.elim) (sysRead_returns _ _ _)
  rw [wp_ite]
  exact ⟨fun _ => trivial, fun _ => trivial⟩

/-! ## Every message ends the host -/

theorem requestFields_error {buf : Str} {e : Fault} (h : requestFields codec buf = .error e) :
    e ≠ .useAfterFree := by
  have hstring (j : Json) (name : Str) (e : Fault) (h : j.memberString name = .error e) :
      e ≠ .useAfterFree := by
    unfold Json.memberString at h
    split at h <;> cases h <;> decide
  unfold requestFields at h
  split at h
  · cases h
    decide
  · rename_i j _
    cases hapi : j.memberString (str "api") with
    | error e' =>
      rw [hapi] at h
      cases h
      exact hstring j _ _ hapi
    | ok api =>
      rw [hapi] at h
      cases hmethod : j.memberString (str "method") with
      | error e' =>
        rw [hmethod] at h
        cases h
        exact hstring j _ _ hmethod
      | ok method =>
        rw [hmethod] at h
        simp only [bind, Except.bind] at h
        cases hargs : j.member (str "arguments") with
        | none =>
          rw [hargs] at h
          cases h
          decide
        | some args =>
          rw [hargs] at h
          cases h

/-- Encoding what is null or freed. -/
theorem handleIPC_run (hd : DataFreed args request.data s.heap) (hnext : 0 < s.heap.next) :
    ∃ t, handleIPC codec request s = .error (dataFault args) t := by
  have hfreed (p : Nat) (hp : request.data = some p) (hgone : s.heap.nodes p = none) :
      ∃ t, handleIPC codec request s = .error .useAfterFree t := by
    obtain ⟨fuel, hfuel⟩ : ∃ n, s.heap.next = n + 1 := ⟨s.heap.next - 1, by omega⟩
    have hread : readValue (fuel + 1) p s.heap = .error .useAfterFree s.heap := by
      rw [readValue, bind_error (deref_freed hgone)]
    have hencode : fromJsonNode codec request.data s.heap = .error .useAfterFree s.heap := by
      rw [fromJsonNode, hp, jsonEncode, bind_get, hfuel, bind_error hread]
    exact ⟨_, bind_error (onHeap_error hencode)⟩
  cases args with
  | null =>
    have hencode : fromJsonNode codec request.data s.heap = .error .nullDeref s.heap := by
      rw [fromJsonNode, show request.data = none from hd]
      rfl
    exact ⟨_, bind_error (onHeap_error hencode)⟩
  | _ =>
    obtain ⟨p, hp, hgone⟩ := hd
    exact hfreed p hp hgone

/-- Whatever is on the channel, the host ends. -/
theorem handleIpcRead_run (codec : JsonCodec) (fd : Int) (hh : s.heap.Fresh) :
    ∃ t, handleIpcRead codec fd s = .error (hostFault codec s) t := by
  unfold hostFault
  cases hframe : readFrame true s with
  | error e t => exact ⟨t, bind_error (bind_error hframe)⟩
  | ok frame t =>
    cases frame with
    | none =>
      have hread : codiusReadRequest codec fd s = .ok none t := bind_ok hframe
      exact ⟨t, bind_ok hread⟩
    | some frame =>
      obtain ⟨id, buf⟩ := frame
      have hheap : t.heap.Fresh := by
        rw [(preserves_readFrame true).of_ok hframe]
        exact hh
      have hfrom := fromString_run codec buf hheap
      dsimp only
      cases hfields : requestFields codec buf with
      | error e =>
        rw [hfields] at hfrom
        obtain ⟨u, hrun⟩ := hfrom
        have hread : codiusReadRequest codec fd s = .error e u := by
          rw [codiusReadRequest, bind_ok hframe]
          exact bind_error hrun
        exact ⟨u, bind_error hread⟩
      | ok fields =>
        obtain ⟨api, method, args⟩ := fields
        rw [hfields] at hfrom
        obtain ⟨r, u, hrun, _, _, hd, hpos⟩ := hfrom
        have hread : codiusReadRequest codec fd s = .ok (some { r with id := id, fd := fd }) u := by
          rw [codiusReadRequest, bind_ok hframe]
          exact bind_ok hrun
        have hdata : DataFreed args ({ r with id := id, fd := fd } : CodiusRequest).data u.heap := hd
        rw [handleIpcRead, bind_ok hread]
        exact handleIPC_run hdata hpos

theorem hostFault_eq_useAfterFree :
    hostFault codec s = .useAfterFree ↔
      ∃ api method args, Carries codec s api method args ∧ args ≠ .null := by
  constructor
  · intro h
    unfold hostFault at h
    split at h
    · rename_i e t hframe
      rw [(wp_error hframe).1 (readFrame_throws true s)] at h
      cases h
    · cases h
    · rename_i id buf t hframe
      split at h
      · rename_i e hfields
        exact absurd h (requestFields_error hfields)
      · rename_i api method args hfields
        refine ⟨api, method, args, ⟨id, buf, t, hframe, hfields⟩, ?_⟩
        rintro rfl
        cases h
  · rintro ⟨api, method, args, ⟨id, buf, t, hframe, hfields⟩, hargs⟩
    unfold hostFault
    rw [hframe]
    dsimp only
    rw [hfields]
    cases args with
    | null => exact absurd rfl hargs
    | _ => rfl

/-- No message is delivered and none is reported. The host ends in the use of a freed node when the
message is a well-formed request with arguments, and otherwise in a way that is defined. -/
theorem never_tolerated (codec : JsonCodec) (fd : Int) (hh : s.heap.Fresh) :
    ¬ IpcTolerated codec fd s ∧
      (wp (handleIpcRead codec fd) (fun _ _ => False) (fun e _ => e ≠ .useAfterFree) s ↔
        ¬ ∃ api method args, Carries codec s api method args ∧ args ≠ .null) := by
  obtain ⟨t, hrun⟩ := handleIpcRead_run codec fd hh
  constructor
  · unfold IpcTolerated
    rw [returns_iff]
    rintro ⟨d, u, hok, _⟩
    rw [hrun] at hok
    cases hok
  · rw [wp_error hrun, ← hostFault_eq_useAfterFree]

end

/-- A channel that holds the body `body` behind its header. -/
def Process.receiving (body : Str) : Process :=
  { Process.idle .empty with
    input := RpcHeader.bytes ⟨CODIUS_MAGIC_BYTES, 0, BitVec.ofNat 64 body.length⟩ ++ body }

/-- An object without members, of which `api` is read. -/
theorem host_ends_empty_object :
    ¬ IpcTolerated (.on (str "\x7b\x7d") (.object [])) 4 (.receiving (str "\x7b\x7d")) := by
  have h : wp (handleIpcRead (.on (str "\x7b\x7d") (.object [])) 4) (fun _ _ => False)
      (fun e _ => e = .nullDeref) (.receiving (str "\x7b\x7d")) := by
    decide +kernel
  exact not_returns_of_throws h

theorem never_tolerated_empty_object :
    ¬ IpcTolerated (.on (str "\x7b\x7d") (.object [])) 4 (.receiving (str "\x7b\x7d")) ∧
      wp (handleIpcRead (.on (str "\x7b\x7d") (.object [])) 4) (fun _ _ => False)
        (fun e _ => e ≠ .useAfterFree) (.receiving (str "\x7b\x7d")) := by
  have h := never_tolerated (s := .receiving (str "\x7b\x7d")) (.on (str "\x7b\x7d") (.object [])) 4
    Heap.fresh_empty
  refine ⟨h.1, ?_⟩
  decide +kernel

end CodiusSandbox
