import CodiusSandbox.Framing
import CodiusSandbox.RoundTrip
/-!
# Results as text and back

`codius_result_to_string` writes the data and `codius_result_from_string` reads them into a new result,
whose success is 0. So the data of a result come through, and its success exactly if it is 0
(`result_round_trips_iff`); the same holds of the outcome a callback reports to `node_finish_ipc`, on
its way to the caller of `codius_sync_call` (`outcome_arrives_iff`), where the allocator has a byte to
spare for the NUL behind `toJsonNode`'s vector (`nodeFinishIpc_overrun`).
-/
namespace CodiusSandbox

open TreeHeap Wp

/-! ## The host's side -/

/-- `codius_send_reply` (`codius-util.c:261`). -/
def codiusSendReply (codec : JsonCodec) (request : CodiusRequest) (result : CodiusResult) : ProcessM Int :=
  codiusWriteResult codec { result with id := request.id }

/-- `toJsonNode` (`sandbox-node-module.cpp:152`), on the text from `JSON.stringify`. The vector has room for the
text, and `WriteUtf8` puts a NUL behind it. An allocation of `n` bytes gives `usable n`. -/
def toJsonNode (codec : JsonCodec) (usable : Nat → Nat) (text : Str) : HeapM (Option Ptr) :=
  if text.length < usable text.length then jsonDecode codec text
  else throw .overrun

/-- The result of a callback: the success it reports and the text of its result, if what it returns is
an object (`sandbox-node-module.cpp:248-260`). -/
def callbackResult (codec : JsonCodec) (usable : Nat → Nat) : Option (Bool × Str) → ProcessM CodiusResult
  | some (success, text) => do
    let ret ← onHeap (toJsonNode codec usable text)
    return ⟨if success then 1 else 0, ret, 0⟩
  | none => return ⟨0, none, 0⟩

/-- `NodeSandbox::node_finish_ipc` (`sandbox-node-module.cpp:242`). -/
def nodeFinishIpc (codec : JsonCodec) (usable : Nat → Nat) (request : CodiusRequest)
    (callbackRet : Option (Bool × Str)) : ProcessM Unit := do
  let result ← callbackResult codec usable callbackRet
  let _ ← codiusSendReply codec request result
  onHeap (jsonDelete result.data)

/-! ## The round trip of a result -/

/-- `data` points to the value, or is null if there is none. -/
def DataIs (h : Heap) (data : Option Nat) : Option Json → Prop
  | none => data = none
  | some j => ∃ p cells, data = some p ∧ Forest h.nodes none [p] [(none, j)] cells

/-- The text of data. -/
def resultText (codec : JsonCodec) : Option Json → Str
  | none => []
  | some j => codec.encode j

/-- The text of a result as it is sent. -/
def sentText (codec : JsonCodec) (value : Option Json) : Str := (resultText codec value).takeWhile (· ≠ 0)

/-- The text of a result, decoded, has its success and its data. -/
def ResultRoundTrips (codec : JsonCodec) (result : CodiusResult) (value : Option Json) (h : Heap) : Prop :=
  Returns (do
      let buf ← codiusResultToString codec result
      codiusResultFromString codec buf)
    (fun r t => r.success = result.success ∧ DataIs t r.data value) h

section
variable {codec : JsonCodec} {result : CodiusResult} {value : Option Json} {h : Heap}

theorem resultToString_run (codec : JsonCodec) (hh : h.Fresh) (hdata : DataIs h result.data value) :
    codiusResultToString codec result h = .ok (resultText codec value) h := by
  unfold codiusResultToString
  cases value with
  | none =>
    rw [show result.data = none from hdata]
    rfl
  | some j =>
    obtain ⟨p, cells, hp, hf⟩ := hdata
    rw [hp]
    exact jsonEncode_forest hf (hf.length_le (Forest.lt_next hf hh))

/-- What a text decodes to. -/
theorem jsonDecode_data {text : Str} (hh : h.Fresh) (hdec : codec.decode text = value) :
    ∃ data t, jsonDecode codec text h = .ok data t ∧ DataIs t data value ∧ t.Fresh := by
  cases value with
  | none =>
    refine ⟨none, h, ?_, rfl, hh⟩
    rw [jsonDecode, hdec]
    rfl
  | some j =>
    obtain ⟨p, cells, t, hrun, hf, hb⟩ := jsonDecode_run hdec hh
    exact ⟨some p, t, hrun, ⟨p, cells, rfl, hf⟩, hb.fresh⟩

/-- A decoded result has the data, and is no success. -/
theorem resultFromString_run {text : Str} (hh : h.Fresh) (hdec : codec.decode text = value) :
    ∃ data t, codiusResultFromString codec text h = .ok ⟨0, data, 0⟩ t ∧ DataIs t data value := by
  obtain ⟨data, t, hrun, hdata, _⟩ := jsonDecode_data hh hdec
  refine ⟨data, t, ?_, hdata⟩
  rw [codiusResultFromString, bind_ok hrun]
  rfl

theorem result_round_trip_run (hh : h.Fresh) (hdata : DataIs h result.data value)
    (hcodec : codec.decode (resultText codec value) = value) :
    ∃ data t, (do
        let buf ← codiusResultToString codec result
        codiusResultFromString codec buf : HeapM CodiusResult) h = .ok ⟨0, data, 0⟩ t ∧
      DataIs t data value := by
  rw [bind_ok (resultToString_run codec hh hdata)]
  exact resultFromString_run hh hcodec

theorem result_round_trips_iff (hh : h.Fresh) (hdata : DataIs h result.data value)
    (hcodec : codec.decode (resultText codec value) = value) :
    ResultRoundTrips codec result value h ↔ result.success = 0 := by
  obtain ⟨data, t, hrun, ht⟩ := result_round_trip_run hh hdata hcodec
  unfold ResultRoundTrips
  rw [returns_ok hrun]
  exact ⟨fun h => h.1.symm, fun h => ⟨h.symm, ht⟩⟩

/-! ## From the callback to the caller -/

variable {usable : Nat → Nat} {request : CodiusRequest} {success : Bool} {text : Str} {s w r : Process}

/-- What the callback reports is what `codius_sync_call` reads, over a channel with `r` at its other end. -/
def OutcomeArrives (codec : JsonCodec) (usable : Nat → Nat) (request : CodiusRequest) (success : Bool) (text : Str)
    (value : Option Json) (w r : Process) : Prop :=
  Returns (nodeFinishIpc codec usable request (some (success, text))) (fun _ t =>
    Returns (codiusReadResult codec)
      (fun result u => ∃ res, result = some res ∧ res.success = (if success then 1 else 0) ∧
        res.id = request.id ∧ DataIs u.heap res.data value)
      { r with input := t.output }) w

theorem jsonDelete_data (hh : h.Fresh) (hdata : DataIs h data value) :
    ∃ t, jsonDelete data h = .ok () t := by
  cases value with
  | none =>
    rw [show data = none from hdata]
    exact ⟨h, rfl⟩
  | some j =>
    obtain ⟨p, cells, rfl, hf⟩ := hdata
    obtain ⟨t, hrun, _⟩ := jsonDelete_root hf (hf.length_le (Forest.lt_next hf hh))
    exact ⟨t, hrun⟩

/-- The reply has the id of the request, and the data's text. -/
theorem sendReply_run (codec : JsonCodec) (request : CodiusRequest) (hs : s.writes = []) (hh : s.heap.Fresh)
    (hdata : DataIs s.heap result.data value) :
    codiusSendReply codec request result s =
      .ok 0 { s with output := s.output ++ frameBytes request.id (sentText codec value), writes := [] } := by
  have hstr := resultToString_run codec hh
    (show DataIs s.heap ({ result with id := request.id } : CodiusResult).data value from hdata)
  rw [codiusSendReply, codiusWriteResult, bind_ok (onHeap_ok hstr)]
  exact writeFrame_whole hs request.id rfl

/-- The host sends the frame with the data's text. -/
theorem nodeFinishIpc_run (success : Bool) (m : Message) (hid : m.id = request.id) (hbody : m.body = resultText codec value)
    (hs : s.writes = []) (hh : s.heap.Fresh) (hroom : text.length < usable text.length)
    (hdec : codec.decode text = value) :
    ∃ t, nodeFinishIpc codec usable request (some (success, text)) s = .ok () t ∧ t.output = s.output ++ m.frame := by
  obtain ⟨data, h', hdecode, hdata, hh'⟩ := jsonDecode_data hh hdec
  have hnode : toJsonNode codec usable text s.heap = .ok data h' := by
    rw [toJsonNode, if_pos hroom, hdecode]
  have hresult : callbackResult codec usable (some (success, text)) s =
      .ok ⟨if success then 1 else 0, data, 0⟩ { s with heap := h' } := by
    rw [callbackResult, bind_ok (onHeap_ok hnode)]
    rfl
  have hsend : codiusSendReply codec request ⟨if success then 1 else 0, data, 0⟩ { s with heap := h' } = _ :=
    sendReply_run codec request hs hh' hdata
  have hsent : sentText codec value = m.body := by
    rw [sentText, ← hbody, m.takeWhile_body]
  rw [hsent, ← hid] at hsend
  obtain ⟨u, hdelete⟩ := jsonDelete_data hh' hdata
  refine ⟨{ s with heap := u, output := s.output ++ m.frame, writes := [] }, ?_, rfl⟩
  rw [nodeFinishIpc, bind_ok hresult, bind_ok hsend]
  exact onHeap_ok hdelete

/-- A block without a byte to spare is written over. -/
theorem nodeFinishIpc_overrun (codec : JsonCodec) (request : CodiusRequest) (success : Bool)
    (hroom : usable text.length ≤ text.length) (s : Process) :
    nodeFinishIpc codec usable request (some (success, text)) s = .error .overrun s := by
  have hnode : toJsonNode codec usable text s.heap = .error .overrun s.heap := by
    rw [toJsonNode, if_neg (Nat.not_lt.2 hroom)]
    rfl
  have hresult : callbackResult codec usable (some (success, text)) s = .error .overrun s := by
    rw [callbackResult, bind_error (onHeap_error hnode)]
  rw [nodeFinishIpc, bind_error hresult]

/-- The caller gets the data, and no success. -/
theorem readResult_run (m : Message) (hbody : m.body = resultText codec value) (hh : r.heap.Fresh)
    (hs : r.reads = []) (hslack : r.slack.takeWhile (· ≠ 0) = [])
    (hcodec : codec.decode (resultText codec value) = value) :
    ∃ data t, codiusReadResult codec { r with input := m.frame } = .ok (some ⟨0, data, m.id⟩) t ∧
      DataIs t.heap data value := by
  have hread := readFrame_frame false [] (s := { r with input := m.frame }) m hs
    (List.append_nil _).symm (Nat.le_max_left _ _) (Nat.le_max_left _ _)
  simp only [Bool.false_eq_true, if_false, hslack, List.append_nil] at hread
  obtain ⟨data, t, hrun, hdata⟩ := resultFromString_run hh hcodec
  rw [codiusReadResult, bind_ok hread, hbody]
  have hresult : onHeap (codiusResultFromString codec (resultText codec value))
      { r with input := [], reads := [] } = .ok ⟨0, data, 0⟩ { r with heap := t, input := [], reads := [] } :=
    onHeap_ok hrun
  exact ⟨data, _, bind_ok hresult, hdata⟩

/-- Where the channel moves everything, the data of the outcome arrive, and its success exactly if there
is none. -/
theorem outcome_arrives_iff (m : Message) (hid : m.id = request.id) (hbody : m.body = resultText codec value)
    (hw : w.heap.Fresh) (hwrites : w.writes = []) (hout : w.output = []) (hr : r.heap.Fresh)
    (hreads : r.reads = []) (hslack : r.slack.takeWhile (· ≠ 0) = []) (hroom : text.length < usable text.length)
    (hdec : codec.decode text = value) (hcodec : codec.decode (resultText codec value) = value) :
    OutcomeArrives codec usable request success text value w r ↔ success = false := by
  obtain ⟨t, hsend, hsent⟩ := nodeFinishIpc_run success m hid hbody hwrites hw hroom hdec
  rw [hout, List.nil_append] at hsent
  obtain ⟨data, u, hread, hdata⟩ := readResult_run m hbody hr hreads hslack hcodec
  unfold OutcomeArrives
  rw [returns_ok hsend, hsent, returns_ok hread]
  constructor
  · rintro ⟨res, hres, hsuccess, _⟩
    cases hres
    cases success with
    | false => rfl
    | true => cases hsuccess
  · rintro rfl
    exact ⟨_, rfl, rfl, hid, hdata⟩

end

/-- A call that failed without a result. -/
theorem result_round_trips_failure :
    ResultRoundTrips (.on (str "null") .null) ⟨0, none, 42⟩ none .empty := by
  have hcodec : (JsonCodec.on (str "null") .null).decode [] = none :=
    JsonCodec.on_decode_ne (by decide) _
  have h : ResultRoundTrips (.on (str "null") .null) ⟨0, none, 42⟩ none .empty ↔ (0 : Int) = 0 :=
    result_round_trips_iff Heap.fresh_empty rfl hcodec
  rw [h]

/-- A successful call without a result. -/
theorem success_lost :
    ¬ ResultRoundTrips (.on (str "null") .null) ⟨1, none, 42⟩ none .empty := by
  have hcodec : (JsonCodec.on (str "null") .null).decode [] = none :=
    JsonCodec.on_decode_ne (by decide) _
  obtain ⟨data, t, hrun, _⟩ := result_round_trip_run Heap.fresh_empty
    (show DataIs .empty (⟨1, none, 42⟩ : CodiusResult).data none from rfl) hcodec
  unfold ResultRoundTrips
  rw [returns_ok hrun]
  rintro ⟨h, _⟩
  cases h

end CodiusSandbox
