import CodiusSandbox.JsonEmitting
import CodiusSandbox.ResultBuffer
/-!
# Requests and results in the text of `json.c`

`textCodec` is `json_encode` and `json_decode` on values, as the functions of `codius-util.c` have them
(`jsonDecode_refines`). A request or a result whose strings are UTF-8 is understood on the other side but
for a U+001F in one of its strings.
-/
namespace CodiusSandbox.JsonText

open JsonGrammar TreeHeap Utf8 Wp

/-- The value of a text, or nothing. -/
def decodeText (lib : NumberLib) (text : Str) : Option Json :=
  match jsonDecode lib ⟨text ++ [0], .empty⟩ with
  | .ok (some p) t =>
    match readValue t.heap.next p t.heap with
    | .ok v _ => some v
    | .error _ _ => none
  | _ => none

/-- The text functions on values. There is no text of a value with a string that is not UTF-8. -/
def textCodec (lib : NumberLib) : JsonCodec where
  encode v :=
    match jsonEncode lib v with
    | .ok text => text
    | .error _ => []
  decode := decodeText lib

section
variable {lib : NumberLib} {text : Str} {v : Json} {h : Heap}

theorem decodeText_of_text (h0 : 0 ∉ text) (hv : Text (jsonValues lib) v text) : decodeText lib text = some v := by
  obtain ⟨p, h', hrun, hbuild⟩ := jsonDecode_text ⟨text, [], h0⟩ hv Heap.fresh_empty
  rw [decodeText]
  simp only [CString.memory] at hrun
  rw [hrun]
  dsimp only
  rw [readValue_build hbuild Heap.fresh_empty]

theorem decodeText_of_not_text (h0 : 0 ∉ text) (hno : ∀ v, ¬ Text (jsonValues lib) v text) : decodeText lib text = none := by
  rcases jsonDecode_run lib ⟨text, [], h0⟩ Heap.fresh_empty with ⟨v, p, t, -, hv, -⟩ | ⟨t, hrun, -⟩
  · exact absurd hv (hno v)
  · simp only [CString.memory] at hrun
    rw [decodeText, hrun]

/-- `json_decode` is the codec's, on every string. A text that is given up leaves the nodes as they were. -/
theorem jsonDecode_refines (lib : NumberLib) (json : CString) (hh : h.Fresh) : ∃ ret t h',
    jsonDecode lib ⟨json.memory, h⟩ = .ok ret t ∧
    CodiusSandbox.jsonDecode (textCodec lib) json.bytes h = .ok ret h' ∧ t.heap.nodes = h'.nodes ∧
    (ret ≠ none → t.heap = h') := by
  rcases jsonDecode_run lib json hh with ⟨v, p, t, hrun, hv, hbuild⟩ | ⟨t, hrun, hr⟩
  · refine ⟨some p, t, t.heap, hrun, ?_, rfl, fun _ => rfl⟩
    have hdec : (textCodec lib).decode json.bytes = some v := decodeText_of_text json.noNul hv
    rw [CodiusSandbox.jsonDecode, hdec]
    exact bind_ok hbuild
  · refine ⟨none, t, h, hrun, ?_, hr.nodes, fun hne => absurd rfl hne⟩
    have hdec : (textCodec lib).decode json.bytes = none := decodeText_of_not_text json.noNul fun v hv => by
      obtain ⟨p, h', hrun', -⟩ := jsonDecode_text _ hv hh
      rw [hrun] at hrun'
      cases hrun'
    rw [CodiusSandbox.jsonDecode, hdec]
    rfl

theorem jsonDecode_refines_one : ∃ ret t h', jsonDecode oneLib ⟨oneText.memory, .empty⟩ = .ok ret t ∧
    CodiusSandbox.jsonDecode (textCodec oneLib) oneText.bytes .empty = .ok ret h' ∧ t.heap.nodes = h'.nodes ∧
    (ret ≠ none → t.heap = h') := jsonDecode_refines oneLib oneText Heap.fresh_empty

/-! ## Round trip -/

/-- A value whose strings are UTF-8 comes back, or is not understood for a U+001F in one of them. -/
theorem textCodec_run (lib : NumberLib) (hv : ∀ s ∈ v.strings, IsUtf8 s ∧ 0 ∉ s) :
    0 ∉ (textCodec lib).encode v ∧
    ((∀ s ∈ v.strings, unitSeparator ∉ s) → (textCodec lib).decode ((textCodec lib).encode v) = some (rounded lib v)) ∧
    ((∃ s ∈ v.strings, unitSeparator ∈ s) → (textCodec lib).decode ((textCodec lib).encode v) = none) := by
  obtain ⟨text, hrun, h0, hplain⟩ :=
    (jsonStringify_run lib none (by simp) fun s hs => (hv s hs).2).1 fun s hs => (hv s hs).1
  obtain ⟨hunit, htext⟩ := hplain (by simp)
  have hencode : (textCodec lib).encode v = text := by
    simp only [textCodec, jsonEncode, hrun]
  rw [hencode]
  refine ⟨h0, fun hclean => decodeText_of_text h0 (htext hclean), fun hs => ?_⟩
  exact decodeText_of_not_text h0 fun v' hv' => hv'.printed.not_mem (by decide) (by decide) (hunit.2 hs)

/-- The text of a tree is decoded to a tree of the same value, as its numbers are written, or is rejected for a
U+001F in one of its strings. -/
theorem jsonEncode_round_trip (lib : NumberLib) {parent : Option Nat} {p : Ptr} {key : Option Str} {cells : List Nat}
    (hf : Forest h.nodes parent [p] [(key, v)] cells) (hh : h.Fresh) (hv : ∀ s ∈ v.strings, IsUtf8 s ∧ 0 ∉ s) :
    ∃ text, CodiusSandbox.jsonEncode (textCodec lib) (some p) h = .ok text h ∧
      (DecodesTo lib text (rounded lib v) ↔ ∀ s ∈ v.strings, unitSeparator ∉ s) ∧
      (Rejected lib text ↔ ∃ s ∈ v.strings, unitSeparator ∈ s) := by
  obtain ⟨text, hrun, htext⟩ := stringify_decodes lib none (by simp) hv
  have hencode : (textCodec lib).encode v = text := by
    simp only [textCodec, jsonEncode, hrun]
  have hnode : CodiusSandbox.jsonEncode (textCodec lib) (some p) h = .ok ((textCodec lib).encode v) h :=
    jsonEncode_forest hf (hf.length_le (Forest.lt_next hf hh))
  rw [hencode] at hnode
  exact ⟨text, hnode, htext⟩

theorem jsonEncode_round_trip_true : ∃ text,
    CodiusSandbox.jsonEncode (textCodec oneLib) (some 1) trueHeap = .ok text trueHeap ∧
    (DecodesTo oneLib text (rounded oneLib (.bool true)) ↔ ∀ s ∈ (Json.bool true).strings, unitSeparator ∉ s) ∧
    (Rejected oneLib text ↔ ∃ s ∈ (Json.bool true).strings, unitSeparator ∈ s) := by
  have htrue : Forest trueHeap.nodes none [1] [(none, Json.bool true)] [1] :=
    (build_leaf (j := .bool true) Heap.fresh_empty rfl).1
  exact jsonEncode_round_trip oneLib htrue (Heap.fresh_empty.withNode _) (by simp [Json.strings])

/-! ## Requests -/

section
variable {request : CodiusRequest} {args : Json} {w r : Process} {fd : Int}

/-- The names and the id of a request arrive at `r`, at the other end of the channel. -/
def RequestArrives (codec : JsonCodec) (request : CodiusRequest) (fd : Int) (w r : Process) : Prop :=
  Returns (codiusWriteRequest codec request) (fun _ t =>
    Returns (codiusReadRequest codec fd) (fun res _ => ∃ q, res = some q ∧ q.apiName = request.apiName ∧
      q.methodName = request.methodName ∧ q.id = request.id ∧ q.fd = fd)
      { r with input := t.output }) w

/-- The text of a request in a message. -/
theorem writeRequest_run (codec : JsonCodec) (m : Message) (hid : m.id = request.id)
    (hbody : m.body = codec.encode (requestJson request.apiName request.methodName args))
    (hw : w.heap.Fresh) (hdata : HoldsData w.heap request.data args) (hwrites : w.writes = []) :
    ∃ t, codiusWriteRequest codec request w = .ok 0 t ∧ t.output = w.output ++ m.frame := by
  obtain ⟨h', hto, -, -⟩ := toString_run codec hw hdata
  have hbytes : (codec.encode (requestJson request.apiName request.methodName args)).takeWhile (· ≠ 0) = m.body := by
    rw [← hbody, m.takeWhile_body]
  have hwrite := writeFrame_whole (s := { w with heap := h' }) hwrites request.id hbytes
  rw [← hid] at hwrite
  refine ⟨{ w with heap := h', output := w.output ++ m.frame, writes := [] }, ?_, rfl⟩
  rw [codiusWriteRequest, bind_ok (onHeap_ok hto), ← hid]
  exact hwrite

theorem readFrame_message (m : Message) (hreads : r.reads = []) : readFrame true { r with input := m.frame } =
    .ok (some (m.id, m.body)) { r with input := [], reads := [] } := by
  have hread := readFrame_frame true [] (s := { r with input := m.frame }) m hreads (List.append_nil _).symm
    (Nat.le_max_left _ _) (Nat.le_max_left _ _)
  simp only [if_true, List.takeWhile_nil, List.append_nil] at hread
  exact hread

/-- A message with the text of a request is read. -/
theorem readRequest_run {codec : JsonCodec} (m : Message) {api method : Str} (hr : r.heap.Fresh) (hreads : r.reads = [])
    (hdec : codec.decode m.body = some (requestJson api method args)) (fd : Int) :
    ∃ q t, codiusReadRequest codec fd { r with input := m.frame } = .ok (some q) t ∧ q.apiName = api ∧
      q.methodName = method ∧ q.id = m.id ∧ q.fd = fd := by
  have hfrom := fromString_run codec m.body (s := { r with input := [], reads := [] }) hr
  rw [requestFields_requestJson hdec] at hfrom
  obtain ⟨q, t, hrun, hapi, hmethod, -⟩ := hfrom
  refine ⟨{ q with id := m.id, fd := fd }, t, ?_, hapi, hmethod, rfl, rfl⟩
  rw [codiusReadRequest, bind_ok (readFrame_message m hreads)]
  exact bind_ok hrun

/-- What is no JSON text the reader takes for a null pointer to a node, and follows it. -/
theorem readRequest_fault {codec : JsonCodec} (m : Message) (hr : r.heap.Fresh) (hreads : r.reads = [])
    (hdec : codec.decode m.body = none) (fd : Int) :
    ∃ t, codiusReadRequest codec fd { r with input := m.frame } = .error .nullDeref t := by
  have hfrom := fromString_run codec m.body (s := { r with input := [], reads := [] }) hr
  rw [requestFields, hdec] at hfrom
  obtain ⟨t, hrun⟩ := hfrom
  refine ⟨t, ?_⟩
  rw [codiusReadRequest, bind_ok (readFrame_message m hreads)]
  exact bind_error hrun

/-- Where the channel moves everything, a request whose strings are UTF-8 arrives, but for a U+001F in one of
them. -/
theorem requestArrives_iff (lib : NumberLib) (hw : w.heap.Fresh) (hdata : HoldsData w.heap request.data args)
    (hwrites : w.writes = []) (hout : w.output = []) (hr : r.heap.Fresh) (hreads : r.reads = [])
    (hv : ∀ s ∈ (requestJson request.apiName request.methodName args).strings, IsUtf8 s ∧ 0 ∉ s)
    (hfit : ((textCodec lib).encode (requestJson request.apiName request.methodName args)).length ≤
      CODIUS_MAX_RESPONSE_SIZE) :
    RequestArrives (textCodec lib) request fd w r ↔
      ∀ s ∈ (requestJson request.apiName request.methodName args).strings, unitSeparator ∉ s := by
  obtain ⟨h0, hclean, hunit⟩ := textCodec_run lib hv
  obtain ⟨m, hid, hbody⟩ : ∃ m : Message, m.id = request.id ∧
      m.body = (textCodec lib).encode (requestJson request.apiName request.methodName args) :=
    ⟨⟨⟨request.id, _⟩, h0, hfit⟩, rfl, rfl⟩
  obtain ⟨t, hsend, hsent⟩ := writeRequest_run (textCodec lib) m hid hbody hw hdata hwrites
  rw [hout, List.nil_append] at hsent
  unfold RequestArrives
  rw [returns_ok hsend, hsent]
  rw [← hbody] at hclean hunit
  constructor
  · intro harrives s hs hmem
    obtain ⟨u, hfault⟩ := readRequest_fault m hr hreads (hunit ⟨s, hs, hmem⟩) fd
    exact not_returns_of_error hfault harrives
  · intro hs
    obtain ⟨q, u, hread, hapi, hmethod, hid', hfd⟩ := readRequest_run m hr hreads (hclean hs) fd
    rw [returns_ok hread]
    exact ⟨q, rfl, hapi, hmethod, hid'.trans hid, hfd⟩

/-- A request without data. -/
theorem requestArrives_iff_null :
    RequestArrives (textCodec oneLib) ⟨str "a", str "m", none, 0, 0⟩ 3 (.idle .empty) (.idle .empty) ↔
      ∀ s ∈ (requestJson (str "a") (str "m") .null).strings, unitSeparator ∉ s := by
  have htext : ∀ s ∈ (requestJson (str "a") (str "m") .null).strings, IsUtf8 s ∧ 0 ∉ s := by
    have hname (name : String) (hencode : encode name.toList = str name) (h0 : 0 ∉ str name) :
        IsUtf8 (str name) ∧ 0 ∉ str name := ⟨⟨name.toList, hencode⟩, h0⟩
    simp only [requestJson, Json.strings, Json.memberStrings, List.cons_append, List.nil_append, List.forall_mem_cons,
      List.not_mem_nil, false_implies, implies_true, and_true]
    exact ⟨hname "api" (by decide) (by decide), hname "a" (by decide) (by decide), hname "method" (by decide) (by decide),
      hname "m" (by decide) (by decide), hname "arguments" (by decide) (by decide)⟩
  have hdata : HoldsData Heap.empty none .null := rfl
  exact requestArrives_iff oneLib (w := .idle .empty) (r := .idle .empty) Heap.fresh_empty hdata rfl rfl Heap.fresh_empty
    rfl htext (by decide +kernel)

/-! ## Results -/

end

end

end CodiusSandbox.JsonText
