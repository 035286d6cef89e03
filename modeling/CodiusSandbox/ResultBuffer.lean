import CodiusSandbox.Results
/-!
# The buffer a result is read into

`codius_read_request` allocates a byte more than the body has and puts a NUL there. `codius_read_result`
allocates the body's size and hands the block to `json_decode` as it is, so the text goes on behind the block
until a NUL. It is the body exactly if that NUL comes first (`read_result_iff`).
-/
namespace CodiusSandbox

open TreeHeap Wp

/-- A result that `w` sends in whole-count calls and `r` reads so: the decoder gets the bytes of the body and
no more, and what it makes of them are the id and the data that were written. -/
def ReadsWritten (codec : JsonCodec) (result : CodiusResult) (value : Option Json) (w r : Process) : Prop :=
  Returns (codiusWriteResult codec result) (fun _ t =>
    Returns (readFrame false) (fun frame _ => frame = some (result.id, sentText codec value))
      { r with input := t.output, reads := [] } ∧
    Returns (codiusReadResult codec)
      (fun res u => ∃ q, res = some q ∧ q.id = result.id ∧ DataIs u.heap q.data value)
      { r with input := t.output, reads := [] }) { w with output := [], writes := [] }

section
variable {codec : JsonCodec} {result : CodiusResult} {value : Option Json} {w r s : Process} {inbound : Str}

theorem sentText_noNul (codec : JsonCodec) (value : Option Json) : 0 ∉ sentText codec value := fun h => by
  simpa using List.mem_takeWhile_imp h

/-- The result as a message. -/
def resultMessage (codec : JsonCodec) (id : Word) (value : Option Json)
    (hfit : (sentText codec value).length ≤ CODIUS_MAX_RESPONSE_SIZE) : Message :=
  ⟨⟨id, sentText codec value⟩, sentText_noNul codec value, hfit⟩

theorem writeResult_run (codec : JsonCodec) (hs : s.writes = []) (hh : s.heap.Fresh)
    (hdata : DataIs s.heap result.data value) : codiusWriteResult codec result s =
      .ok 0 { s with output := s.output ++ frameBytes result.id (sentText codec value), writes := [] } := by
  rw [codiusWriteResult, bind_ok (onHeap_ok (resultToString_run codec hh hdata))]
  exact writeFrame_whole hs result.id rfl

/-- The text that the decoder gets. -/
theorem readFrame_slack (m : Message) (hreads : s.reads = []) (hinput : s.input = m.frame) :
    readFrame false s = .ok (some (m.id, m.body ++ s.slack.takeWhile (· ≠ 0)))
      { s with input := [], reads := [] } := by
  have hread := readFrame_frame false [] m hreads (by rw [hinput, List.append_nil])
    (Nat.le_max_left _ _) (Nat.le_max_left _ _)
  simp only [Bool.false_eq_true, if_false] at hread
  exact hread

/-- The decoder gets what lies behind the block, too. -/
theorem slack_of_readsWritten (hw : w.heap.Fresh) (hdata : DataIs w.heap result.data value)
    (hfit : (sentText codec value).length ≤ CODIUS_MAX_RESPONSE_SIZE) (h : ReadsWritten codec result value w r) :
    r.slack.takeWhile (· ≠ 0) = [] := by
  have hwrite := writeResult_run codec (s := { w with output := [], writes := [] }) rfl hw hdata
  have hread := readFrame_slack (s := { r with input := frameBytes result.id (sentText codec value), reads := [] })
    (resultMessage codec result.id value hfit) rfl rfl
  unfold ReadsWritten at h
  rw [returns_ok hwrite, List.nil_append, returns_ok hread] at h
  have hbody := congrArg Prod.snd (Option.some.inj h.1)
  exact List.append_right_eq_self.1 hbody

theorem readsWritten_of_nul (hw : w.heap.Fresh) (hdata : DataIs w.heap result.data value) (hr : r.heap.Fresh)
    (hcodec : codec.decode (sentText codec value) = value)
    (hfit : (sentText codec value).length ≤ CODIUS_MAX_RESPONSE_SIZE) (hslack : r.slack.takeWhile (· ≠ 0) = []) :
    ReadsWritten codec result value w r := by
  have hwrite := writeResult_run codec (s := { w with output := [], writes := [] }) rfl hw hdata
  have hread := readFrame_slack (s := { r with input := frameBytes result.id (sentText codec value), reads := [] })
    (resultMessage codec result.id value hfit) rfl rfl
  have htext : (resultMessage codec result.id value hfit).body ++ r.slack.takeWhile (· ≠ 0) =
      sentText codec value := by
    rw [hslack, List.append_nil]
    rfl
  obtain ⟨data, t, hrun, ht⟩ := resultFromString_run hr hcodec
  have hresult : onHeap (codiusResultFromString codec (sentText codec value)) { r with input := [], reads := [] } =
      .ok ⟨0, data, 0⟩ { r with input := [], reads := [], heap := t } := onHeap_ok hrun
  unfold ReadsWritten
  rw [returns_ok hwrite, List.nil_append, returns_ok hread]
  refine ⟨by rw [htext]; rfl, ?_⟩
  rw [codiusReadResult]
  simp only [returns_bind, returns_ok hread, htext, returns_ok hresult, returns_pure]
  exact ⟨_, rfl, rfl, ht⟩

/-- A result of an accepted size is read as it was written exactly if a NUL follows the block. -/
theorem read_result_iff (hw : w.heap.Fresh) (hdata : DataIs w.heap result.data value) (hr : r.heap.Fresh)
    (hlt : (sentText codec value).length < 2 ^ 64) (hcodec : codec.decode (sentText codec value) = value) :
    ReadsWritten codec result value w r ↔
      (sentText codec value).length ≤ CODIUS_MAX_RESPONSE_SIZE ∧ r.slack.takeWhile (· ≠ 0) = [] := by
  by_cases hfit : (sentText codec value).length ≤ CODIUS_MAX_RESPONSE_SIZE
  · exact ⟨fun h => ⟨hfit, slack_of_readsWritten hw hdata hfit h⟩,
      fun h => readsWritten_of_nul hw hdata hr hcodec hfit h.2⟩
  · have hwrite := writeResult_run codec (s := { w with output := [], writes := [] }) rfl hw hdata
    obtain ⟨t, habort⟩ := readFrame_long false
      (s := { r with input := frameBytes result.id (sentText codec value), reads := [] })
      rfl (List.append_nil _).symm (Nat.lt_of_not_le hfit) hlt
    have hnot : ¬ Returns (readFrame false) (fun frame _ => frame = some (result.id, sentText codec value)) _ :=
      not_returns_of_error habort
    unfold ReadsWritten
    rw [returns_ok hwrite, List.nil_append, eq_false hnot, false_and, false_iff]
    exact fun h => hfit h.1

end

/-- The codec of the result `true`. -/
def trueResult : JsonCodec := .on (str "true") (.bool true)

/-- The process that sends `true`. -/
def trueHeap : Heap := Heap.empty.withNode (.bool true)

theorem trueHeap_data : DataIs trueHeap (some 1) (some (.bool true)) :=
  ⟨1, _, rfl, (build_leaf (j := .bool true) Heap.fresh_empty rfl).1⟩

/-- With an `x` behind the block the text is `truex`. -/
theorem text_overrun : ¬ ReadsWritten trueResult ⟨0, some 1, 42⟩ (some (.bool true)) (.idle trueHeap)
    { Process.idle .empty with slack := [120, 0] } := by
  have hfit : (sentText trueResult (some (.bool true))).length ≤ CODIUS_MAX_RESPONSE_SIZE := by decide
  intro h
  have hslack : ([120, 0] : List UInt8).takeWhile (· ≠ 0) = [] :=
    slack_of_readsWritten (Heap.fresh_empty.withNode _) trueHeap_data hfit h
  revert hslack
  decide

theorem read_result_true : ReadsWritten trueResult ⟨0, some 1, 42⟩ (some (.bool true)) (.idle trueHeap) (.idle .empty) ↔
    (sentText trueResult (some (.bool true))).length ≤ CODIUS_MAX_RESPONSE_SIZE ∧
      (Process.idle .empty).slack.takeWhile (· ≠ 0) = [] :=
  read_result_iff (w := .idle trueHeap) (r := .idle .empty) (Heap.fresh_empty.withNode _) trueHeap_data
    Heap.fresh_empty (by decide) rfl

end CodiusSandbox
