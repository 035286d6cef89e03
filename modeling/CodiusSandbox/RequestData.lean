import CodiusSandbox.RoundTrip
import CodiusSandbox.Framing
/-!
# The data of a request that is encoded

`codius_request_to_string` hangs the caller's tree below the object that it encodes, and `json_delete` frees
that object with all that is below it. A request has a name, a method and an id afterwards, and a pointer to
nodes that are gone (`request_usable_iff`). `codius_result_to_string` encodes the data where they are.
-/
namespace CodiusSandbox

open TreeHeap Wp

/-- Every node of the request's data tree is as it was. -/
def SameData (request : CodiusRequest) (h t : Heap) : Prop :=
  ∀ p, request.data = some p → ∀ (key : Option Str) (args : Json) (cells : List Nat),
    Forest h.nodes none [p] [(key, args)] cells → ∀ a ∈ cells, t.nodes a = h.nodes a

/-- After it was encoded, or sent, a request has its data and can be encoded, or sent, once more with the same
bytes. The second time, the calls of `write` go as the first time. -/
structure LeavesUsable (codec : JsonCodec) (request : CodiusRequest) (s : Process) : Prop where
  encoded : Returns (codiusRequestToString codec request) (fun buf t => SameData request s.heap t ∧
    Returns (codiusRequestToString codec request) (fun buf' _ => buf' = buf) t) s.heap
  sent : Returns (codiusWriteRequest codec request) (fun _ t => SameData request s.heap t.heap ∧
    ∃ bytes, t.output = s.output ++ bytes ∧
      Returns (codiusWriteRequest codec request) (fun _ u => u.output = t.output ++ bytes)
        { t with writes := s.writes }) s

/-! ## What is written -/

section
variable {s : Process}

theorem sysWrite_eq (data : Str) (writes : List (Option Nat)) : ∃ (ret : Int) (out : Str), ∀ s : Process,
    s.writes = writes → sysWrite data s = .ok ret { s with output := s.output ++ out, writes := writes.tail } := by
  refine ⟨if writes.headD (some data.length) = none then -1
    else transferred (writes.headD (some data.length)) data.length data.length,
    data.take (transferred (writes.headD (some data.length)) data.length data.length), fun s hs => ?_⟩
  subst hs
  unfold sysWrite
  rw [bind_get, bind_set]
  by_cases hplan : s.writes.headD (some data.length) = none
  · rw [if_pos hplan, if_pos hplan]
    rfl
  · rw [if_neg hplan, if_neg hplan]
    rfl

/-- What a frame puts on the channel depends on the calls of `write` only. -/
theorem writeFrame_eq (id : Word) (buf : Str) (writes : List (Option Nat)) :
    ∃ (ret : Int) (out : Str) (rest : List (Option Nat)), ∀ s : Process, s.writes = writes →
      writeFrame id buf s = .ok ret { s with output := s.output ++ out, writes := rest } := by
  obtain ⟨ret, out, hheader⟩ := sysWrite_eq
    (RpcHeader.bytes ⟨CODIUS_MAGIC_BYTES, id, BitVec.ofNat 64 (buf.takeWhile (· ≠ 0)).length⟩) writes
  obtain ⟨ret', out', hbody⟩ := sysWrite_eq (buf.takeWhile (· ≠ 0)) writes.tail
  by_cases hret : ret = -1
  · refine ⟨-1, out, writes.tail, fun s hs => ?_⟩
    rw [writeFrame, bind_ok (hheader s hs), if_pos hret]
    rfl
  · have hsecond : ∀ s : Process, s.writes = writes →
        sysWrite (buf.takeWhile (· ≠ 0)) { s with output := s.output ++ out, writes := writes.tail } =
          .ok ret' { s with output := s.output ++ (out ++ out'), writes := writes.tail.tail } := by
      intro s _
      rw [hbody { s with output := s.output ++ out, writes := writes.tail } rfl, ← List.append_assoc]
    by_cases hret' : ret' = -1
    · refine ⟨-1, out ++ out', writes.tail.tail, fun s hs => ?_⟩
      rw [writeFrame, bind_ok (hheader s hs), if_neg hret, bind_ok (hsecond s hs), if_pos hret']
      rfl
    · refine ⟨0, out ++ out', writes.tail.tail, fun s hs => ?_⟩
      rw [writeFrame, bind_ok (hheader s hs), if_neg hret, bind_ok (hsecond s hs), if_neg hret']
      rfl

end

/-! ## The data -/

section
variable {codec : JsonCodec} {request : CodiusRequest} {args : Json} {s : Process}

/-- The node of the data is gone. -/
theorem not_sameData {h t : Heap} {p : Nat} (hp : request.data = some p) (hdata : HoldsData h request.data args)
    (hgone : t.nodes p = none) : ¬ SameData request h t := by
  intro hsame
  unfold HoldsData at hdata
  rw [hp] at hdata
  obtain ⟨cells, hf⟩ := hdata
  have hmem := hf.root_mem (List.mem_singleton_self p)
  have hlive := hf.live hmem
  rw [← hsame p hp none args cells hf p hmem, hgone] at hlive
  cases hlive

theorem not_usable {p : Nat} (hp : request.data = some p) (hh : s.heap.Fresh)
    (hdata : HoldsData s.heap request.data args) : ¬ LeavesUsable codec request s := by
  intro h
  obtain ⟨t, hrun, -, hgone⟩ := toString_run codec hh hdata
  have hencoded := h.encoded
  rw [returns_ok hrun] at hencoded
  exact not_sameData hp hdata (hgone p hp) hencoded.1

/-- Without data nothing is shared. -/
theorem usable_of_null (hnull : request.data = none) (hh : s.heap.Fresh)
    (hdata : HoldsData s.heap request.data args) : LeavesUsable codec request s := by
  have hsame : ∀ h t, SameData request h t := by
    intro h t p hp
    rw [hnull] at hp
    cases hp
  have hnone : ∀ h, HoldsData h request.data args := by
    intro h
    rw [hnull] at hdata ⊢
    exact hdata
  obtain ⟨t, hrun, ht, -⟩ := toString_run codec hh hdata
  obtain ⟨u, hrun', -, -⟩ := toString_run codec ht (hnone t)
  refine ⟨?_, ?_⟩
  · rw [returns_ok hrun]
    refine ⟨hsame _ _, ?_⟩
    rw [returns_ok hrun']
  · obtain ⟨ret, out, rest, hframe⟩ := writeFrame_eq request.id
      (codec.encode (requestJson request.apiName request.methodName args)) s.writes
    have hwrite : codiusWriteRequest codec request s =
        .ok ret { s with heap := t, output := s.output ++ out, writes := rest } := by
      rw [codiusWriteRequest, bind_ok (onHeap_ok hrun)]
      exact hframe { s with heap := t } rfl
    have hagain : codiusWriteRequest codec request { s with heap := t, output := s.output ++ out } =
        .ok ret { s with heap := u, output := s.output ++ out ++ out, writes := rest } := by
      rw [codiusWriteRequest, bind_ok (onHeap_ok (s := { s with heap := t, output := s.output ++ out }) hrun')]
      exact hframe { s with heap := u, output := s.output ++ out } rfl
    rw [returns_ok hwrite]
    refine ⟨hsame _ _, out, rfl, ?_⟩
    dsimp only
    rw [returns_ok hagain]

/-- A request can be used again exactly if it has no data. -/
theorem request_usable_iff (hh : s.heap.Fresh) (hdata : HoldsData s.heap request.data args) :
    LeavesUsable codec request s ↔ request.data = none := by
  constructor
  · intro h
    cases hd : request.data with
    | none => rfl
    | some p => exact absurd h (not_usable hd hh hdata)
  · exact fun hnull => usable_of_null hnull hh hdata

end

/-- A request with the data `true`. -/
theorem data_gone_true : HoldsData (Heap.empty.withNode (.bool true)) (some 1) (.bool true) ∧
    ¬ LeavesUsable trueRequest ⟨str "a", str "m", some 1, 0, 0⟩ (.idle (Heap.empty.withNode (.bool true))) := by
  have hdata : HoldsData (Heap.empty.withNode (.bool true)) (some 1) (.bool true) :=
    ⟨_, (build_leaf (j := .bool true) Heap.fresh_empty rfl).1⟩
  exact ⟨hdata, not_usable rfl (Heap.fresh_empty.withNode _) hdata⟩

theorem request_usable_null : LeavesUsable nullRequest ⟨str "a", str "m", none, 0, 0⟩ (.idle .empty) ↔
    (none : Option Nat) = none := by
  have hdata : HoldsData Heap.empty none .null := rfl
  exact request_usable_iff (s := .idle .empty) Heap.fresh_empty hdata

end CodiusSandbox
