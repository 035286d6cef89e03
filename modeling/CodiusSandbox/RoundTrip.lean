import CodiusSandbox.Ipc
import CodiusSandbox.JsonProofs
/-!
# Requests as text and back

`codius_request_to_string` hangs the arguments below a new object, encodes it and deletes it.
`codius_request_from_string` takes its data from the tree it then deletes: whatever is not null is a
freed node (`fromString_run`), so a request survives the round trip exactly without arguments
(`round_trips_iff`).
-/
namespace CodiusSandbox

open TreeHeap Wp

/-! ## Decoding -/

/-- The string that `child->string_` finds under a name. -/
def Json.memberString (name : Str) (j : Json) : Except Fault Str :=
  match j.member name with
  | none => .error .nullDeref
  | some (.string s) => .ok s
  | some _ => .error .wrongTag

/-- The api, the method and the arguments in the text of a request, or how decoding it faults. -/
def requestFields (codec : JsonCodec) (buf : Str) : Except Fault (Str × Str × Json) :=
  match codec.decode buf with
  | none => .error .nullDeref
  | some j => do
    let api ← j.memberString (str "api")
    let method ← j.memberString (str "method")
    match j.member (str "arguments") with
    | none => .error .nullDeref
    | some args => .ok (api, method, args)

/-- Null arguments are a null pointer; others are a node that is gone. -/
def DataFreed (args : Json) (data : Option Nat) (h : Heap) : Prop :=
  match args with
  | .null => data = none
  | _ => ∃ p, data = some p ∧ h.nodes p = none

/-- Null arguments are a null pointer; others are a node that is there and has their value. -/
def DataLives (args : Json) (data : Option Nat) (h : Heap) : Prop :=
  match args with
  | .null => data = none
  | _ => ∃ p parent key cells, data = some p ∧ Forest h.nodes parent [p] [(key, args)] cells

theorem DataFreed.lives_iff {args : Json} {data : Option Nat} {h : Heap} (hd : DataFreed args data h) :
    DataLives args data h ↔ args = .null := by
  have hgone : ∀ p q parent key cells, data = some p → h.nodes p = none → data = some q →
      ¬ Forest h.nodes parent [q] [(key, args)] cells := by
    intro p q parent key cells hp hnone hq hf
    have hlive := hf.live (hf.root_mem (List.mem_singleton_self q))
    rw [hp, Option.some.injEq] at hq
    rw [← hq, hnone] at hlive
    cases hlive
  cases args with
  | null => exact ⟨fun _ => rfl, fun _ => hd⟩
  | _ =>
    obtain ⟨p, hp, hnone⟩ := hd
    refine ⟨fun hl => ?_, fun h => by cases h⟩
    obtain ⟨q, parent, key, cells, hq, hf⟩ := hl
    exact absurd hf (hgone p q parent key cells hp hnone hq)

section
variable {codec : JsonCodec} {buf : Str} {s : Process} {h : Heap} {parent : Option Nat} {p : Nat}
  {key : Option Str} {j : Json} {cells : List Nat} {α : Type}

theorem onHeap_ok {x : HeapM α} {a : α} (hx : x s.heap = .ok a h) :
    onHeap x s = .ok a { s with heap := h } := by
  simp only [onHeap, hx]

theorem onHeap_error {x : HeapM α} {e : Fault} (hx : x s.heap = .error e h) :
    onHeap x s = .error e { s with heap := h } := by
  simp only [onHeap, hx]

/-- Finding a member and reading its string. -/
theorem memberString_run (hf : Forest h.nodes parent [p] [(key, j)] cells) (name : Str) :
    ∃ child, jsonFindMember (some p) name h = .ok child h ∧
      nodeString child h = match j.memberString name with
        | .ok s => .ok s h
        | .error e => .error e h := by
  obtain ⟨child, hfind, hm⟩ := jsonFindMember_forest hf name
  refine ⟨child, hfind, ?_⟩
  unfold Json.memberString
  unfold Found at hm
  cases hj : j.member name with
  | none =>
    rw [hj] at hm
    rw [hm]
    rfl
  | some v =>
    rw [hj] at hm
    obtain ⟨q, cs, rfl, _, hnode⟩ := hm
    rw [nodeString, bind_ok (deref_ok hnode)]
    cases v <;> rfl

/-- How `nodeData` ends for the arguments found, whose node is one of `cells`. -/
def DataFound (h : Heap) (child : Option Nat) (cells : List Nat) : Option Json → Prop
  | none => nodeData child h = .error .nullDeref h
  | some .null => nodeData child h = .ok none h
  | some _ => ∃ q ∈ cells, nodeData child h = .ok (some q) h

theorem nodeData_run (hf : Forest h.nodes parent [p] [(key, j)] cells) :
    ∃ child, jsonFindMember (some p) (str "arguments") h = .ok child h ∧
      DataFound h child cells (j.member (str "arguments")) := by
  obtain ⟨child, hfind, hm⟩ := jsonFindMember_forest hf (str "arguments")
  refine ⟨child, hfind, ?_⟩
  unfold Found at hm
  cases hj : j.member (str "arguments") with
  | none =>
    rw [hj] at hm
    rw [hm]
    rfl
  | some v =>
    rw [hj] at hm
    obtain ⟨q, cs, rfl, hq, hnode⟩ := hm
    cases v with
    | null => exact bind_ok (deref_ok hnode)
    | _ => exact ⟨q, hq, bind_ok (deref_ok hnode)⟩

theorem bind_requestNew {api method : Str} {f : CodiusRequest → ProcessM α} :
    (codiusRequestNew api method >>= f) s =
      f ⟨api, method, none, toWord s.nextRequestId, 0⟩ { s with nextRequestId := succInt s.nextRequestId } :=
  rfl

/-- The end of `codius_request_from_string`, once the names are read. -/
theorem fromString_data {ret : CodiusRequest} {child data : Option Nat} {h' : Heap}
    (hd : nodeData child s.heap = .ok data s.heap) (hdel : jsonDelete (some p) s.heap = .ok () h') :
    (do
      let data ← onHeap (nodeData child)
      onHeap (jsonDelete (some p))
      return { ret with data := data } : ProcessM CodiusRequest) s =
        .ok { ret with data := data } { s with heap := h' } := by
  rw [bind_ok (onHeap_ok hd), bind_ok (onHeap_ok hdel)]
  rfl

/-- Decoding a request. Whatever the arguments are, their node is freed with the rest. -/
theorem fromString_run (codec : JsonCodec) (buf : Str) (hh : s.heap.Fresh) :
    match requestFields codec buf with
    | .error e => ∃ t, codiusRequestFromString codec buf s = .error e t
    | .ok (api, method, args) => ∃ r t, codiusRequestFromString codec buf s = .ok r t ∧
        r.apiName = api ∧ r.methodName = method ∧ DataFreed args r.data t.heap ∧ 0 < t.heap.next := by
  unfold requestFields
  cases hdec : codec.decode buf with
  | none =>
    have hnull : jsonDecode codec buf s.heap = .ok none s.heap := by
      rw [jsonDecode, hdec]
      rfl
    refine ⟨s, ?_⟩
    rw [codiusRequestFromString, bind_ok (onHeap_ok hnull)]
    rfl
  | some j =>
    obtain ⟨p, cells, h, hbuild, hf, hb⟩ := jsonDecode_run hdec hh
    obtain ⟨c1, hfind1, hstr1⟩ := memberString_run hf (str "api")
    obtain ⟨c2, hfind2, hstr2⟩ := memberString_run hf (str "method")
    obtain ⟨c3, hfind3, hdata⟩ := nodeData_run hf
    have hlen : cells.length ≤ h.next := hf.length_le (Forest.lt_next hf hb.fresh)
    obtain ⟨h', hdel, hnext, hgone, _⟩ := jsonDelete_root hf hlen
    have hpos : 0 < h'.next := by
      have := Forest.lt_next hf hb.fresh p (hf.root_mem (List.mem_singleton_self p))
      omega
    dsimp only
    rw [codiusRequestFromString, bind_ok (onHeap_ok hbuild), bind_ok (onHeap_ok hfind1)]
    cases hj1 : j.memberString (str "api") with
    | error e =>
      rw [hj1] at hstr1
      exact ⟨_, bind_error (onHeap_error hstr1)⟩
    | ok api =>
      rw [hj1] at hstr1
      rw [bind_ok (onHeap_ok hstr1), bind_ok (onHeap_ok hfind2)]
      cases hj2 : j.memberString (str "method") with
      | error e =>
        rw [hj2] at hstr2
        exact ⟨_, bind_error (onHeap_error hstr2)⟩
      | ok method =>
        rw [hj2] at hstr2
        rw [bind_ok (onHeap_ok hstr2), bind_ok (onHeap_ok hfind3), bind_requestNew]
        cases hj3 : j.member (str "arguments") with
        | none =>
          rw [hj3] at hdata
          exact ⟨_, bind_error (onHeap_error hdata)⟩
        | some args =>
          rw [hj3] at hdata
          cases args with
          | null => exact ⟨_, _, fromString_data hdata hdel, rfl, rfl, rfl, hpos⟩
          | _ =>
            obtain ⟨q, hq, hd⟩ := hdata
            exact ⟨_, _, fromString_data hd hdel, rfl, rfl, ⟨q, rfl, hgone q hq⟩, hpos⟩

end

/-! ## Encoding -/

/-- `data` points to the value `args`, or is null and `args` is too. -/
def HoldsData (h : Heap) (data : Option Nat) (args : Json) : Prop :=
  match data with
  | none => args = .null
  | some p => ∃ cells, Forest h.nodes none [p] [(none, args)] cells

/-- The object a request is sent as. -/
def requestJson (api method : Str) (args : Json) : Json :=
  .object [(str "api", .string api), (str "method", .string method), (str "arguments", args)]

/-- `req` is an object with the members `members`, in `cells` besides its own. -/
structure ObjectAt (h : Heap) (req : Nat) (members : List (Str × Json)) (cells : List Nat) : Prop where
  fresh : h.Fresh
  node : ∃ qs, h.nodes req = some ⟨none, none, .object qs⟩ ∧
    Forest h.nodes (some req) qs (members.map fun e => (some e.1, e.2)) cells
  apart : req ∉ cells

section
variable {codec : JsonCodec} {h : Heap} {req p : Nat} {members : List (Str × Json)} {cells below : List Nat}
  {name : Str} {j args : Json} {request : CodiusRequest}

theorem ObjectAt.forest (ho : ObjectAt h req members cells) :
    Forest h.nodes none [req] [(none, Json.object members)] (req :: cells) := by
  obtain ⟨qs, hnode, hkids⟩ := ho.node
  have hkids : Forest h.nodes (some req) qs (Json.object members).children cells := hkids
  exact forest_singleton.2 ⟨qs, cells, hnode, hkids, ho.apart, rfl⟩

theorem ObjectAt.lt (ho : ObjectAt h req members cells) : req < h.next := by
  obtain ⟨qs, hnode, _⟩ := ho.node
  exact ho.fresh.lt hnode

/-- A tree becomes the last member. -/
theorem ObjectAt.append (ho : ObjectAt h req members cells)
    (hf : Forest h.nodes none [p] [(none, j)] below) (hreq : req ∉ below) (hd : cells.Disjoint below)
    (name : Str) : ∃ h', jsonAppendMember req name p h = .ok () h' ∧
      ObjectAt h' req (members ++ [(name, j)]) (cells ++ below) ∧ h'.next = h.next ∧
      ∀ a, a ≠ req → a ∉ below → h'.nodes a = h.nodes a := by
  obtain ⟨qs, hnode, hkids⟩ := ho.node
  obtain ⟨h', hrun, hatt⟩ := appendMember_run name hnode hf hreq
  have hold : Forest h'.nodes (some req) qs (members.map fun e => (some e.1, e.2)) cells := by
    refine hkids.congr fun a ha => hatt.kept a ?_ fun hb => hd ha hb
    rintro rfl
    exact ho.apart ha
  refine ⟨h', hrun, ⟨?_, ⟨qs ++ [p], hatt.parent, ?_⟩, ?_⟩, hatt.next, hatt.kept⟩
  · exact hatt.fresh ho.fresh ho.lt (Forest.lt_next hf ho.fresh)
  · rw [List.map_append]
    exact hold.append hatt.child hd
  · simp [ho.apart, hreq]

/-- A new node becomes the last member. -/
theorem ObjectAt.appendNew (ho : ObjectAt h req members cells) (hj : j.children = []) (name : Str) :
    ∃ h', jsonAppendMember req name h.next (h.withNode (j.contents [])) = .ok () h' ∧
      ObjectAt h' req (members ++ [(name, j)]) (cells ++ [h.next]) ∧
      ∀ a < h.next, a ≠ req → h'.nodes a = h.nodes a := by
  obtain ⟨qs, hnode, hkids⟩ := ho.node
  obtain ⟨hleaf, hb⟩ := build_leaf ho.fresh hj
  have hlt : ∀ a ∈ cells, a < h.next := Forest.lt_next hkids ho.fresh
  have ho' : ObjectAt (h.withNode (j.contents [])) req members cells := by
    refine ⟨hb.fresh, ⟨qs, ?_, ?_⟩, ho.apart⟩
    · rw [hb.kept req ho.lt, hnode]
    · exact hkids.congr fun a ha => hb.kept a (hlt a ha)
  have hreq : req ∉ [h.next] := by
    have := ho.lt
    simp only [List.mem_singleton]
    omega
  have hd : cells.Disjoint [h.next] := by
    intro a ha hn
    have := hlt a ha
    rw [List.mem_singleton.1 hn] at this
    omega
  obtain ⟨h', hrun, hobj, _, hkept⟩ := ho'.append hleaf hreq hd name
  refine ⟨h', hrun, hobj, fun a ha hne => ?_⟩
  have hnot : a ∉ [h.next] := by
    simp only [List.mem_singleton]
    omega
  rw [hkept a hne hnot, hb.kept a ha]

/-- `json_mkobject`. -/
theorem ObjectAt.new (hh : h.Fresh) : ObjectAt (h.withNode (.object [])) h.next [] [] :=
  ⟨hh.withNode _, ⟨[], withNode_nodes_next _, .nil⟩, by simp⟩

/-- Encoding and deleting the object, at the end of `codius_request_to_string`. -/
theorem ObjectAt.finish (ho : ObjectAt h req members cells) (codec : JsonCodec) : ∃ h', (do
      let buf ← jsonEncode codec (some req)
      jsonDelete (some req)
      return buf : HeapM Str) h = .ok (codec.encode (.object members)) h' ∧ h'.Fresh ∧
        ∀ a ∈ cells, h'.nodes a = none := by
  have hf := ho.forest
  have hlt := Forest.lt_next hf ho.fresh
  have hlen := hf.length_le hlt
  obtain ⟨h', hdel, hnext, hgone, hkept⟩ := jsonDelete_root hf hlen
  refine ⟨h', ?_, fun a ha => ?_, fun a ha => hgone a (List.mem_cons_of_mem _ ha)⟩
  · rw [bind_ok (jsonEncode_forest hf hlen), bind_ok hdel]
    rfl
  · have hnot : a ∉ req :: cells := fun hc => by
      have := hlt a hc
      omega
    rw [hkept a hnot]
    exact ho.fresh a (by omega)

theorem appendArguments_null (ho : ObjectAt h req members cells) :
    ∃ h' cells', appendArguments req none h = .ok () h' ∧
      ObjectAt h' req (members ++ [(str "arguments", .null)]) cells' := by
  obtain ⟨h', hrun, ho', _⟩ := ho.appendNew (j := .null) rfl (str "arguments")
  refine ⟨h', _, ?_, ho'⟩
  rw [appendArguments, jsonMknull, bind_ok (mknode_run _)]
  exact hrun

/-- `codius_request_to_string` gives the text of the request's object, and frees the data with it. -/
theorem toString_run (codec : JsonCodec) (hh : h.Fresh) (hdata : HoldsData h request.data args) :
    ∃ h', codiusRequestToString codec request h =
      .ok (codec.encode (requestJson request.apiName request.methodName args)) h' ∧ h'.Fresh ∧
        ∀ p, request.data = some p → h'.nodes p = none := by
  obtain ⟨h1, hrun1, ho1, hkept1⟩ :=
    (ObjectAt.new hh).appendNew (j := .string request.apiName) rfl (str "api")
  obtain ⟨h2, hrun2, ho2, hkept2⟩ := ho1.appendNew (j := .string request.methodName) rfl (str "method")
  have hargs : ∃ h3 cells, appendArguments h.next request.data h2 = .ok () h3 ∧
      ObjectAt h3 h.next [(str "api", .string request.apiName), (str "method", .string request.methodName),
        (str "arguments", args)] cells ∧ ∀ p, request.data = some p → p ∈ cells := by
    cases hd : request.data with
    | none =>
      unfold HoldsData at hdata
      rw [hd] at hdata
      subst hdata
      obtain ⟨h3, cells, hrun3, ho3⟩ := appendArguments_null ho2
      exact ⟨h3, cells, hrun3, ho3, fun p hp => by cases hp⟩
    | some p =>
      unfold HoldsData at hdata
      rw [hd] at hdata
      obtain ⟨below, hf⟩ := hdata
      -- the data lies below what has been allocated since
      have hlt : ∀ a ∈ below, a < h.next := Forest.lt_next hf hh
      have hnext := ho1.lt
      have hf2 : Forest h2.nodes none [p] [(none, args)] below := by
        refine hf.congr fun a ha => ?_
        have := hlt a ha
        rw [hkept2 a (by omega) (by omega), hkept1 a (by rw [withNode_next]; omega) (by omega),
          withNode_kept _ (by omega)]
      have hreq : h.next ∉ below := fun hc => Nat.lt_irrefl _ (hlt _ hc)
      have hapart : ([] ++ [(h.withNode (.object [])).next] ++ [h1.next] : List Nat).Disjoint below := by
        intro a ha hb
        have := hlt a hb
        simp only [List.nil_append, List.cons_append, List.mem_cons, List.not_mem_nil, or_false,
          withNode_next] at ha
        omega
      obtain ⟨h3, hrun3, ho3, _⟩ := ho2.append hf2 hreq hapart (str "arguments")
      refine ⟨h3, _, hrun3, ho3, fun q hq => ?_⟩
      cases hq
      exact List.mem_append_right _ (hf.root_mem (List.mem_singleton_self p))
  obtain ⟨h3, cells, hrun3, ho3, hmem⟩ := hargs
  obtain ⟨h', hfinish, hh', hgone⟩ := ho3.finish codec
  refine ⟨h', ?_, hh', fun p hp => hgone p (hmem p hp)⟩
  have hrun1 : jsonAppendMember h.next (str "api") (h.withNode (.object [])).next
    ((h.withNode (.object [])).withNode (.string request.apiName)) = .ok () h1 := hrun1
  have hrun2 : jsonAppendMember h.next (str "method") h1.next
    (h1.withNode (.string request.methodName)) = .ok () h2 := hrun2
  rw [codiusRequestToString, jsonMkobject, bind_ok (mknode_run _), jsonMkstring, bind_ok (mknode_run _),
    bind_ok hrun1, jsonMkstring, bind_ok (mknode_run _), bind_ok hrun2, bind_ok hrun3]
  exact hfinish

end

/-! ## The round trip -/

/-- A request's text, decoded, is the request again: its data is null if it was, and else a node that
is there and has the value. -/
def RoundTrips (codec : JsonCodec) (request : CodiusRequest) (args : Json) (s : Process) : Prop :=
  Returns (do
      let buf ← onHeap (codiusRequestToString codec request)
      codiusRequestFromString codec buf)
    (fun r t => r.apiName = request.apiName ∧ r.methodName = request.methodName ∧
      DataLives args r.data t.heap) s

section
variable {codec : JsonCodec} {request : CodiusRequest} {args : Json} {s : Process}

theorem requestFields_requestJson {api method : Str} {buf : Str}
    (hdec : codec.decode buf = some (requestJson api method args)) :
    requestFields codec buf = .ok (api, method, args) := by
  rw [requestFields, hdec]
  rfl

/-- What comes back is null, or a node that is freed. -/
theorem round_trip_run (codec : JsonCodec) (hh : s.heap.Fresh) (hdata : HoldsData s.heap request.data args)
    (hcodec : codec.decode (codec.encode (requestJson request.apiName request.methodName args)) =
      some (requestJson request.apiName request.methodName args)) :
    ∃ r t, (do
        let buf ← onHeap (codiusRequestToString codec request)
        codiusRequestFromString codec buf : ProcessM CodiusRequest) s = .ok r t ∧
      r.apiName = request.apiName ∧ r.methodName = request.methodName ∧ DataFreed args r.data t.heap := by
  obtain ⟨h', hto, hh', _⟩ := toString_run codec hh hdata
  have hfrom := fromString_run codec (codec.encode (requestJson request.apiName request.methodName args))
    (s := { s with heap := h' }) hh'
  rw [requestFields_requestJson hcodec] at hfrom
  rw [bind_ok (onHeap_ok hto)]
  obtain ⟨r, t, hrun, hapi, hmethod, hr, _⟩ := hfrom
  exact ⟨r, t, hrun, hapi, hmethod, hr⟩

theorem not_round_trips (hh : s.heap.Fresh) (hdata : HoldsData s.heap request.data args)
    (hcodec : codec.decode (codec.encode (requestJson request.apiName request.methodName args)) =
      some (requestJson request.apiName request.methodName args)) (hargs : args ≠ .null) :
    ¬ RoundTrips codec request args s := by
  obtain ⟨r, t, hrun, _, _, hr⟩ := round_trip_run codec hh hdata hcodec
  unfold RoundTrips
  rw [returns_ok hrun]
  exact fun h => hargs (hr.lives_iff.1 h.2.2)

theorem round_trips_iff (hh : s.heap.Fresh) (hdata : HoldsData s.heap request.data args)
    (hcodec : codec.decode (codec.encode (requestJson request.apiName request.methodName args)) =
      some (requestJson request.apiName request.methodName args)) :
    RoundTrips codec request args s ↔ args = .null := by
  constructor
  · intro h
    by_contra hargs
    exact not_round_trips hh hdata hcodec hargs h
  · intro hargs
    obtain ⟨r, t, hrun, hapi, hmethod, hr⟩ := round_trip_run codec hh hdata hcodec
    unfold RoundTrips
    rw [returns_ok hrun]
    exact ⟨hapi, hmethod, hr.lives_iff.2 hargs⟩

end

/-- A codec as far as one text goes. -/
def JsonCodec.on (text : Str) (j : Json) : JsonCodec :=
  ⟨fun _ => text, fun s => if s = text then some j else none⟩

theorem JsonCodec.on_decode (text : Str) (j k : Json) :
    (JsonCodec.on text j).decode ((JsonCodec.on text j).encode k) = some j := if_pos rfl

theorem Heap.fresh_empty : Heap.empty.Fresh := fun _ _ => rfl

theorem JsonCodec.on_decode_ne {text s : Str} (h : s ≠ text) (j : Json) :
    (JsonCodec.on text j).decode s = none := if_neg h

/-- The text of a request with a null, and its tree. -/
def nullRequest : JsonCodec :=
  .on (str "\x7b\"api\":\"a\",\"method\":\"m\",\"arguments\":null\x7d")
    (requestJson (str "a") (str "m") .null)

def trueRequest : JsonCodec :=
  .on (str "\x7b\"api\":\"a\",\"method\":\"m\",\"arguments\":true\x7d")
    (requestJson (str "a") (str "m") (.bool true))

/-- A request without data. -/
theorem round_trips_null :
    RoundTrips nullRequest ⟨str "a", str "m", none, 0, 0⟩ .null (.idle .empty) := by
  have hcodec : nullRequest.decode (nullRequest.encode (requestJson (str "a") (str "m") .null)) =
    some (requestJson (str "a") (str "m") .null) := JsonCodec.on_decode _ _ _
  have h : RoundTrips nullRequest ⟨str "a", str "m", none, 0, 0⟩ .null (.idle .empty) ↔
    Json.null = .null := round_trips_iff Heap.fresh_empty rfl hcodec
  rw [h]

/-- A request with the data `true`. -/
theorem data_freed_true :
    ¬ RoundTrips trueRequest ⟨str "a", str "m", some 1, 0, 0⟩ (.bool true)
      (.idle (Heap.empty.withNode (.bool true))) := by
  have hdata : HoldsData (Heap.empty.withNode (.bool true)) (some 1) (.bool true) :=
    ⟨_, (build_leaf (j := .bool true) Heap.fresh_empty rfl).1⟩
  have hcodec : trueRequest.decode (trueRequest.encode (requestJson (str "a") (str "m") (.bool true))) =
    some (requestJson (str "a") (str "m") (.bool true)) := JsonCodec.on_decode _ _ _
  exact not_round_trips (Heap.fresh_empty.withNode _) hdata hcodec Json.noConfusion

end CodiusSandbox
