import CodiusSandbox.JsonCheck
import CodiusSandbox.JsonEmitting
/-!
# The nodes of a decoded text

On the way to its answer `json_decode` calls the functions on nodes, so what it returns is linked as after any
calls, and `json_check` finds nothing wrong with it (`jsonDecode_checked`).
-/
namespace CodiusSandbox.JsonLinks

open JsonGrammar LinkedList TreeHeap Utf8 Wp
open JsonText (CString NumberLib Scanner derives_strings oneLib oneText)

section
variable {m m' : Memory} {h h' h'' : Heap} {parent : Option Nat} {ps cells : List Nat} {l : List (Option Str × Json)}
  {a p q : Ptr} {op : Op}

/-! ## Calls on the way -/

def Calls (h h' : Heap) : Prop :=
  ∃ (ops : List Op) (rets : List (Option Ptr)), (∀ op ∈ ops, op.Proper) ∧ ops.mapM OnLists.exec h = .ok rets h'

theorem Calls.refl (h : Heap) : Calls h h := ⟨[], [], by simp, rfl⟩

theorem Calls.trans (hc : Calls h h') (hc' : Calls h' h'') : Calls h h'' := by
  obtain ⟨ops, rets, hops, hrun⟩ := hc
  obtain ⟨ops', rets', hops', hrun'⟩ := hc'
  refine ⟨ops ++ ops', rets ++ rets', ?_, ?_⟩
  · intro op hop
    rcases List.mem_append.1 hop with hop | hop
    · exact hops op hop
    · exact hops' op hop
  · rw [List.mapM_append, bind_ok hrun, bind_ok hrun']
    rfl

theorem Calls.one (op : Op) {ret : Option Ptr} (hop : op.Proper) (hrun : OnLists.exec op h = .ok ret h') : Calls h h' := by
  refine ⟨[op], [ret], by simpa using hop, ?_⟩
  rw [List.mapM_cons, bind_ok hrun]
  rfl

theorem Calls.void (op : Op) {x : HeapM Unit} (hop : op.Proper) (hexec : OnLists.exec op = do x; return none)
    (hrun : x h = .ok () h') : Calls h h' := by
  apply Calls.one op hop
  rw [hexec, bind_ok hrun]
  rfl

theorem Calls.mknode (op : Op) {contents : JsonContents} (hop : op.Proper)
    (hexec : OnLists.exec op = some <$> CodiusSandbox.mknode contents) (h : Heap) : Calls h (h.withNode contents) := by
  apply Calls.one op hop
  rw [hexec]
  rfl

/-- The calls can be made on the links as well. -/
theorem Calls.sameRun (hc : Calls h h') (hs : SameRun m h) : ∃ m', SameRun m' h' := by
  obtain ⟨hr, -⟩ := hs.represents
  obtain ⟨ops, rets, hops, hrun⟩ := hc
  obtain ⟨ops₀, rets₀, hops₀, hlinks₀, hlists₀⟩ := hs
  have hall (op : Op) (hop : op ∈ ops₀ ++ ops) : op.Proper := by
    rcases List.mem_append.1 hop with hop | hop
    · exact hops₀ op hop
    · exact hops op hop
  have hout := execs_outcome hr hops
  rw [hrun] at hout
  cases hlinks : ops.mapM exec m with
  | error e m' =>
    rw [hlinks] at hout
    cases hout
  | ok rets' m' =>
    rw [hlinks] at hout
    cases hout with
    | ok hr' =>
      refine ⟨m', ops₀ ++ ops, rets₀ ++ rets, hall, ?_, ?_⟩
      · rw [List.mapM_append, bind_ok hlinks₀, bind_ok hlinks]
        rfl
      · rw [List.mapM_append, bind_ok hlists₀, bind_ok hrun]
        rfl

mutual

theorem build_calls (v : Json) (h : Heap) (hh : h.Fresh) (h0 : ∀ s ∈ v.strings, 0 ∉ s) {p : Ptr} {h' : Heap}
    (hrun : build v h = .ok p h') : Calls h h' := by
  cases v with
  | null =>
    obtain ⟨-, rfl⟩ := EStateM.Result.ok.inj hrun
    exact .mknode .mknull trivial rfl h
  | bool b =>
    obtain ⟨-, rfl⟩ := EStateM.Result.ok.inj hrun
    exact .mknode (.mkbool b) trivial rfl h
  | string s =>
    obtain ⟨-, rfl⟩ := EStateM.Result.ok.inj hrun
    exact .mknode (.mkstring s) (h0 s (by simp [Json.strings])) rfl h
  | number num =>
    obtain ⟨-, rfl⟩ := EStateM.Result.ok.inj hrun
    exact .mknode (.mknumber num) trivial rfl h
  | array elements =>
    rw [build, bind_ok (mknode_run _)] at hrun
    obtain ⟨_, _, helements, hret⟩ := of_bind_ok hrun
    obtain ⟨-, rfl⟩ := EStateM.Result.ok.inj hret
    exact (Calls.mknode .mkarray trivial rfl h).trans (buildElements_calls elements (h.withNode (.array []))
      (hh.withNode _) (withNode_nodes_next _) (fun s hs => h0 s (by rw [Json.strings]; exact hs)) helements)
  | object members =>
    rw [build, bind_ok (mknode_run _)] at hrun
    obtain ⟨_, _, hmembers, hret⟩ := of_bind_ok hrun
    obtain ⟨-, rfl⟩ := EStateM.Result.ok.inj hret
    exact (Calls.mknode .mkobject trivial rfl h).trans (buildMembers_calls members (h.withNode (.object []))
      (hh.withNode _) (withNode_nodes_next _) (fun s hs => h0 s (by rw [Json.strings]; exact hs)) hmembers)

theorem buildElements_calls (elements : List Json) (h : Heap) (hh : h.Fresh) {ret : Nat} {qs : List Nat}
    {parent : Option Nat} {key : Option Str} (hret : h.nodes ret = some ⟨parent, key, .array qs⟩)
    (h0 : ∀ s ∈ Json.elementStrings elements, 0 ∉ s) {h' : Heap} (hrun : buildElements ret elements h = .ok () h') :
    Calls h h' := by
  match elements with
  | [] =>
    obtain ⟨-, rfl⟩ := EStateM.Result.ok.inj hrun
    exact .refl h
  | v :: elements =>
    obtain ⟨p, cells, h₁, hbuild, hforest, hb⟩ := build_run v h hh
    have hne : ret ∉ cells := fun hc => Nat.not_lt_of_le (hb.new _ hc).1 (hh.lt hret)
    obtain ⟨h₂, happ, hatt⟩ := appendElement_run (h := h₁) (by rw [hb.kept _ (hh.lt hret), hret]) hforest hne
    rw [buildElements, bind_ok hbuild, bind_ok happ] at hrun
    have hrest := buildElements_calls elements h₂
      (hatt.fresh hb.fresh (hb.kept_lt hh hret) fun a ha => (hb.new a ha).2) hatt.parent
      (fun s hs => h0 s (by simp [Json.elementStrings, hs])) hrun
    refine (build_calls v h hh (fun s hs => h0 s (by simp [Json.elementStrings, hs])) hbuild).trans (.trans ?_ hrest)
    apply Calls.void (.appendElement ret p) _ rfl happ
    rintro rfl
    exact hne (hforest.root_mem (by simp))

theorem buildMembers_calls (members : List (Str × Json)) (h : Heap) (hh : h.Fresh) {ret : Nat} {qs : List Nat}
    {parent : Option Nat} {key : Option Str} (hret : h.nodes ret = some ⟨parent, key, .object qs⟩)
    (h0 : ∀ s ∈ Json.memberStrings members, 0 ∉ s) {h' : Heap} (hrun : buildMembers ret members h = .ok () h') :
    Calls h h' := by
  match members with
  | [] =>
    obtain ⟨-, rfl⟩ := EStateM.Result.ok.inj hrun
    exact .refl h
  | (name, v) :: members =>
    obtain ⟨p, cells, h₁, hbuild, hforest, hb⟩ := build_run v h hh
    have hne : ret ∉ cells := fun hc => Nat.not_lt_of_le (hb.new _ hc).1 (hh.lt hret)
    obtain ⟨h₂, happ, hatt⟩ := appendMember_run (h := h₁) name (by rw [hb.kept _ (hh.lt hret), hret]) hforest hne
    rw [buildMembers, bind_ok hbuild, bind_ok happ] at hrun
    have hrest := buildMembers_calls members h₂
      (hatt.fresh hb.fresh (hb.kept_lt hh hret) fun a ha => (hb.new a ha).2) hatt.parent
      (fun s hs => h0 s (by simp [Json.memberStrings, hs])) hrun
    refine (build_calls v h hh (fun s hs => h0 s (by simp [Json.memberStrings, hs])) hbuild).trans (.trans ?_ hrest)
    apply Calls.void (.appendMember ret name p) _ rfl happ
    refine ⟨?_, h0 name (by simp [Json.memberStrings])⟩
    rintro rfl
    exact hne (hforest.root_mem (by simp))

end

/-! ## The text of a tree -/

theorem elementStrings_mem {elements : List Json} {v : Json} (hv : v ∈ elements) {s : Str} (hs : s ∈ v.strings) :
    s ∈ Json.elementStrings elements := by
  induction elements with
  | nil => cases hv
  | cons w elements ih =>
    rw [Json.elementStrings, List.mem_append]
    rcases List.mem_cons.1 hv with rfl | hv
    · exact .inl hs
    · exact .inr (ih hv)

theorem memberStrings_mem {members : List (Str × Json)} {e : Str × Json} (he : e ∈ members) :
    e.1 ∈ Json.memberStrings members ∧ ∀ s ∈ e.2.strings, s ∈ Json.memberStrings members := by
  induction members with
  | nil => cases he
  | cons f members ih =>
    obtain ⟨key, v⟩ := f
    rw [Json.memberStrings]
    rcases List.mem_cons.1 he with rfl | he
    · exact ⟨by simp, fun s hs => by simp [hs]⟩
    · obtain ⟨hkey, hstrings⟩ := ih he
      exact ⟨by simp [hkey], fun s hs => by simp [hstrings s hs]⟩

/-- The keys and the strings of children are among those of the value. -/
theorem children_strings {v : Json} {e : Option Str × Json} (he : e ∈ v.children) :
    (∀ k, e.1 = some k → k ∈ v.strings) ∧ ∀ s ∈ e.2.strings, s ∈ v.strings := by
  cases v with
  | array elements =>
    obtain ⟨w, hw, rfl⟩ := List.mem_map.1 he
    refine ⟨by simp, fun s hs => ?_⟩
    rw [Json.strings]
    exact elementStrings_mem hw hs
  | object members =>
    obtain ⟨f, hf, rfl⟩ := List.mem_map.1 he
    obtain ⟨hkey, hstrings⟩ := memberStrings_mem hf
    rw [Json.strings]
    refine ⟨fun k hk => ?_, hstrings⟩
    obtain rfl := Option.some.inj hk
    exact hkey
  | _ => cases he

theorem forest_textOk {nodes : Store JsonContents (Option Str)} (hf : Forest nodes parent ps l cells)
    (hl : ∀ e ∈ l, (∀ k, e.1 = some k → IsUtf8 k) ∧ ∀ s ∈ e.2.strings, IsUtf8 s) :
    ∀ a ∈ cells, ∀ n, nodes a = some n → TextOk n := by
  induction hf with
  | nil => simp
  | @cons parent p key v ps qs cells below l root kids rest free apart ihk ihr =>
    obtain ⟨hkey, hstrings⟩ := hl (key, v) (by simp)
    intro a ha n hn
    rcases List.mem_cons.1 ha with rfl | ha
    · rw [root] at hn
      obtain rfl := Option.some.inj hn
      refine ⟨hkey, fun s hs => hstrings s ?_⟩
      cases v with
      | string s' =>
        obtain rfl := JsonContents.string.inj hs
        simp [Json.strings]
      | _ => cases hs
    · rcases List.mem_append.1 ha with ha | ha
      · apply ihk _ a ha n hn
        intro e he
        obtain ⟨hkeys, hrest⟩ := children_strings he
        exact ⟨fun k hk => hstrings k (hkeys k hk), fun s hs => hstrings s (hrest s hs)⟩
      · exact ihr (fun e he => hl e (by simp [he])) a ha n hn

/-- What hangs from a cell of a tree is one too. -/
theorem forest_kids {nodes : Store JsonContents (Option Str)} (hf : Forest nodes parent ps l cells) :
    ∀ q ∈ cells, ∀ n, nodes q = some n → ∀ a ∈ n.contents.children, a ∈ cells := by
  induction hf with
  | nil => simp
  | @cons parent p key v ps qs cells below l root kids rest free apart ihk ihr =>
    intro q hq n hn a ha
    rcases List.mem_cons.1 hq with rfl | hq
    · rw [root] at hn
      obtain rfl := Option.some.inj hn
      rw [show (Layout.contents v qs : JsonContents).children = qs from
        contents_children v qs kids.length_eq.symm] at ha
      have hbelow := kids.root_mem ha
      simp [hbelow]
    · rcases List.mem_append.1 hq with hq | hq
      · have hmem := ihk q hq n hn a ha
        simp [hmem]
      · have hmem := ihr q hq n hn a ha
        simp [hmem]

theorem forest_below (hf : Forest h.nodes parent ps l cells) (hr : Represents m h) (hp : p ∈ cells) (hb : Below h p a) :
    a ∈ cells := by
  induction hb with
  | refl => exact hp
  | @tail q a hq hqa ih =>
    have hmem := (hr.hung a q).1 hqa
    obtain ⟨n, hn⟩ := live_of_mem_kidsOf hmem
    rw [kidsOf_some hn] at hmem
    exact forest_kids hf q ih n hn a hmem

/-! ## `json_decode` and `json_check` -/

/-- `json_check` has nothing to say about what `json_decode` returned. -/
theorem jsonDecode_checked (lib : NumberLib) {json : CString} {t : Scanner} (hs : SameRun m h)
    (hrun : JsonText.jsonDecode lib ⟨json.memory, h⟩ = .ok (some p) t) :
    ∃ m', SameRun m' t.heap ∧ jsonCheck m'.fresh p m' = .ok none m' := by
  obtain ⟨hr, -⟩ := hs.represents
  rcases JsonText.jsonDecode_run lib json hr.fresh with ⟨v, p', t', hrun', hv, hbuild⟩ | ⟨t', hrun', -⟩
  · rw [hrun] at hrun'
    obtain ⟨hp, rfl⟩ := EStateM.Result.ok.inj hrun'
    obtain rfl := Option.some.inj hp
    obtain ⟨_, _, _, -, -, hd, -⟩ := hv.parts
    have hstrings : ∀ s ∈ v.strings, IsUtf8 s ∧ 0 ∉ s := derives_strings hd
    obtain ⟨m', hs'⟩ := (build_calls v h hr.fresh (fun s hs => (hstrings s hs).2) hbuild).sameRun hs
    obtain ⟨hr', hl'⟩ := hs'.represents
    obtain ⟨q, cells, h', hbuild', hf, -⟩ := build_run v h hr.fresh
    rw [hbuild] at hbuild'
    obtain ⟨rfl, rfl⟩ := EStateM.Result.ok.inj hbuild'
    obtain ⟨_, _, hroot, -, -, rfl⟩ := forest_singleton.1 hf
    obtain ⟨r, hcheck, hverdict⟩ := jsonCheck_ends hr' hl' hroot fun q hq => by
      rw [parentOf_some hroot] at hq
      cases hq
    have htext : TextBelow t.heap p := fun a n hb hn =>
      forest_textOk hf (by simpa using fun s hs => (hstrings s hs).1) a (forest_below hf hr' (by simp) hb) n hn
    rw [hverdict.1.2 htext] at hcheck
    exact ⟨m', hs', hcheck⟩
  · rw [hrun] at hrun'
    cases hrun'

theorem jsonDecode_checked_one : ∃ t m', JsonText.jsonDecode oneLib ⟨oneText.memory, .empty⟩ = .ok (some 1) t ∧
    SameRun m' t.heap ∧ jsonCheck m'.fresh 1 m' = .ok none m' := by
  have hrun : JsonText.jsonDecode oneLib ⟨oneText.memory, .empty⟩ = .ok (some 1) _ := rfl
  have hempty : SameRun .empty .empty := ⟨[], [], by simp, rfl, rfl⟩
  obtain ⟨m', hchecked⟩ := jsonDecode_checked oneLib hempty hrun
  exact ⟨_, m', hrun, hchecked⟩

end

end CodiusSandbox.JsonLinks
