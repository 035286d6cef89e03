import CodiusSandbox.Json
import Mathlib.Data.List.Forall2
/-!
# What the functions on JSON nodes do to a tree in the heap

Each is described on a `Forest`: reading gives the value and changes nothing, appending hangs a tree
below another node, deleting frees its cells and no others, decoding lays out a fresh tree.
-/
namespace CodiusSandbox

open TreeHeap Wp

variable {h : Heap} {parent : Option Nat} {ps qs cells below : List Nat} {l : List (Option Str × Json)}
  {p ret : Nat} {key : Option Str} {j : Json} {name : Str}

theorem deref_ok {node : JsonNode} (hp : h.nodes p = some node) : deref p h = .ok node h := by
  simp only [deref, hp]

theorem deref_freed (hp : h.nodes p = none) : deref p h = .error .useAfterFree h := by
  simp only [deref, hp]

/-! ## Reading -/

theorem mapM_ok {ε σ α β : Type} {f : α → EStateM ε σ β} {s : σ} {as : List α} {bs : List β}
    (hf : List.Forall₂ (fun a b => f a s = .ok b s) as bs) : as.mapM f s = .ok bs s := by
  induction hf with
  | nil => rfl
  | cons hab _ ih =>
    rw [List.mapM_cons, bind_ok hab, bind_ok ih]
    rfl

/-- With fuel for its cells, a forest reads as its values. -/
theorem readValue_forest (hf : Forest h.nodes parent ps l cells) :
    ∀ fuel, cells.length ≤ fuel → List.Forall₂ (fun p e =>
      readValue fuel p h = .ok e.2 h ∧ ∃ node, h.nodes p = some node ∧ node.key = e.1) ps l := by
  induction hf with
  | nil => exact fun _ _ => .nil
  | @cons parent p key j ps qs cells below l root kids rest free apart ihk ihr =>
    intro fuel hfuel
    simp only [List.length_cons, List.length_append] at hfuel
    refine .cons ⟨?_, _, root, rfl⟩ (ihr fuel (by omega))
    obtain ⟨fuel, rfl⟩ : ∃ n, fuel = n + 1 := ⟨fuel - 1, by omega⟩
    have hkids := ihk fuel (by omega)
    rw [readValue, bind_ok (deref_ok root)]
    cases j with
    | null => rfl
    | bool b => rfl
    | string s => rfl
    | number bits => rfl
    | array elements =>
      have hread : qs.mapM (readValue fuel) h = .ok elements h := by
        refine mapM_ok ?_
        have hmap := List.forall₂_map_right_iff.1 (show List.Forall₂ _ qs (elements.map _) from hkids)
        exact hmap.imp fun _ _ hab => hab.1
      dsimp only [Layout.contents, Json.contents]
      rw [bind_ok hread]
      rfl
    | object members =>
      dsimp only [Layout.contents, Json.contents]
      rw [bind_ok (mapM_ok ?_)]
      · rfl
      · have hmap := List.forall₂_map_right_iff.1 (show List.Forall₂ _ qs (members.map _) from hkids)
        refine hmap.imp fun q e hab => ?_
        obtain ⟨hread, node, hnode, hkey⟩ := hab
        rw [bind_ok (deref_ok hnode), hkey]
        dsimp only
        rw [bind_ok hread]
        rfl

/-- `json_encode` of a tree in the heap is the text of its value. -/
theorem jsonEncode_forest {codec : JsonCodec} (hf : Forest h.nodes parent [p] [(key, j)] cells)
    (hnext : cells.length ≤ h.next) : jsonEncode codec (some p) h = .ok (codec.encode j) h := by
  cases readValue_forest hf h.next hnext with
  | cons hread _ =>
    rw [jsonEncode, bind_get, bind_ok hread.1]
    rfl

/-! ## Lookup -/

/-- The first member of that name, if the value is an object that has one. -/
def Json.member (name : Str) : Json → Option Json
  | .object members => members.lookup name
  | _ => none

/-- `r` is null when there is no member, and else its node, one of `cells`. -/
def Found (h : Heap) (parent : Option Nat) (name : Str) (cells : List Nat) (r : Option Nat) :
    Option Json → Prop
  | none => r = none
  | some v => ∃ q cs, r = some q ∧ q ∈ cells ∧ h.nodes q = some ⟨parent, some name, v.contents cs⟩

theorem findMember_forest (name : Str) {members : List (Str × Json)}
    (hf : Forest h.nodes parent qs (members.map fun e => (some e.1, e.2)) cells) :
    ∃ r, findMember name qs h = .ok r h ∧ Found h parent name qs r (members.lookup name) := by
  induction members generalizing qs cells with
  | nil =>
    cases hf
    exact ⟨none, rfl, rfl⟩
  | cons e members ih =>
    obtain ⟨k, v⟩ := e
    cases hf with
    | @cons _ q _ _ qs cs _ _ _ root kids rest free apart =>
      rw [findMember, bind_ok (deref_ok root)]
      dsimp only
      by_cases hk : k = name
      · subst hk
        rw [if_pos rfl, List.lookup_cons_self]
        exact ⟨some q, rfl, q, cs, rfl, by simp, root⟩
      · rw [if_neg hk, List.lookup_cons, beq_eq_false_iff_ne.2 (Ne.symm hk)]
        obtain ⟨r, hr, hm⟩ := ih rest
        refine ⟨r, hr, ?_⟩
        dsimp only
        unfold Found at hm ⊢
        cases hl : members.lookup name with
        | none =>
          rw [hl] at hm
          exact hm
        | some v =>
          rw [hl] at hm
          obtain ⟨p, cs, hp, hmem, hnode⟩ := hm
          exact ⟨p, cs, hp, List.mem_cons_of_mem _ hmem, hnode⟩

/-! ## Removal -/

/-- The nodes in `cells` are gone, `q` is there in some form, and nothing else has changed. -/
structure Freed (h h' : Heap) (q : Nat) (cells : List Nat) : Prop where
  next : h'.next = h.next
  gone : ∀ a ∈ cells, h'.nodes a = none
  here : (h'.nodes q).isSome = true
  kept : ∀ a, a ≠ q → a ∉ cells → h'.nodes a = h.nodes a

theorem removeFromParent_run {q : Nat} {node parentNode : JsonNode} (hp : h.nodes p = some node)
    (hpar : node.parent = some q) (hq : h.nodes q = some parentNode) (hne : p ≠ q) :
    ∃ h', jsonRemoveFromParent p h = .ok () h' ∧ h'.next = h.next ∧
      h'.nodes p = some { node with parent := none, key := none } ∧ (h'.nodes q).isSome = true ∧
      ∀ a, a ≠ p → a ≠ q → h'.nodes a = h.nodes a := by
  rw [jsonRemoveFromParent, bind_ok (deref_ok hp), hpar]
  dsimp only
  rw [bind_ok (deref_ok hq)]
  refine ⟨_, rfl, rfl, ?_, ?_, ?_⟩
  · simp
  · simp [Function.update_of_ne (Ne.symm hne)]
  · intro a hap haq
    simp [Function.update_of_ne hap, Function.update_of_ne haq]

theorem removeFromParent_root {node : JsonNode} (hp : h.nodes p = some node)
    (hpar : node.parent = none) : jsonRemoveFromParent p h = .ok () h := by
  rw [jsonRemoveFromParent, bind_ok (deref_ok hp), hpar]
  rfl

theorem contents_children (j : Json) (cs : List Nat) (hcs : j.children.length = cs.length) :
    (j.contents cs).children = cs := by
  cases j with
  | array elements => rfl
  | object members => rfl
  | null => exact (List.length_eq_zero_iff.1 hcs.symm).symm
  | bool b => exact (List.length_eq_zero_iff.1 hcs.symm).symm
  | string s => exact (List.length_eq_zero_iff.1 hcs.symm).symm
  | number bits => exact (List.length_eq_zero_iff.1 hcs.symm).symm

/-- Deleting a node, given how the loop over its children goes. -/
theorem deleteNode_step {fuel : Nat} {node : JsonNode} {h1 h2 : Heap}
    (hrem : jsonRemoveFromParent p h = .ok () h1) (hp : h1.nodes p = some node)
    (hloop : node.contents.children.forM (deleteNode fuel) h1 = .ok () h2) :
    deleteNode (fuel + 1) p h = .ok () { h2 with nodes := Function.update h2.nodes p none } := by
  rw [deleteNode, bind_ok hrem, bind_ok (deref_ok hp), bind_ok hloop]
  rfl

/-- The loop over the children of `q` frees their cells. `m` is the store before the loop. -/
theorem deleteNodes_run {m : Store JsonContents (Option Str)} (hf : Forest m parent ps l cells) :
    ∀ (q : Nat), parent = some q → q ∉ cells → ∀ fuel, cells.length ≤ fuel → ∀ h : Heap,
      (∀ a ∈ cells, h.nodes a = m a) → (h.nodes q).isSome = true →
      ∃ h', ps.forM (deleteNode fuel) h = .ok () h' ∧ Freed h h' q cells := by
  induction hf with
  | nil =>
    intro q _ _ fuel _ h _ hq
    exact ⟨h, rfl, rfl, by simp, hq, fun _ _ _ => rfl⟩
  | @cons parent p key j ps qs cells below l root kids rest free apart ihk ihr =>
    intro q hpar hqc fuel hfuel h hagree hq
    subst hpar
    simp only [List.mem_cons, List.mem_append, not_or] at hqc free
    simp only [List.length_cons, List.length_append] at hfuel
    obtain ⟨fuel, rfl⟩ : ∃ n, fuel = n + 1 := ⟨fuel - 1, by omega⟩
    obtain ⟨parentNode, hqn⟩ := Option.isSome_iff_exists.1 hq
    have hp : h.nodes p = some ⟨some q, key, Json.contents j qs⟩ := by
      rw [hagree p (by simp)]
      exact root
    -- `p` is unlinked, then its own children go, then `p`, then its later siblings
    obtain ⟨h1, hrem, hnext1, hp1, hq1, hkept1⟩ := removeFromParent_run hp rfl hqn (Ne.symm hqc.1)
    have hbelow1 : ∀ a ∈ below, h1.nodes a = m a := by
      intro a ha
      have hap : a ≠ p := fun he => free.1 (he ▸ ha)
      have haq : a ≠ q := fun he => hqc.2.1 (he ▸ ha)
      rw [hkept1 a hap haq, hagree a (by simp [ha])]
    obtain ⟨h2, hloop, hfreed⟩ := ihk p rfl free.1 fuel (by omega) h1 hbelow1 (by rw [hp1]; rfl)
    have hlen : (Json.children j).length = qs.length := kids.length_eq.symm
    have hstep := deleteNode_step hrem hp1
      (by dsimp only; rw [contents_children j qs hlen]; exact hloop)
    have hcells : ∀ a ∈ cells, Function.update h2.nodes p none a = m a := by
      intro a ha
      have hap : a ≠ p := fun he => free.2 (he ▸ ha)
      have haq : a ≠ q := fun he => hqc.2.2 (he ▸ ha)
      have hab : a ∉ below := fun hb => apart hb ha
      rw [Function.update_of_ne hap, hfreed.kept a hap hab, hkept1 a hap haq, hagree a (by simp [ha])]
    have hq2 : (Function.update h2.nodes p none q).isSome = true := by
      rw [Function.update_of_ne hqc.1, hfreed.kept q hqc.1 hqc.2.1]
      exact hq1
    obtain ⟨h3, hrest, hfreed3⟩ := ihr q rfl hqc.2.2 (fuel + 1) (by omega)
      { h2 with nodes := Function.update h2.nodes p none } hcells hq2
    refine ⟨h3, ?_, ?_, ?_, hfreed3.here, ?_⟩
    · have hcons : (p :: ps).forM (deleteNode (fuel + 1)) =
          (deleteNode (fuel + 1) p >>= fun _ => ps.forM (deleteNode (fuel + 1))) := rfl
      rw [hcons, bind_ok hstep]
      exact hrest
    · rw [hfreed3.next]
      exact hfreed.next.trans hnext1
    · intro a ha
      by_cases hac : a ∈ cells
      · exact hfreed3.gone a hac
      · have haq : a ≠ q := by
          rintro rfl
          rcases List.mem_cons.1 ha with he | ha
          · exact hqc.1 he
          · rcases List.mem_append.1 ha with hb | hc
            · exact hqc.2.1 hb
            · exact hac hc
        rw [hfreed3.kept a haq hac]
        dsimp only
        by_cases hap : a = p
        · rw [hap, Function.update_self]
        · rw [Function.update_of_ne hap]
          simp only [List.mem_cons, hap, List.mem_append, hac, or_false, false_or] at ha
          exact hfreed.gone a ha
    · intro a haq ha
      simp only [List.mem_cons, List.mem_append, not_or] at ha
      rw [hfreed3.kept a haq ha.2.2]
      dsimp only
      rw [Function.update_of_ne ha.1, hfreed.kept a ha.1 ha.2.1, hkept1 a ha.1 haq]

/-- `json_delete` of a whole tree frees its nodes and no others. -/
theorem jsonDelete_root (hf : Forest h.nodes none [p] [(key, j)] cells) (hnext : cells.length ≤ h.next) :
    ∃ h', jsonDelete (some p) h = .ok () h' ∧ h'.next = h.next ∧
      (∀ a ∈ cells, h'.nodes a = none) ∧ ∀ a, a ∉ cells → h'.nodes a = h.nodes a := by
  obtain ⟨qs, below, root, kids, hp, rfl⟩ := forest_singleton.1 hf
  simp only [List.length_cons] at hnext
  obtain ⟨fuel, hfuel⟩ : ∃ n, h.next = n + 1 := ⟨h.next - 1, by omega⟩
  obtain ⟨h1, hloop, hfreed⟩ := deleteNodes_run kids p rfl hp fuel (by omega) h (fun _ _ => rfl)
    (by rw [root]; rfl)
  have hlen : (Json.children j).length = qs.length := kids.length_eq.symm
  have hstep := deleteNode_step (removeFromParent_root root rfl) root
    (by dsimp only [Layout.contents]; rw [contents_children j qs hlen]; exact hloop)
  refine ⟨{ h1 with nodes := Function.update h1.nodes p none }, ?_, hfreed.next, ?_, ?_⟩
  · rw [jsonDelete, bind_get, hfuel]
    exact hstep
  · intro a ha
    by_cases hap : a = p
    · rw [hap]
      exact Function.update_self ..
    · dsimp only
      rw [Function.update_of_ne hap]
      exact hfreed.gone a ((List.mem_cons.1 ha).resolve_left hap)
  · intro a ha
    simp only [List.mem_cons, not_or] at ha
    dsimp only
    rw [Function.update_of_ne ha.1]
    exact hfreed.kept a ha.1 ha.2

/-! ## Construction -/

/-- Nothing lies where the next nodes go. -/
def Heap.Fresh (h : Heap) : Prop := ∀ a, h.next ≤ a → h.nodes a = none

theorem Forest.lt_next (hf : Forest h.nodes parent ps l cells) (hh : h.Fresh) : ∀ a ∈ cells, a < h.next := by
  intro a ha
  have hlive := hf.live ha
  rcases Nat.lt_or_ge a h.next with hlt | hge
  · exact hlt
  · rw [hh a hge] at hlive
    cases hlive

/-- The tree at `p`, with the cells `cells`, now hangs below `ret`. -/
structure Attached (h h' : Heap) (ret : Nat) (node : JsonNode) (p : Nat) (key : Option Str) (j : Json)
    (cells : List Nat) : Prop where
  next : h'.next = h.next
  parent : h'.nodes ret = some node
  child : Forest h'.nodes (some ret) [p] [(key, j)] cells
  kept : ∀ a, a ≠ ret → a ∉ cells → h'.nodes a = h.nodes a

theorem appendNode_run {node child : JsonNode} (hret : h.nodes ret = some node)
    (hp : h.nodes p = some child) (hne : ret ≠ p) :
    ∃ h', appendNode ret p h = .ok () h' ∧ h'.next = h.next ∧
      h'.nodes ret = some { node with
        contents := node.contents.withChildren (node.contents.children ++ [p]) } ∧
      h'.nodes p = some { child with parent := some ret } ∧
      ∀ a, a ≠ ret → a ≠ p → h'.nodes a = h.nodes a := by
  have hret' : Function.update h.nodes p (some { child with parent := some ret }) ret = some node := by
    rw [Function.update_of_ne hne, hret]
  rw [appendNode, bind_ok (deref_ok hp), store, bind_modify, bind_ok (deref_ok hret')]
  refine ⟨_, rfl, rfl, ?_, ?_, ?_⟩
  · exact Function.update_self ..
  · dsimp only
    rw [Function.update_of_ne (Ne.symm hne)]
    exact Function.update_self ..
  · intro a har hap
    dsimp only
    rw [Function.update_of_ne har, Function.update_of_ne hap]

theorem appendElement_run {pr : Option Nat} {kr : Option Str}
    (hret : h.nodes ret = some ⟨pr, kr, .array qs⟩) (hf : Forest h.nodes none [p] [(none, j)] cells)
    (hne : ret ∉ cells) : ∃ h', jsonAppendElement ret p h = .ok () h' ∧
      Attached h h' ret ⟨pr, kr, .array (qs ++ [p])⟩ p none j cells := by
  obtain ⟨cs, below, root, kids, hp, hcells⟩ := forest_singleton.1 hf
  have hrp : ret ≠ p := fun he => hne (by rw [hcells, he]; simp)
  obtain ⟨h', hrun, hnext, hret', hp', hkept⟩ := appendNode_run hret root hrp
  refine ⟨h', ?_, hnext, hret', hf.hang root hp' ?_, ?_⟩
  · rw [jsonAppendElement, bind_ok (deref_ok hret)]
    dsimp only
    rw [bind_ok (deref_ok root), if_pos rfl]
    exact hrun
  · intro a ha hap
    exact hkept a (fun he => hne (he ▸ ha)) hap
  · intro a har ha
    exact hkept a har fun he => ha (by rw [hcells, he]; simp)

theorem appendMember_run (name : Str) {pr : Option Nat} {kr : Option Str}
    (hret : h.nodes ret = some ⟨pr, kr, .object qs⟩) (hf : Forest h.nodes none [p] [(none, j)] cells)
    (hne : ret ∉ cells) : ∃ h', jsonAppendMember ret name p h = .ok () h' ∧
      Attached h h' ret ⟨pr, kr, .object (qs ++ [p])⟩ p (some name) j cells := by
  obtain ⟨cs, below, root, kids, hp, hcells⟩ := forest_singleton.1 hf
  have hrp : ret ≠ p := fun he => hne (by rw [hcells, he]; simp)
  -- `append_member` writes the key first
  have hroot : Function.update h.nodes p (some ⟨none, some name, Json.contents j cs⟩) p =
      some ⟨none, some name, Json.contents j cs⟩ := Function.update_self ..
  have hret' : Function.update h.nodes p (some ⟨none, some name, Json.contents j cs⟩) ret =
      some ⟨pr, kr, .object qs⟩ := by rw [Function.update_of_ne hrp, hret]
  obtain ⟨h', hrun, hnext, hretn, hp', hkept⟩ :=
    appendNode_run (h := { h with nodes := Function.update h.nodes p _ }) hret' hroot hrp
  refine ⟨h', ?_, hnext, hretn, hf.hang root hp' ?_, ?_⟩
  · rw [jsonAppendMember, bind_ok (deref_ok hret)]
    dsimp only
    rw [bind_ok (deref_ok root)]
    dsimp only
    rw [if_pos rfl, store, bind_modify]
    exact hrun
  · intro a ha hap
    rw [hkept a (fun he => hne (he ▸ ha)) hap]
    exact Function.update_of_ne hap ..
  · intro a har ha
    have hap : a ≠ p := fun he => ha (by rw [hcells, he]; simp)
    rw [hkept a har hap]
    exact Function.update_of_ne hap ..

/-! ## Decoding -/

/-- What was there is as it was, and the new nodes are `cells`. -/
structure Built (h h' : Heap) (cells : List Nat) : Prop where
  count : h'.next = h.next + cells.length
  kept : ∀ a < h.next, h'.nodes a = h.nodes a
  fresh : h'.Fresh
  new : ∀ a ∈ cells, h.next ≤ a ∧ a < h'.next

/-- New nodes `cells` below `ret`, which has become `node`. -/
structure Filled (h h' : Heap) (ret : Nat) (node : JsonNode) (ps : List Nat)
    (l : List (Option Str × Json)) (cells : List Nat) : Prop where
  count : h'.next = h.next + cells.length
  parent : h'.nodes ret = some node
  kids : Forest h'.nodes (some ret) ps l cells
  kept : ∀ a < h.next, a ≠ ret → h'.nodes a = h.nodes a
  fresh : h'.Fresh
  new : ∀ a ∈ cells, h.next ≤ a ∧ a < h'.next

theorem Heap.Fresh.lt {node : JsonNode} (hh : h.Fresh) (hp : h.nodes p = some node) : p < h.next := by
  rcases Nat.lt_or_ge p h.next with hlt | hge
  · exact hlt
  · rw [hh p hge] at hp
    cases hp

theorem Filled.nil {node : JsonNode} (hh : h.Fresh) (hret : h.nodes ret = some node) :
    Filled h h ret node [] [] [] :=
  ⟨rfl, hret, .nil, fun _ _ _ => rfl, hh, by simp⟩

theorem Built.kept_lt {h' : Heap} {node : JsonNode} (hb : Built h h' cells) (hh : h.Fresh)
    (hp : h.nodes p = some node) : p < h'.next := by
  have := hh.lt hp
  have := hb.count
  omega

/-- Hanging a tree below a node there is needs no new address. -/
theorem Attached.fresh {h' : Heap} {node : JsonNode} (ha : Attached h h' ret node p key j cells)
    (hh : h.Fresh) (hret : ret < h.next) (hlt : ∀ a ∈ cells, a < h.next) : h'.Fresh := by
  intro a hle
  rw [ha.next] at hle
  have hac : a ∉ cells := by
    intro hc
    have := hlt a hc
    omega
  rw [ha.kept a (by omega) hac]
  exact hh a hle

/-- One child more in front. -/
theorem Filled.cons {h1 h2 h' : Heap} {node node' node0 : JsonNode} {cells' : List Nat}
    (hh : h.Fresh) (hret : h.nodes ret = some node0) (hb : Built h h1 cells)
    (ha : Attached h1 h2 ret node p key j cells) (hf : Filled h2 h' ret node' ps l cells') :
    Filled h h' ret node' (p :: ps) ((key, j) :: l) (cells ++ cells') := by
  have hlt := hh.lt hret
  have hnext := ha.next
  refine ⟨?_, hf.parent, ?_, ?_, hf.fresh, ?_⟩
  · rw [hf.count, ha.next, hb.count, List.length_append, Nat.add_assoc]
  · have hchild : Forest h'.nodes (some ret) [p] [(key, j)] cells := by
      refine ha.child.congr fun a hac => hf.kept a ?_ ?_
      · have := hb.new a hac
        omega
      · have := hb.new a hac
        omega
    refine hchild.append hf.kids fun a hac hac' => ?_
    have hold := hb.new a hac
    have hnew := hf.new a hac'
    omega
  · intro a hlt' hne
    have hac : a ∉ cells := fun hac => by
      have := hb.new a hac
      omega
    rw [hf.kept a (by have := hb.count; omega) hne, ha.kept a hne hac, hb.kept a hlt']
  · intro a hac
    have hcount := hb.count
    have hcount' := hf.count
    rcases List.mem_append.1 hac with hac | hac
    · have := hb.new a hac
      omega
    · have := hf.new a hac
      omega

/-- One node more. -/
def Heap.withNode (h : Heap) (contents : JsonContents) : Heap :=
  { nodes := Function.update h.nodes h.next (some ⟨none, none, contents⟩), next := h.next + 1 }

theorem mknode_run (contents : JsonContents) : mknode contents h = .ok h.next (h.withNode contents) := rfl

@[simp] theorem withNode_next (contents : JsonContents) : (h.withNode contents).next = h.next + 1 := rfl

@[simp] theorem withNode_nodes_next (contents : JsonContents) :
    (h.withNode contents).nodes h.next = some ⟨none, none, contents⟩ := Function.update_self ..

theorem withNode_kept (contents : JsonContents) {a : Nat} (ha : a ≠ h.next) :
    (h.withNode contents).nodes a = h.nodes a := Function.update_of_ne ha ..

theorem Heap.Fresh.withNode (hh : h.Fresh) (contents : JsonContents) : (h.withNode contents).Fresh := by
  intro a ha
  rw [withNode_next] at ha
  rw [withNode_kept contents (by omega)]
  exact hh a (by omega)

/-- A new node, filled, is a new tree. -/
theorem Filled.root {h' : Heap} {contents : JsonContents}
    (hf : Filled (h.withNode contents) h' h.next ⟨none, none, Json.contents j ps⟩ ps j.children cells) :
    Forest h'.nodes none [h.next] [(none, j)] (h.next :: cells) ∧ Built h h' (h.next :: cells) := by
  have hnew := hf.new
  have hcount := hf.count
  rw [withNode_next] at hcount
  simp only [withNode_next] at hnew
  have hnot : h.next ∉ cells := by
    intro hc
    have := hnew _ hc
    omega
  refine ⟨forest_singleton.2 ⟨ps, cells, hf.parent, hf.kids, hnot, rfl⟩, ?_, ?_, hf.fresh, ?_⟩
  · rw [hcount, List.length_cons]
    omega
  · intro a ha
    rw [hf.kept a (by rw [withNode_next]; omega) (by omega), withNode_kept contents (by omega)]
  · intro a ha
    rcases List.mem_cons.1 ha with rfl | ha
    · omega
    · have := hnew a ha
      omega

/-- A value without children is one node. -/
theorem build_leaf (hh : h.Fresh) (hj : j.children = []) :
    Forest (h.withNode (j.contents [])).nodes none [h.next] [(none, j)] [h.next] ∧
      Built h (h.withNode (j.contents [])) [h.next] := by
  have hf : Filled (h.withNode (j.contents [])) (h.withNode (j.contents [])) h.next
      ⟨none, none, j.contents []⟩ [] j.children [] := by
    rw [hj]
    exact .nil (hh.withNode _) (withNode_nodes_next _)
  exact hf.root

mutual

/-- `parse_value` lays out the value in new nodes. -/
theorem build_run (j : Json) (h : Heap) (hh : h.Fresh) : ∃ p cells h', build j h = .ok p h' ∧
    Forest h'.nodes none [p] [(none, j)] cells ∧ Built h h' cells := by
  cases j with
  | null => exact ⟨_, _, _, rfl, build_leaf (j := .null) hh rfl⟩
  | bool b => exact ⟨_, _, _, rfl, build_leaf (j := .bool b) hh rfl⟩
  | string s => exact ⟨_, _, _, rfl, build_leaf (j := .string s) hh rfl⟩
  | number bits => exact ⟨_, _, _, rfl, build_leaf (j := .number bits) hh rfl⟩
  | array elements =>
    obtain ⟨ps, cells, h', hrun, hfill⟩ := buildElements_run elements (h.withNode (.array []))
      (hh.withNode _) (withNode_nodes_next _)
    refine ⟨h.next, _, h', ?_, Filled.root (j := .array elements) hfill⟩
    rw [build, bind_ok (mknode_run _), bind_ok hrun]
    rfl
  | object members =>
    obtain ⟨ps, cells, h', hrun, hfill⟩ := buildMembers_run members (h.withNode (.object []))
      (hh.withNode _) (withNode_nodes_next _)
    refine ⟨h.next, _, h', ?_, Filled.root (j := .object members) hfill⟩
    rw [build, bind_ok (mknode_run _), bind_ok hrun]
    rfl

theorem buildElements_run (elements : List Json) (h : Heap) (hh : h.Fresh) {ret : Nat} {qs : List Nat}
    {parent : Option Nat} {key : Option Str} (hret : h.nodes ret = some ⟨parent, key, .array qs⟩) :
    ∃ ps cells h', buildElements ret elements h = .ok () h' ∧
      Filled h h' ret ⟨parent, key, .array (qs ++ ps)⟩ ps (elements.map fun e => (none, e)) cells := by
  match elements with
  | [] => exact ⟨[], [], h, rfl, by rw [List.append_nil]; exact .nil hh hret⟩
  | e :: elements =>
    obtain ⟨p, cells, h1, hbuild, hforest, hb⟩ := build_run e h hh
    have hne : ret ∉ cells := fun hc => by
      have := hb.new _ hc
      have := hh.lt hret
      omega
    obtain ⟨h2, happ, hatt⟩ := appendElement_run (h := h1) (by rw [hb.kept _ (hh.lt hret), hret]) hforest hne
    obtain ⟨ps, cells', h', hrun, hfill⟩ := buildElements_run elements h2
      (hatt.fresh hb.fresh (hb.kept_lt hh hret) fun a ha => (hb.new a ha).2) hatt.parent
    refine ⟨p :: ps, cells ++ cells', h', ?_, ?_⟩
    · rw [buildElements, bind_ok hbuild, bind_ok happ]
      exact hrun
    · rw [List.append_cons]
      exact hfill.cons hh hret hb hatt

theorem buildMembers_run (members : List (Str × Json)) (h : Heap) (hh : h.Fresh) {ret : Nat}
    {qs : List Nat} {parent : Option Nat} {key : Option Str}
    (hret : h.nodes ret = some ⟨parent, key, .object qs⟩) :
    ∃ ps cells h', buildMembers ret members h = .ok () h' ∧
      Filled h h' ret ⟨parent, key, .object (qs ++ ps)⟩ ps (members.map fun e => (some e.1, e.2)) cells := by
  match members with
  | [] => exact ⟨[], [], h, rfl, by rw [List.append_nil]; exact .nil hh hret⟩
  | (k, v) :: members =>
    obtain ⟨p, cells, h1, hbuild, hforest, hb⟩ := build_run v h hh
    have hne : ret ∉ cells := fun hc => by
      have := hb.new _ hc
      have := hh.lt hret
      omega
    obtain ⟨h2, happ, hatt⟩ :=
      appendMember_run (h := h1) k (by rw [hb.kept _ (hh.lt hret), hret]) hforest hne
    obtain ⟨ps, cells', h', hrun, hfill⟩ := buildMembers_run members h2
      (hatt.fresh hb.fresh (hb.kept_lt hh hret) fun a ha => (hb.new a ha).2) hatt.parent
    refine ⟨p :: ps, cells ++ cells', h', ?_, ?_⟩
    · rw [buildMembers, bind_ok hbuild, bind_ok happ]
      exact hrun
    · rw [List.append_cons]
      exact hfill.cons hh hret hb hatt

end

theorem jsonDecode_run {codec : JsonCodec} {text : Str} (hdec : codec.decode text = some j) (hh : h.Fresh) :
    ∃ p cells h', jsonDecode codec text h = .ok (some p) h' ∧
      Forest h'.nodes none [p] [(none, j)] cells ∧ Built h h' cells := by
  obtain ⟨p, cells, h', hrun, hf, hb⟩ := build_run j h hh
  refine ⟨p, cells, h', ?_, hf, hb⟩
  rw [jsonDecode, hdec]
  dsimp only
  rw [bind_ok hrun]
  rfl

/-- `json_find_member` in a tree. -/
theorem jsonFindMember_forest (hf : Forest h.nodes parent [p] [(key, j)] cells) (name : Str) :
    ∃ r, jsonFindMember (some p) name h = .ok r h ∧ Found h (some p) name cells r (j.member name) := by
  obtain ⟨qs, below, root, kids, hp, rfl⟩ := forest_singleton.1 hf
  rw [jsonFindMember, bind_ok (deref_ok root)]
  cases j with
  | null => exact ⟨none, rfl, rfl⟩
  | bool b => exact ⟨none, rfl, rfl⟩
  | string s => exact ⟨none, rfl, rfl⟩
  | number bits => exact ⟨none, rfl, rfl⟩
  | array elements => exact ⟨none, rfl, rfl⟩
  | object members =>
    obtain ⟨r, hr, hm⟩ := findMember_forest name (show Forest _ _ _ (members.map fun e => (some e.1, e.2)) _ from kids)
    refine ⟨r, hr, ?_⟩
    dsimp only [Json.member]
    unfold Found at hm ⊢
    cases hl : members.lookup name with
    | none =>
      rw [hl] at hm
      exact hm
    | some v =>
      rw [hl] at hm
      obtain ⟨q, cs, hq, hmem, hnode⟩ := hm
      exact ⟨q, cs, hq, List.mem_cons_of_mem _ (kids.root_mem hmem), hnode⟩

end CodiusSandbox
