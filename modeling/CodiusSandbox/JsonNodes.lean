import CodiusSandbox.JsonProofs
import CodiusSandbox.JsonReading
/-!
# The nodes that the parser makes

`Makes out x h ret h'`: with an `out` that is not null `ret` and `h'` are what `x` gives on `h`, else there
is no node and `h'` is `h`. The parser fills an array or an object child by child (`Makes.element`,
`Makes.member`), and what it gives up is gone as if it had never been (`Makes.failure`).
-/
namespace CodiusSandbox.JsonText

open TreeHeap Wp

variable {out : Bool} {h h₁ h₂ h' : Heap} {ret r : Option Ptr} {v : Json} {s : Str} {done : List Json}
  {members : List (Str × Json)} {key : Str}

def Makes (out : Bool) (x : HeapM Ptr) (h : Heap) (ret : Option Ptr) (h' : Heap) : Prop :=
  if out then ∃ p, ret = some p ∧ x h = .ok p h' else ret = none ∧ h' = h

/-- The nodes are what they were, though addresses may have been used up for an `out` that is not null. -/
structure Restored (out : Bool) (h h' : Heap) : Prop where
  nodes : h'.nodes = h.nodes
  next : h.next ≤ h'.next
  same : out = false → h' = h

theorem Restored.refl (out : Bool) (h : Heap) : Restored out h h := ⟨rfl, Nat.le_refl _, fun _ => rfl⟩

theorem Restored.fresh (hr : Restored out h h') (hh : h.Fresh) : h'.Fresh := by
  intro a ha
  rw [hr.nodes]
  exact hh a (Nat.le_trans hr.next ha)

/-! ## Trees -/

theorem Makes.fresh (hm : Makes out (build v) h ret h') (hh : h.Fresh) : h'.Fresh := by
  cases out with
  | false =>
    obtain ⟨-, rfl⟩ := hm
    exact hh
  | true =>
    obtain ⟨p, -, hrun⟩ := hm
    obtain ⟨q, cells, h₁, hrun', -, hb⟩ := build_run v h hh
    obtain ⟨-, rfl⟩ := EStateM.Result.ok.inj (hrun.symm.trans hrun')
    exact hb.fresh

/-- The tree that is built. -/
theorem Makes.tree (hm : Makes true (build v) h ret h') (hh : h.Fresh) : ∃ p cells, ret = some p ∧
    Forest h'.nodes none [p] [(none, v)] cells ∧ Built h h' cells := by
  obtain ⟨p, rfl, hrun⟩ := hm
  obtain ⟨q, cells, h₁, hrun', hf, hb⟩ := build_run v h hh
  obtain ⟨rfl, rfl⟩ := EStateM.Result.ok.inj (hrun.symm.trans hrun')
  exact ⟨p, cells, rfl, hf, hb⟩

/-- The new cells are all there are between the old end of the heap and the new one. -/
theorem Built.mem_cells {cells : List Nat} (hb : Built h h' cells) (hnodup : cells.Nodup) {a : Nat}
    (ha : h.next ≤ a) (ha' : a < h'.next) : a ∈ cells := by
  have hsub : cells ⊆ List.range' h.next cells.length := by
    intro c hc
    have := hb.new c hc
    have := hb.count
    rw [List.mem_range'_1]
    omega
  have hperm := (List.subperm_of_subset hnodup hsub).perm_of_length_le (by simp)
  rw [hperm.mem_iff, List.mem_range'_1, ← hb.count]
  exact ⟨ha, ha'⟩

theorem built_nodes {cells : List Nat} (hb : Built h h' cells) (hnodup : cells.Nodup) (hh : h.Fresh) (a : Nat) :
    h.nodes a = if a ∈ cells then none else h'.nodes a := by
  by_cases ha : a ∈ cells
  · rw [if_pos ha]
    exact hh a (hb.new a ha).1
  · rw [if_neg ha]
    rcases Nat.lt_or_ge a h.next with hlt | hge
    · exact (hb.kept a hlt).symm
    · rw [hh a hge]
      refine (hb.fresh a ?_).symm
      by_contra hlt
      exact ha (Built.mem_cells hb hnodup hge (by omega))

/-- `json_delete` of what was built takes the heap back. -/
theorem Makes.delete (hm : Makes out (build v) h ret h₁) (hh : h.Fresh) (hr : Restored out h₁ h₂) :
    ∃ h', jsonDelete ret h₂ = .ok () h' ∧ Restored out h h' := by
  cases out with
  | false =>
    obtain ⟨rfl, rfl⟩ := hm
    exact ⟨h₂, rfl, hr⟩
  | true =>
    obtain ⟨p, cells, rfl, hf, hb⟩ := hm.tree hh
    have hf₂ : Forest h₂.nodes none [p] [(none, v)] cells := by rwa [hr.nodes]
    have hfit : cells.length ≤ h₂.next := Forest.length_le hf₂ (Forest.lt_next hf₂ (hr.fresh hb.fresh))
    obtain ⟨h', hrun, hnext, hgone, hkept⟩ := jsonDelete_root hf₂ hfit
    refine ⟨h', hrun, ?_, ?_, fun hout => by cases hout⟩
    · funext a
      rw [built_nodes hb hf.nodup hh a]
      by_cases ha : a ∈ cells
      · rw [if_pos ha, hgone a ha]
      · rw [if_neg ha, hkept a ha, hr.nodes]
    · rw [hnext]
      have := hb.count
      have := hr.next
      omega

theorem failure_run (hm : Makes out (build v) h ret h₁) (hh : h.Fresh) (hr : Restored out h₁ h₂) (s : Str) :
    ∃ h', failure ret ⟨s, h₂⟩ = .ok none ⟨s, h'⟩ ∧ Restored out h h' := by
  obtain ⟨h', hrun, hr'⟩ := hm.delete hh hr
  refine ⟨h', ?_, hr'⟩
  have hnodes : onNodes (jsonDelete ret) ⟨s, h₂⟩ = .ok () ⟨s, h'⟩ := by
    rw [onNodes]
    dsimp only
    rw [hrun]
  rw [failure, bind_ok hnodes]
  rfl

/-! ## New nodes and children -/

theorem onNodes_ok {α : Type} {x : HeapM α} {a : α} (hx : x h = .ok a h') (s : Str) :
    onNodes x ⟨s, h⟩ = .ok a ⟨s, h'⟩ := by
  rw [onNodes]
  dsimp only
  rw [hx]

theorem onText_ok {α : Type} {x : Read α} {a : α} {s' : Str} (hx : x s = .ok a s') (h : Heap) :
    onText x ⟨s, h⟩ = .ok a ⟨s', h⟩ := by
  rw [onText]
  dsimp only
  rw [hx]

theorem map_written {α β : Type} (f : α → β) (a : α) : (written out a).map f = written out (f a) := by
  cases out <;> rfl

/-- A node without children. -/
theorem mkOut_run {contents : JsonContents} (hv : ∀ h, build v h = mknode contents h) (out : Bool) (s : Str) (h : Heap) :
    ∃ ret h', mkOut (written out contents) ⟨s, h⟩ = .ok ret ⟨s, h'⟩ ∧ Makes out (build v) h ret h' := by
  cases out with
  | false => exact ⟨none, h, rfl, rfl, rfl⟩
  | true =>
    refine ⟨some h.next, h.withNode contents, ?_, h.next, rfl, hv h⟩
    have hrun : mkOut (written true contents) ⟨s, h⟩ = (do return some (← onNodes (mknode contents)) : Scan _) ⟨s, h⟩ := rfl
    rw [hrun, bind_ok (onNodes_ok (mknode_run contents) s)]
    rfl

theorem build_array {p : Ptr} (hrun : build (.array done) h = .ok p h') :
    p = h.next ∧ buildElements h.next done (h.withNode (.array [])) = .ok () h' := by
  rw [build, bind_ok (mknode_run _)] at hrun
  obtain ⟨_, u, hloop, hrun⟩ := of_bind_ok hrun
  obtain ⟨rfl, rfl⟩ := EStateM.Result.ok.inj hrun
  exact ⟨rfl, hloop⟩

theorem build_object {p : Ptr} (hrun : build (.object members) h = .ok p h') :
    p = h.next ∧ buildMembers h.next members (h.withNode (.object [])) = .ok () h' := by
  rw [build, bind_ok (mknode_run _)] at hrun
  obtain ⟨_, u, hloop, hrun⟩ := of_bind_ok hrun
  obtain ⟨rfl, rfl⟩ := EStateM.Result.ok.inj hrun
  exact ⟨rfl, hloop⟩

theorem buildElements_append {p : Ptr} (hdone : buildElements p done h = .ok () h₁) (more : List Json) :
    buildElements p (done ++ more) h = buildElements p more h₁ := by
  induction done generalizing h with
  | nil =>
    obtain ⟨-, rfl⟩ := EStateM.Result.ok.inj hdone
    rfl
  | cons e done ih =>
    rw [buildElements] at hdone
    obtain ⟨q, u, hbuild, hdone⟩ := of_bind_ok hdone
    obtain ⟨_, u', happ, hdone⟩ := of_bind_ok hdone
    rw [List.cons_append, buildElements, bind_ok hbuild, bind_ok happ]
    exact ih hdone

theorem buildMembers_append {p : Ptr} (hdone : buildMembers p members h = .ok () h₁) (more : List (Str × Json)) :
    buildMembers p (members ++ more) h = buildMembers p more h₁ := by
  induction members generalizing h with
  | nil =>
    obtain ⟨-, rfl⟩ := EStateM.Result.ok.inj hdone
    rfl
  | cons e members ih =>
    obtain ⟨key, v⟩ := e
    rw [buildMembers] at hdone
    obtain ⟨q, u, hbuild, hdone⟩ := of_bind_ok hdone
    obtain ⟨_, u', happ, hdone⟩ := of_bind_ok hdone
    rw [List.cons_append, buildMembers, bind_ok hbuild, bind_ok happ]
    exact ih hdone

/-- `append_member` is `json_append_member` without the asserts. -/
theorem appendMember_of_json {p q : Ptr} (hrun : jsonAppendMember p key q h = .ok () h') :
    appendMember p key q h = .ok () h' := by
  rw [jsonAppendMember] at hrun
  obtain ⟨node, u, hp, hswitch⟩ := of_bind_ok hrun
  obtain rfl : u = h := by
    rw [deref] at hp
    split at hp
    · exact (EStateM.Result.ok.inj hp).2.symm
    · cases hp
  obtain ⟨parent, k, contents⟩ := node
  cases contents with
  | object children =>
    obtain ⟨child, u', hq, happend⟩ := of_bind_ok hswitch
    rw [appendMember, bind_ok hq]
    split at happend
    · exact happend
    · cases happend
  | _ => cases hswitch

/-- A further element. -/
theorem Makes.element (hm : Makes out (build (.array done)) h ret h₁) (hv : Makes out (build v) h₁ r h₂) (hh : h.Fresh)
    (s : Str) : ∃ h', addElement ret r ⟨s, h₂⟩ = .ok () ⟨s, h'⟩ ∧ Makes out (build (.array (done ++ [v]))) h ret h' := by
  cases out with
  | false =>
    obtain ⟨rfl, rfl⟩ := hm
    obtain ⟨rfl, rfl⟩ := hv
    exact ⟨h₂, rfl, rfl, rfl⟩
  | true =>
    obtain ⟨q, cells, rfl, hf, hb⟩ := hv.tree (hm.fresh hh)
    obtain ⟨q', hq, hbuild⟩ := hv
    obtain rfl := Option.some.inj hq
    obtain ⟨p, rfl, hrun⟩ := hm
    obtain ⟨rfl, hloop⟩ := build_array hrun
    obtain ⟨ps, cells', h₁', hloop', hfill⟩ :=
      buildElements_run done (h.withNode (.array [])) (hh.withNode _) (withNode_nodes_next _)
    obtain ⟨-, rfl⟩ := EStateM.Result.ok.inj (hloop.symm.trans hloop')
    have hlt : h.next < h₁.next := by
      have := hfill.count
      rw [withNode_next] at this
      omega
    obtain ⟨h', happend, -⟩ := appendElement_run (by rw [hb.kept _ hlt, hfill.parent]) hf fun hmem => by
      have := (hb.new _ hmem).1
      omega
    refine ⟨h', onNodes_ok happend s, h.next, rfl, ?_⟩
    have hmore : buildElements h.next (done ++ [v]) (h.withNode (.array [])) = .ok () h' := by
      rw [buildElements_append hloop, buildElements, bind_ok hbuild, bind_ok happend]
      rfl
    rw [build, bind_ok (mknode_run _), bind_ok hmore]
    rfl

/-- A further member. -/
theorem Makes.member (hm : Makes out (build (.object members)) h ret h₁) (hv : Makes out (build v) h₁ r h₂)
    (hh : h.Fresh) (key s : Str) : ∃ h', addMember ret (written out key) r ⟨s, h₂⟩ = .ok () ⟨s, h'⟩ ∧
      Makes out (build (.object (members ++ [(key, v)]))) h ret h' := by
  cases out with
  | false =>
    obtain ⟨rfl, rfl⟩ := hm
    obtain ⟨rfl, rfl⟩ := hv
    exact ⟨h₂, rfl, rfl, rfl⟩
  | true =>
    obtain ⟨q, cells, rfl, hf, hb⟩ := hv.tree (hm.fresh hh)
    obtain ⟨q', hq, hbuild⟩ := hv
    obtain rfl := Option.some.inj hq
    obtain ⟨p, rfl, hrun⟩ := hm
    obtain ⟨rfl, hloop⟩ := build_object hrun
    obtain ⟨ps, cells', h₁', hloop', hfill⟩ :=
      buildMembers_run members (h.withNode (.object [])) (hh.withNode _) (withNode_nodes_next _)
    obtain ⟨-, rfl⟩ := EStateM.Result.ok.inj (hloop.symm.trans hloop')
    have hlt : h.next < h₁.next := by
      have := hfill.count
      rw [withNode_next] at this
      omega
    obtain ⟨h', happend, -⟩ := appendMember_run key (by rw [hb.kept _ hlt, hfill.parent]) hf fun hmem => by
      have := (hb.new _ hmem).1
      omega
    refine ⟨h', onNodes_ok (appendMember_of_json happend) s, h.next, rfl, ?_⟩
    have hmore : buildMembers h.next (members ++ [(key, v)]) (h.withNode (.object [])) = .ok () h' := by
      rw [buildMembers_append hloop, buildMembers, bind_ok hbuild, bind_ok happend]
      rfl
    rw [build, bind_ok (mknode_run _), bind_ok hmore]
    rfl

end CodiusSandbox.JsonText
