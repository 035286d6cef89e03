import CodiusSandbox.JsonLinkProofs
import Mathlib.Logic.Relation
/-!
# Removal, deletion and lookup on linked nodes

`json_delete` follows `next` from child to child, and every child it deletes takes itself out of the list it
goes along. It ends for every node there is: each call has one node less that hangs from another.
-/
namespace CodiusSandbox.JsonLinks

open LinkedList TreeHeap Wp

section
variable {m m' : Memory} {h h' : Heap} {a b c p q : Ptr} {n cn pn cn' pn' : JsonNode} {cs : List Ptr}

/-! ## Removal -/

/-- The nodes behind `json_remove_from_parent`. -/
def Memory.removed (p c : Ptr) (m : Memory) : Memory :=
  { m with
    parent := Function.update m.parent c none
    prev := Function.update (link m.prev (m.next c) (m.prev c)) c none
    next := Function.update (link m.next (m.prev c) (m.next c)) c none
    key := Function.update m.key c none
    head := if m.prev c = none then Function.update m.head p (m.next c) else m.head
    tail := if m.next c = none then Function.update m.tail p (m.prev c) else m.tail }

theorem removeFromParent_links (hparent : m.parent c = some p) (hc : m.live c = true) (hp : m.live p = true)
    (hprev : ∀ a, m.prev c = some a → m.live a = true) (hnext : ∀ a, m.next c = some a → m.live a = true) :
    jsonRemoveFromParent c m = .ok () (m.removed p c) := by
  cases hpr : m.prev c with
  | none =>
    cases hne : m.next c with
    | none =>
      simp [jsonRemoveFromParent, bind, EStateM.bind, load, write, Memory.setParent, Memory.setPrev, Memory.setNext,
        Memory.setKey, Memory.setHead, Memory.setTail, Memory.removed, hparent, hc, hp, hpr, hne]
    | some n =>
      simp [jsonRemoveFromParent, bind, EStateM.bind, load, write, Memory.setParent, Memory.setPrev, Memory.setNext,
        Memory.setKey, Memory.setHead, Memory.removed, hparent, hc, hp, hpr, hne, hnext n hne]
  | some q =>
    cases hne : m.next c with
    | none =>
      simp [jsonRemoveFromParent, bind, EStateM.bind, load, write, Memory.setParent, Memory.setPrev, Memory.setNext,
        Memory.setKey, Memory.setTail, Memory.removed, hparent, hc, hp, hpr, hne, hprev q hpr]
    | some n =>
      simp [jsonRemoveFromParent, bind, EStateM.bind, load, write, Memory.setParent, Memory.setPrev, Memory.setNext,
        Memory.setKey, Memory.removed, hparent, hc, hpr, hne, hprev q hpr, hnext n hne]

/-- The neighbours of a child are children. -/
theorem neighbour_mem (hd : DList m.prev m.next (m.head p) (m.tail p) cs) (hc : c ∈ cs) :
    (∀ a, m.prev c = some a → a ∈ cs) ∧ ∀ a, m.next c = some a → a ∈ cs := by
  obtain ⟨as, bs, rfl⟩ := List.append_of_mem hc
  obtain ⟨hprev, hnext⟩ := hd.neighbours
  constructor
  · intro a ha
    rw [hprev] at ha
    exact List.mem_append_left _ (List.mem_of_getLast? ha)
  · intro a ha
    rw [hnext] at ha
    exact List.mem_append_right _ (List.mem_cons_of_mem _ (List.mem_of_head? ha))

theorem Represents.relinked_removed (hr : Represents m h) (hp : h.nodes p = some pn) (hc : c ∈ pn.contents.children) :
    Relinked m (m.removed p c) h p c := by
  obtain ⟨hprev, hnext⟩ := neighbour_mem (hr.node p pn hp).kids hc
  refine ⟨rfl, rfl, fun a ha => Function.update_of_ne ha _ _, fun a ha => Function.update_of_ne ha _ _, rfl, rfl, rfl, rfl,
    fun a ha => ?_, fun a ha => ?_, fun a ha hap => ?_, fun a ha hap => ?_⟩
  · dsimp only [Memory.removed]
    split
    · exact Function.update_of_ne ha _ _
    · rfl
  · dsimp only [Memory.removed]
    split
    · exact Function.update_of_ne ha _ _
    · rfl
  · dsimp only [Memory.removed]
    rw [Function.update_of_ne ha, link_of_ne]
    exact fun hna => hap (hr.kid hp (hnext a hna)).1
  · dsimp only [Memory.removed]
    rw [Function.update_of_ne ha, link_of_ne]
    exact fun hpa => hap (hr.kid hp (hprev a hpa)).1

theorem removeFromParent_lists (hp : h.nodes p = some pn) (hc : h.nodes c = some cn) (hparent : cn.parent = some p)
    (hpc : p ≠ c) : ∃ h', CodiusSandbox.jsonRemoveFromParent c h = .ok () h' ∧
      Rehung h h' p c { pn with contents := pn.contents.withChildren (pn.contents.children.erase c) }
        { cn with parent := none, key := none } := by
  rw [CodiusSandbox.jsonRemoveFromParent, bind_ok (deref_ok hc), hparent]
  dsimp only
  rw [bind_ok (deref_ok hp)]
  refine ⟨_, rfl, rfl, ?_, Function.update_self _ _ _, ?_⟩
  · dsimp only
    rw [Function.update_of_ne hpc, Function.update_self]
  · intro a hap hac
    dsimp only
    rw [Function.update_of_ne hac, Function.update_of_ne hap]

/-- `json_remove_from_parent` of a child of `p`, on both. -/
theorem removeFromParent_child (hr : Represents m h) (hp : h.nodes p = some pn) (hc : h.nodes c = some cn)
    (hparent : cn.parent = some p) : ∃ m' h', jsonRemoveFromParent c m = .ok () m' ∧
      CodiusSandbox.jsonRemoveFromParent c h = .ok () h' ∧ Represents m' h' ∧
      Rehung h h' p c { pn with contents := pn.contents.withChildren (pn.contents.children.erase c) }
        { cn with parent := none, key := none } := by
  have hpn := hr.node p pn hp
  have hcn := hr.node c cn hc
  have hpof : parentOf h c = some p := by rw [parentOf_some hc, hparent]
  have hpc : p ≠ c := by
    rintro rfl
    exact hr.loopless p hpof
  have hkid : c ∈ pn.contents.children := by
    rw [← kidsOf_some hp]
    exact (hr.hung c p).1 hpof
  have htag : tagOf pn.contents = .array ∨ tagOf pn.contents = .object := by
    cases hcontents : pn.contents <;> simp_all [JsonContents.children, tagOf]
  have hone (q : Ptr) (hq : parentOf h c = some q) : q = p := by
    rw [hpof] at hq
    exact (Option.some.inj hq).symm
  obtain ⟨hprev, hnext⟩ := neighbour_mem hpn.kids hkid
  have hlinks := removeFromParent_links (hcn.parent.trans hparent) (hr.live_some hc) (hr.live_some hp)
    (fun a ha => (hr.kid hp (hprev a ha)).2) (fun a ha => (hr.kid hp (hnext a ha)).2)
  obtain ⟨h', hlists, hre⟩ := removeFromParent_lists hp hc hparent hpc
  have hl := hr.relinked_removed hp hkid
  have hw := hre.detach hr.hung hp hc rfl rfl hparent rfl fun b => by
    rw [children_withChildren htag, hpn.kids.nodup.mem_erase_iff]
  refine ⟨m.removed p c, h', hlinks, hlists, ?_, hre⟩
  refine hl.represents hr hre hw hp hc hone rfl (by simp) ⟨?_, ?_, ?_, ?_, fun hroot => ?_⟩ ⟨?_, ?_, ?_, ?_, fun _ => ?_⟩
  · rw [hl.parent p hpc, hpn.parent]
  · rw [hl.key p hpc, hpn.key]
  · rw [hl.shape, shape_withChildren]
    exact hpn.shape
  · rw [children_withChildren htag]
    have herase := hpn.kids.erase hkid
    have hne (b : Ptr) (hb : b ∈ pn.contents.children.erase c) : b ≠ c := by
      rintro rfl
      exact hpn.kids.nodup.not_mem_erase hb
    have hlist : DList (m.removed p c).prev (m.removed p c).next (if m.prev c = none then m.next c else m.head p)
        (if m.next c = none then m.prev c else m.tail p) (pn.contents.children.erase c) :=
      herase.congr (fun b hb => Function.update_of_ne (hne b hb) _ _) (fun b hb => Function.update_of_ne (hne b hb) _ _)
    have hhead : (m.removed p c).head p = if m.prev c = none then m.next c else m.head p := by
      dsimp only [Memory.removed]
      split <;> simp
    have htail : (m.removed p c).tail p = if m.next c = none then m.prev c else m.tail p := by
      dsimp only [Memory.removed]
      split <;> simp
    rw [hhead, htail]
    exact hlist
  · have hne := hr.loopless p
    rw [hl.prev p hpc hne, hl.next p hpc hne]
    exact hpn.loose hroot
  · exact Function.update_self _ _ _
  · exact Function.update_self _ _ _
  · exact (hl.shape c _).2 hcn.shape
  · have hsame := hl.kids hr.hung hone hc (Ne.symm hpc) hcn.kids
    exact hsame
  · exact ⟨Function.update_self _ _ _, Function.update_self _ _ _⟩

theorem removeFromParent_loose (hr : Represents m h) (hc : h.nodes c = some cn) (hparent : cn.parent = none) :
    jsonRemoveFromParent c m = .ok () m ∧ CodiusSandbox.jsonRemoveFromParent c h = .ok () h := by
  constructor
  · rw [jsonRemoveFromParent, bind_ok (hr.load_ok hc Memory.parent), (hr.node c cn hc).parent, hparent]
    rfl
  · rw [CodiusSandbox.jsonRemoveFromParent, bind_ok (deref_ok hc), hparent]
    rfl

theorem jsonRemoveFromParent_outcome (hr : Represents m h) (c : Ptr) :
    Outcome (jsonRemoveFromParent c m) (CodiusSandbox.jsonRemoveFromParent c h) := by
  cases hc : h.nodes c with
  | none =>
    rw [jsonRemoveFromParent, CodiusSandbox.jsonRemoveFromParent, bind_error (hr.load_error hc _),
      bind_error (deref_freed hc)]
    exact .error
  | some cn =>
    cases hparent : cn.parent with
    | none =>
      obtain ⟨hlinks, hlists⟩ := removeFromParent_loose hr hc hparent
      rw [hlinks, hlists]
      exact .ok hr
    | some p =>
      have hmem : c ∈ kidsOf h p := (hr.hung c p).1 (by rw [parentOf_some hc, hparent])
      obtain ⟨pn, hp⟩ := live_of_mem_kidsOf hmem
      obtain ⟨m', h', hlinks, hlists, hr', -⟩ := removeFromParent_child hr hp hc hparent
      rw [hlinks, hlists]
      exact .ok hr'

/-! ## What hangs below a node -/

/-- `a` is `c` or hangs below it. -/
def Below (h : Heap) (c a : Ptr) : Prop := Relation.ReflTransGen (fun p q => parentOf h q = some p) c a

theorem Below.parent (hb : Below h c a) (hac : a ≠ c) : ∃ q, parentOf h a = some q ∧ Below h c q := by
  rcases Relation.ReflTransGen.cases_tail hb with rfl | ⟨q, hq, hqa⟩
  · exact absurd rfl hac
  · exact ⟨q, hqa, hq⟩

theorem Below.child (hb : Below h c a) (hac : a ≠ c) : ∃ d, parentOf h d = some c ∧ Below h d a := by
  rcases Relation.ReflTransGen.cases_head hb with rfl | ⟨d, hd, hda⟩
  · exact absurd rfl hac
  · exact ⟨d, hd, hda⟩

theorem Below.of_parent (hb : Below h c q) (hqa : parentOf h a = some q) : Below h c a := Relation.ReflTransGen.tail hb hqa

/-- Nothing but a node itself has a node that hangs nowhere below it. -/
theorem Below.eq_of_root (hb : Below h c a) (hroot : parentOf h a = none) : a = c := by
  by_contra hac
  obtain ⟨q, hq, -⟩ := hb.parent hac
  rw [hroot] at hq
  cases hq

theorem Below.mono (hb : Below h' c a) (hparent : ∀ a q, parentOf h' a = some q → parentOf h a = some q) : Below h c a :=
  Relation.ReflTransGen.mono (fun q a hqa => hparent a q hqa) _ _ hb

/-- What is known of the children of a node that were deleted or taken away. -/
def Without (c : Ptr) (n : JsonNode) : JsonNode := { n with contents := n.contents.withChildren (n.contents.children.erase c) }

theorem withChildren_children (contents : JsonContents) : contents.withChildren contents.children = contents := by
  cases contents <;> rfl

theorem withChildren_withChildren (contents : JsonContents) (qs ps : List Ptr) :
    (contents.withChildren qs).withChildren ps = contents.withChildren ps := by
  cases contents <;> rfl

theorem without_of_not_mem (hc : c ∉ n.contents.children) : Without c n = n := by
  rw [Without, List.erase_of_not_mem hc, withChildren_children]

/-- What `json_delete` of `c` has done: `c` and all below it are freed, and its parent has one child less. -/
structure Deleted (h h' : Heap) (c : Ptr) : Prop where
  gone : ∀ a, Below h c a → h'.nodes a = none
  free : ∀ a, h.nodes a = none → h'.nodes a = none
  kept : ∀ a n, h.nodes a = some n → ¬ Below h c a → h'.nodes a = some (Without c n)

theorem Deleted.parent (hd : Deleted h h' c) (ha : parentOf h' a = some q) : parentOf h a = some q ∧ ¬ Below h c a := by
  obtain ⟨n', hn'⟩ := live_of_parentOf ha
  have hnot : ¬ Below h c a := by
    intro hb
    rw [hd.gone a hb] at hn'
    cases hn'
  cases hn : h.nodes a with
  | none =>
    rw [hd.free a hn] at hn'
    cases hn'
  | some n =>
    have hkept := hd.kept a n hn hnot
    rw [parentOf_some hkept] at ha
    exact ⟨by rw [parentOf_some hn]; exact ha, hnot⟩

/-- Beside `c` the same nodes hang below a node as before. -/
theorem Deleted.below (hd : Deleted h h' c) (hb : Below h q a) (hnot : ¬ Below h c a) : Below h' q a := by
  induction hb with
  | refl => exact .refl
  | @tail x a hx hxa ih =>
    have hxnot : ¬ Below h c x := fun hcx => hnot (hcx.of_parent hxa)
    obtain ⟨n, hn⟩ := live_of_parentOf hxa
    refine (ih hxnot).of_parent ?_
    rw [parentOf_some (hd.kept a n hn hnot), ← hxa, parentOf_some hn]
    rfl

/-! ## Deletion -/

/-- `c` hangs nowhere, and nothing else has changed but for the children of what was its parent. -/
structure Unhung (h h' : Heap) (c : Ptr) (cn : JsonNode) : Prop where
  node : ∃ key, h'.nodes c = some { cn with parent := none, key := key }
  free : ∀ a, h.nodes a = none → h'.nodes a = none
  kept : ∀ a n, a ≠ c → h.nodes a = some n → h'.nodes a = some (Without c n)

theorem Unhung.parentOf_eq (hu : Unhung h h' c cn) (hac : a ≠ c) : parentOf h' a = parentOf h a := by
  cases hn : h.nodes a with
  | none => simp [parentOf, hn, hu.free a hn]
  | some n =>
    rw [parentOf_some hn, parentOf_some (hu.kept a n hac hn)]
    rfl

theorem Unhung.below (hu : Unhung h h' c cn) : Below h' c a ↔ Below h c a := by
  obtain ⟨key, hnode⟩ := hu.node
  constructor
  · intro hb
    refine hb.mono fun b q hbq => ?_
    by_cases hbc : b = c
    · subst hbc
      rw [parentOf_some hnode] at hbq
      cases hbq
    · rwa [hu.parentOf_eq hbc] at hbq
  · intro hb
    induction hb with
    | refl => exact .refl
    | @tail x a hx hxa ih =>
      by_cases hac : a = c
      · subst hac
        exact .refl
      · exact ih.of_parent (by rw [hu.parentOf_eq hac]; exact hxa)

theorem Represents.not_mem (hr : Represents m h) (hn : h.nodes a = some n) (hca : parentOf h c ≠ some a) :
    c ∉ n.contents.children := by
  intro hmem
  exact hca (hr.kid hn hmem).1

theorem removeFromParent_run (hr : Represents m h) (hc : h.nodes c = some cn) : ∃ m' h',
    jsonRemoveFromParent c m = .ok () m' ∧ CodiusSandbox.jsonRemoveFromParent c h = .ok () h' ∧ Represents m' h' ∧
    Unhung h h' c cn := by
  cases hparent : cn.parent with
  | none =>
    obtain ⟨hlinks, hlists⟩ := removeFromParent_loose hr hc hparent
    refine ⟨m, h, hlinks, hlists, hr, ⟨cn.key, ?_⟩, fun _ ha => ha, fun a n _ hn => ?_⟩
    · rw [hc, ← hparent]
    · rw [without_of_not_mem (hr.not_mem hn (by simp [parentOf_some hc, hparent])), hn]
  | some p =>
    have hpof : parentOf h c = some p := by rw [parentOf_some hc, hparent]
    obtain ⟨pn, hp⟩ := live_of_mem_kidsOf ((hr.hung c p).1 hpof)
    obtain ⟨m', h', hlinks, hlists, hr', hre⟩ := removeFromParent_child hr hp hc hparent
    refine ⟨m', h', hlinks, hlists, hr', ⟨none, hre.child⟩, fun a ha => ?_, fun a n hac hn => ?_⟩
    · rw [hre.other, ha]
      · rintro rfl
        rw [hp] at ha
        cases ha
      · rintro rfl
        rw [hc] at ha
        cases ha
    · by_cases hap : a = p
      · subst hap
        obtain rfl := Option.some.inj (hp.symm.trans hn)
        exact hre.parent
      · have hne : parentOf h c ≠ some a := by
          rw [hpof]
          exact fun heq => hap (Option.some.inj heq).symm
        rw [hre.other a hap hac, hn, without_of_not_mem (hr.not_mem hn hne)]

/-! ## Deletion -/

/-- A node that hangs nowhere and has no children is freed. -/
theorem Represents.freed (hr : Represents m h) (hc : h.nodes c = some cn) (hparent : cn.parent = none)
    (hkids : cn.contents.children = []) : Represents { m with live := Function.update m.live c false }
      { h with nodes := Function.update h.nodes c none } := by
  have hpof : parentOf h c = none := by rw [parentOf_some hc, hparent]
  have hkof : kidsOf h c = [] := by rw [kidsOf_some hc, hkids]
  have hparents (a : Ptr) : parentOf { h with nodes := Function.update h.nodes c none } a = parentOf h a := by
    by_cases hac : a = c
    · subst hac
      rw [hpof]
      simp [parentOf]
    · simp [parentOf, hac]
  have hchildren (a : Ptr) : kidsOf { h with nodes := Function.update h.nodes c none } a = kidsOf h a := by
    by_cases hac : a = c
    · subst hac
      rw [hkof]
      simp [kidsOf]
    · simp [kidsOf, hac]
  refine ⟨fun a ha => ?_, fun a p => ?_, fun a => ?_, hr.next, fun a => ?_, fun a n ha => ?_⟩
  · by_cases hac : a = c
    · simp [hac]
    · simp [hac, hr.fresh a ha]
  · rw [hparents, hchildren]
    exact hr.hung a p
  · rw [hparents]
    exact hr.loopless a
  · by_cases hac : a = c
    · simp [hac]
    · simp [hac, hr.live]
  · dsimp only at ha
    by_cases hac : a = c
    · subst hac
      rw [Function.update_self] at ha
      cases ha
    · rw [Function.update_of_ne hac] at ha
      obtain ⟨hp, hk, hs, hd, hl⟩ := hr.node a n ha
      exact ⟨hp, hk, hs, hd, hl⟩

/-- The run of `json_delete` on one node, with fuel for what may hang from another. -/
def DeletesNodes (fuel : Nat) : Prop :=
  ∀ {m : Memory} {h : Heap} {c : Ptr} {cn : JsonNode} (hanging : List Ptr), Represents m h → h.nodes c = some cn →
    (∀ a, a ≠ c → parentOf h a ≠ none → a ∈ hanging) → hanging.length < fuel → ∃ m' h',
      deleteNode fuel c m = .ok () m' ∧ CodiusSandbox.deleteNode fuel c h = .ok () h' ∧ Represents m' h' ∧ Deleted h h' c

/-- What the loop over the children of `p` has done. -/
structure Emptied (h h' : Heap) (p : Ptr) (pn : JsonNode) : Prop where
  node : h'.nodes p = some { pn with contents := pn.contents.withChildren [] }
  gone : ∀ a, a ≠ p → Below h p a → h'.nodes a = none
  free : ∀ a, h.nodes a = none → h'.nodes a = none
  kept : ∀ a n, h.nodes a = some n → ¬ Below h p a → h'.nodes a = some n

theorem deleteLoop_none (delete : Ptr → NodeM Unit) (turns : Nat) (m : Memory) :
    deleteLoop delete turns none m = .ok () m := by
  cases turns <;> rfl

theorem deleteLoop_run {fuel : Nat} (hdelete : DeletesNodes fuel) (cs : List Ptr) :
    ∀ {m : Memory} {h : Heap} {p : Ptr} {pn : JsonNode} (hanging : List Ptr) (turns : Nat), Represents m h →
      h.nodes p = some pn → pn.parent = none → pn.contents.children = cs → cs.length ≤ turns →
      (∀ a, parentOf h a ≠ none → a ∈ hanging) → hanging.length ≤ fuel → ∃ m' h',
        deleteLoop (deleteNode fuel) turns cs.head? m = .ok () m' ∧
        cs.forM (CodiusSandbox.deleteNode fuel) h = .ok () h' ∧ Represents m' h' ∧ Emptied h h' p pn := by
  induction cs with
  | nil =>
    intro m h p pn hanging turns hr hp hroot hcs _ _ _
    refine ⟨m, h, deleteLoop_none _ _ _, rfl, hr, ?_, fun a hap hb => ?_, fun _ ha => ha, fun _ _ hn _ => hn⟩
    · rw [← hcs, withChildren_children, hp]
    · obtain ⟨d, hd, -⟩ := hb.child hap
      have hmem := (hr.hung d p).1 hd
      rw [kidsOf_some hp, hcs] at hmem
      cases hmem
  | cons d rest ih =>
    intro m h p pn hanging turns hr hp hroot hcs hturns hhang hfuel
    obtain ⟨turns, rfl⟩ : ∃ n, turns = n + 1 := ⟨turns - 1, by simp only [List.length_cons] at hturns; omega⟩
    have hmem : d ∈ pn.contents.children := by simp [hcs]
    obtain ⟨hd, -⟩ := hr.kid hp hmem
    obtain ⟨dn, hdn⟩ := live_of_parentOf hd
    have hpd : p ≠ d := by
      rintro rfl
      exact hr.loopless p hd
    have hnotp : ¬ Below h d p := fun hb => hpd (hb.eq_of_root (by rw [parentOf_some hp, hroot]))
    have hnext : m.next d = rest.head? := by
      have hkids : DList m.prev m.next (m.head p) (m.tail p) ([] ++ d :: rest) := by
        rw [List.nil_append, ← hcs]
        exact (hr.node p pn hp).kids
      exact hkids.neighbours.2
    have hdmem : d ∈ hanging := hhang d (by rw [hd]; simp)
    have hless : (hanging.erase d).length < fuel := by
      have hpos := List.length_pos_of_mem hdmem
      rw [List.length_erase_of_mem hdmem]
      omega
    obtain ⟨m₁, h₁, hlinks₁, hlists₁, hr₁, hdel⟩ := hdelete (hanging.erase d) hr hdn
      (fun a had ha => (List.mem_erase_of_ne had).2 (hhang a ha)) hless
    -- `p` has the other children left
    have hp₁ : h₁.nodes p = some (Without d pn) := hdel.kept p pn hp hnotp
    have hcs₁ : (Without d pn).contents.children = rest := by
      have htag : tagOf pn.contents = .array ∨ tagOf pn.contents = .object := by
        cases hcontents : pn.contents <;> simp_all [JsonContents.children, tagOf]
      rw [Without, children_withChildren htag, hcs, List.erase_cons_head]
    obtain ⟨m₂, h₂, hlinks₂, hlists₂, hr₂, hempty⟩ := ih hanging turns hr₁ hp₁ hroot hcs₁
      (by simp only [List.length_cons] at hturns; omega)
      (fun a ha => hhang a fun hnone => by
        obtain ⟨q, hq⟩ := Option.ne_none_iff_exists'.1 ha
        rw [(hdel.parent hq).1] at hnone
        cases hnone) hfuel
    refine ⟨m₂, h₂, ?_, ?_, hr₂, ?_, fun a hap hb => ?_, fun a ha => hempty.free a (hdel.free a ha), fun a n hn hb => ?_⟩
    · rw [List.head?_cons, deleteLoop, bind_ok (hr.load_ok hdn Memory.next), bind_ok hlinks₁, hnext]
      exact hlinks₂
    · have hcons : (d :: rest).forM (CodiusSandbox.deleteNode fuel) =
          (CodiusSandbox.deleteNode fuel d >>= fun _ => rest.forM (CodiusSandbox.deleteNode fuel)) := rfl
      rw [hcons, bind_ok hlists₁]
      exact hlists₂
    · simpa only [Without, withChildren_withChildren] using hempty.node
    · by_cases hbd : Below h d a
      · exact hempty.free a (hdel.gone a hbd)
      · exact hempty.gone a hap (hdel.below hb hbd)
    · have hbd : ¬ Below h d a := fun hda => hb (Relation.ReflTransGen.head hd hda)
      have hap : a ≠ p := by
        rintro rfl
        exact hb .refl
      have hkept := hdel.kept a n hn hbd
      rw [without_of_not_mem (hr.not_mem hn (by rw [hd]; simpa using Ne.symm hap))] at hkept
      exact hempty.kept a n hkept fun hb₁ => hb (hb₁.mono fun b q hbq => (hdel.parent hbq).1)

theorem children_eq_nil {contents : JsonContents} (htag : ¬ (tagOf contents = .array ∨ tagOf contents = .object)) :
    contents.children = [] := by
  cases contents <;> simp_all [tagOf, JsonContents.children]

theorem Represents.length_children (hr : Represents m h) (hn : h.nodes a = some n) : n.contents.children.length ≤ m.fresh := by
  have hsub : n.contents.children ⊆ List.range m.fresh := by
    intro b hb
    obtain ⟨bn, hbn⟩ := live_of_parentOf (hr.kid hn hb).1
    rw [List.mem_range, hr.next]
    exact hr.fresh.lt hbn
  have hle := (List.subperm_of_subset (hr.node a n hn).kids.nodup hsub).length_le
  rwa [List.length_range] at hle

theorem deleteNode_run (fuel : Nat) : DeletesNodes fuel := by
  induction fuel with
  | zero =>
    intro m h c cn hanging hr hc hhang hfuel
    cases hfuel
  | succ fuel ih =>
    intro m h c cn hanging hr hc hhang hfuel
    obtain ⟨m₁, h₁, hlinks₁, hlists₁, hr₁, hu⟩ := removeFromParent_run hr hc
    obtain ⟨key, hc₁⟩ := hu.node
    have hroot₁ : parentOf h₁ c = none := by rw [parentOf_some hc₁]
    have hhang₁ (a : Ptr) (ha : parentOf h₁ a ≠ none) : a ∈ hanging := by
      have hac : a ≠ c := by
        rintro rfl
        exact ha hroot₁
      rw [hu.parentOf_eq hac] at ha
      exact hhang a hac ha
    obtain ⟨m₂, h₂, hlinks₂, hlists₂, hr₂, hempty⟩ := deleteLoop_run ih _ hanging m₁.fresh hr₁ hc₁ rfl rfl
      (hr₁.length_children hc₁) hhang₁ (by omega)
    have his := hr₁.node c _ hc₁
    rw [← his.kids.head_eq] at hlinks₂
    have hlinks : deleteNode (fuel + 1) c m = .ok () { m₂ with live := Function.update m₂.live c false } := by
      rw [deleteNode, bind_ok hlinks₁, bind_ok (hr₁.load_ok hc₁ Memory.tag), his.tag_eq]
      by_cases hinner : tagOf cn.contents = .array ∨ tagOf cn.contents = .object
      · rw [if_pos hinner, bind_get, bind_ok (hr₁.load_ok hc₁ Memory.head), bind_ok hlinks₂]
        rfl
      · have hhead : m₁.head c = none := by rw [his.kids.head_eq, children_eq_nil hinner, List.head?_nil]
        rw [hhead, deleteLoop_none] at hlinks₂
        obtain ⟨-, rfl⟩ := EStateM.Result.ok.inj hlinks₂
        rw [if_neg hinner]
        rfl
    have hlists : CodiusSandbox.deleteNode (fuel + 1) c h =
        .ok () { h₂ with nodes := Function.update h₂.nodes c none } := by
      rw [CodiusSandbox.deleteNode, bind_ok hlists₁, bind_ok (deref_ok hc₁), bind_ok hlists₂]
      rfl
    have hleft : ({ cn with parent := none, key := key, contents := cn.contents.withChildren [] } :
        JsonNode).contents.children = [] := by
      cases hcontents : cn.contents <;> simp [JsonContents.withChildren, JsonContents.children]
    refine ⟨_, _, hlinks, hlists, hr₂.freed hempty.node rfl hleft, fun a hb => ?_, fun a ha => ?_, fun a n hn hb => ?_⟩
    · dsimp only
      by_cases hac : a = c
      · rw [hac, Function.update_self]
      · rw [Function.update_of_ne hac]
        exact hempty.gone a hac (hu.below.2 hb)
    · dsimp only
      by_cases hac : a = c
      · rw [hac, Function.update_self]
      · rw [Function.update_of_ne hac]
        exact hempty.free a (hu.free a ha)
    · have hac : a ≠ c := by
        rintro rfl
        exact hb .refl
      dsimp only
      rw [Function.update_of_ne hac]
      exact hempty.kept a _ (hu.kept a n hac hn) fun hb₁ => hb (hu.below.1 hb₁)

/-- `json_delete` of a node frees it and all that hangs below it, and nothing else, in a cycle too. -/
theorem jsonDelete_run (hr : Represents m h) (hc : h.nodes c = some cn) : ∃ m' h',
    jsonDelete (some c) m = .ok () m' ∧ CodiusSandbox.jsonDelete (some c) h = .ok () h' ∧ Represents m' h' ∧
    Deleted h h' c := by
  have hlt : c < h.next := hr.fresh.lt hc
  have hless : ((List.range h.next).erase c).length < h.next := by
    rw [List.length_erase_of_mem (List.mem_range.2 hlt), List.length_range]
    exact Nat.sub_one_lt_of_lt hlt
  have hhang (a : Ptr) (hac : a ≠ c) (ha : parentOf h a ≠ none) : a ∈ (List.range h.next).erase c := by
    obtain ⟨q, hq⟩ := Option.ne_none_iff_exists'.1 ha
    obtain ⟨n, hn⟩ := live_of_parentOf hq
    exact (List.mem_erase_of_ne hac).2 (List.mem_range.2 (hr.fresh.lt hn))
  obtain ⟨m', h', hlinks, hlists, hr', hd⟩ := deleteNode_run h.next _ hr hc hhang hless
  refine ⟨m', h', ?_, ?_, hr', hd⟩
  · rw [jsonDelete, bind_get, hr.next]
    exact hlinks
  · rw [CodiusSandbox.jsonDelete, bind_get]
    exact hlists

theorem jsonDelete_outcome (hr : Represents m h) (node : Option Ptr) :
    Outcome (jsonDelete node m) (CodiusSandbox.jsonDelete node h) := by
  cases node with
  | none => exact .ok hr
  | some c =>
    cases hc : h.nodes c with
    | none =>
      rw [jsonDelete, CodiusSandbox.jsonDelete, bind_get, bind_get, hr.next]
      cases h.next with
      | zero => exact .error
      | succ fuel =>
        rw [deleteNode, CodiusSandbox.deleteNode, jsonRemoveFromParent, CodiusSandbox.jsonRemoveFromParent]
        rw [bind_error (bind_error (hr.load_error hc Memory.parent)), bind_error (bind_error (deref_freed hc))]
        exact .error
    | some cn =>
      obtain ⟨m', h', hlinks, hlists, hr', -⟩ := jsonDelete_run hr hc
      rw [hlinks, hlists]
      exact .ok hr'

/-! ## Lookup -/

theorem jsonFirstChild_outcome (hr : Represents m h) (node : Option Ptr) :
    Outcome (jsonFirstChild node m) (OnLists.jsonFirstChild node h) := by
  cases node with
  | none => exact .ok hr
  | some a =>
    apply hr.bind_load
    intro n hn his
    rw [his.tag_eq]
    by_cases hinner : tagOf n.contents = .array ∨ tagOf n.contents = .object
    · rw [if_pos hinner, hr.load_ok hn, his.kids.head_eq]
      exact .ok hr
    · rw [if_neg hinner, children_eq_nil hinner]
      exact .ok hr

/-- The loop of `json_find_member` goes along the children that are left. -/
theorem findMember_outcome (hr : Represents m h) (name : Str) (cs : List Ptr) :
    ∀ (a : Option Ptr) (turns : Nat), Seg m.prev m.next a cs none → cs.length ≤ turns →
      Outcome (findMember name turns cs.head? m) (CodiusSandbox.findMember name cs h) := by
  induction cs with
  | nil =>
    intro a turns _ _
    have hrun : findMember name turns none m = .ok none m := by cases turns <;> rfl
    rw [List.head?_nil, hrun]
    exact .ok hr
  | cons c cs ih =>
    intro a turns hseg hturns
    obtain ⟨turns, rfl⟩ : ∃ n, turns = n + 1 := ⟨turns - 1, by simp only [List.length_cons] at hturns; omega⟩
    obtain ⟨-, hnext, hseg⟩ := hseg
    apply hr.bind_load
    intro n hn his
    rw [his.key]
    cases n.key with
    | none => exact .error
    | some key =>
      by_cases hkey : key = name
      · simp only [if_pos hkey]
        exact .ok hr
      · simp only [if_neg hkey]
        rw [bind_ok (hr.load_ok hn Memory.next), hnext, Option.or_none]
        exact ih (some c) turns hseg (by simp only [List.length_cons] at hturns; omega)

theorem jsonFindMember_outcome (hr : Represents m h) (object : Option Ptr) (name : Str) :
    Outcome (jsonFindMember object name m) (CodiusSandbox.jsonFindMember object name h) := by
  cases object with
  | none => exact .ok hr
  | some o =>
    apply hr.bind_load
    intro n hn his
    rw [his.tag_eq]
    by_cases htag : tagOf n.contents = .object
    · obtain ⟨cs, hcs⟩ : ∃ cs, n.contents = .object cs := by
        cases hcontents : n.contents <;> simp_all [tagOf]
      have hfirst : jsonFirstChild (some o) m = .ok cs.head? m := by
        rw [jsonFirstChild, bind_ok (hr.load_ok hn Memory.tag), his.tag_eq, if_pos (.inr htag), hr.load_ok hn,
          his.kids.head_eq, hcs]
        rfl
      have hkids := his.kids
      have hlen := hr.length_children hn
      rw [hcs] at hkids hlen
      rw [if_pos htag, bind_get, bind_ok hfirst, hcs]
      exact findMember_outcome hr name cs none m.fresh hkids.seg hlen
    · rw [if_neg htag]
      cases hcontents : n.contents <;> simp_all [tagOf] <;> exact .ok hr

/-- The loop of `json_find_element`, with `i` children passed. -/
theorem findElement_run (index : Int) (cs : List Ptr) : ∀ (a : Option Ptr) (turns : Nat) (i : Int),
    Seg m.prev m.next a cs none → (∀ c ∈ cs, m.live c = true) → cs.length ≤ turns →
      findElement index turns i cs.head? m = .ok (if i ≤ index then cs[(index - i).toNat]? else none) m := by
  induction cs with
  | nil =>
    intro a turns i _ _ _
    have hrun : findElement index turns i none m = .ok none m := by cases turns <;> rfl
    rw [List.head?_nil, hrun, List.getElem?_nil, ite_self]
  | cons c cs ih =>
    intro a turns i hseg hlive hturns
    obtain ⟨turns, rfl⟩ : ∃ n, turns = n + 1 := ⟨turns - 1, by simp only [List.length_cons] at hturns; omega⟩
    obtain ⟨-, hnext, hseg⟩ := hseg
    rw [List.head?_cons, findElement]
    by_cases hi : i = index
    · subst hi
      simp only [if_true, Int.le_refl, Int.sub_self, Int.toNat_zero, List.getElem?_cons_zero]
      rfl
    · have hload : load Memory.next c m = .ok cs.head? m := by
        rw [load, if_pos (hlive c (by simp)), hnext, Option.or_none]
      rw [if_neg hi, bind_ok hload, ih (some c) turns (i + 1) hseg (fun b hb => hlive b (by simp [hb]))
        (by simp only [List.length_cons] at hturns; omega)]
      by_cases hle : i ≤ index
      · have hstep : (index - i).toNat = (index - (i + 1)).toNat + 1 := by omega
        rw [if_pos hle, if_pos (by omega), hstep, List.getElem?_cons_succ]
      · rw [if_neg hle, if_neg (by omega)]

theorem jsonFindElement_outcome (hr : Represents m h) (array : Option Ptr) (index : Int) :
    Outcome (jsonFindElement array index m) (OnLists.jsonFindElement array index h) := by
  cases array with
  | none => exact .ok hr
  | some p =>
    apply hr.bind_load
    intro n hn his
    rw [his.tag_eq]
    by_cases htag : tagOf n.contents = .array
    · obtain ⟨cs, hcs⟩ : ∃ cs, n.contents = .array cs := by
        cases hcontents : n.contents <;> simp_all [tagOf]
      have hfirst : jsonFirstChild (some p) m = .ok cs.head? m := by
        rw [jsonFirstChild, bind_ok (hr.load_ok hn Memory.tag), his.tag_eq, if_pos (.inl htag), hr.load_ok hn,
          his.kids.head_eq, hcs]
        rfl
      have hkids := his.kids
      have hlen := hr.length_children hn
      have hlive (c : Ptr) (hc : c ∈ n.contents.children) : m.live c = true := (hr.kid hn hc).2
      rw [hcs] at hkids hlen hlive
      have hrun := findElement_run index cs none m.fresh 0 hkids.seg hlive hlen
      rw [Int.sub_zero] at hrun
      rw [if_pos htag, bind_get, bind_ok hfirst, hcs, hrun]
      exact .ok hr
    · rw [if_neg htag]
      cases hcontents : n.contents <;> simp_all [tagOf] <;> exact .ok hr

end

end CodiusSandbox.JsonLinks
