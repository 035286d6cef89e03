import CodiusSandbox.JsonLinks
/-!
# Linked nodes and lists of children

`Represents m h`: the links in `m` are the lists of children in `h`. Every function of `JsonLinks` keeps it, with
the answer or the fault its counterpart on the lists has (`Outcome`), so a whole run on the links is one on the
lists.
-/
namespace CodiusSandbox.JsonLinks

open LinkedList TreeHeap Wp

/-! ## The relation -/

def parentOf (h : Heap) (a : Ptr) : Option Ptr := (h.nodes a).bind fun n => n.parent

def kidsOf (h : Heap) (a : Ptr) : List Ptr := (h.nodes a).elim [] fun n => n.contents.children

/-- Parents and children know each other. -/
def WellHung (h : Heap) : Prop := ∀ a p, parentOf h a = some p ↔ a ∈ kidsOf h p

def Memory.Shape (m : Memory) (a : Ptr) : JsonContents → Prop
  | .null => m.tag a = .null
  | .bool b => m.tag a = .bool ∧ m.bool_ a = b
  | .string s => m.tag a = .string ∧ m.string_ a = some s
  | .number n => m.tag a = .number ∧ m.number_ a = n
  | .array _ => m.tag a = .array
  | .object _ => m.tag a = .object

/-- The node at `a`. -/
structure Memory.Is (m : Memory) (a : Ptr) (n : JsonNode) : Prop where
  parent : m.parent a = n.parent
  key : m.key a = n.key
  shape : m.Shape a n.contents
  kids : DList m.prev m.next (m.head a) (m.tail a) n.contents.children
  loose : n.parent = none → m.prev a = none ∧ m.next a = none

structure Represents (m : Memory) (h : Heap) : Prop where
  fresh : h.Fresh
  hung : WellHung h
  loopless : ∀ a, parentOf h a ≠ some a
  next : m.fresh = h.next
  live : ∀ a, m.live a = (h.nodes a).isSome
  node : ∀ a n, h.nodes a = some n → m.Is a n

/-- The same answer or the same fault. -/
inductive Outcome {α : Type} : EStateM.Result Fault Memory α → EStateM.Result Fault Heap α → Prop
  | ok {a : α} {m : Memory} {h : Heap} (hr : Represents m h) : Outcome (.ok a m) (.ok a h)
  | error {e : Fault} {m : Memory} {h : Heap} : Outcome (.error e m) (.error e h)

section
variable {m m' : Memory} {h h' : Heap} {a b c p q : Ptr} {n cn pn cn' pn' : JsonNode} {cs : List Ptr}

theorem parentOf_some (hn : h.nodes a = some n) : parentOf h a = n.parent := by
  simp [parentOf, hn]

theorem kidsOf_some (hn : h.nodes a = some n) : kidsOf h a = n.contents.children := by
  simp [kidsOf, hn]

theorem live_of_parentOf (ha : parentOf h a = some p) : ∃ n, h.nodes a = some n := by
  cases hn : h.nodes a with
  | none => simp [parentOf, hn] at ha
  | some n => exact ⟨n, rfl⟩

theorem live_of_mem_kidsOf (ha : a ∈ kidsOf h p) : ∃ n, h.nodes p = some n := by
  cases hn : h.nodes p with
  | none => simp [kidsOf, hn] at ha
  | some n => exact ⟨n, rfl⟩

theorem represents_empty : Represents .empty .empty where
  fresh _ _ := rfl
  hung a p := by simp [parentOf, kidsOf, Heap.empty]
  loopless a := by simp [parentOf, Heap.empty]
  next := rfl
  live _ := rfl
  node _ _ h := by cases h

theorem Represents.live_some (hr : Represents m h) (hn : h.nodes a = some n) : m.live a = true := by
  simp [hr.live, hn]

theorem Represents.load_ok {α : Type} (hr : Represents m h) (hn : h.nodes a = some n) (field : Memory → Ptr → α) :
    load field a m = .ok (field m a) m := if_pos (hr.live_some hn)

theorem Represents.load_error {α : Type} (hr : Represents m h) (hn : h.nodes a = none) (field : Memory → Ptr → α) :
    load field a m = .error .useAfterFree m := by
  rw [load, if_neg]
  simp [hr.live, hn]

theorem write_ok (hlive : m.live a = true) (f : Memory → Memory) : write a f m = .ok () (f m) := if_pos hlive

theorem shape_withChildren (m : Memory) (a : Ptr) (contents : JsonContents) (qs : List Ptr) :
    m.Shape a (contents.withChildren qs) ↔ m.Shape a contents := by
  cases contents <;> rfl

/-! ## A node changes its place -/

/-- `c` is the node `cn'` now, and its parent, or what was its parent, `p` is `pn'`. -/
structure Rehung (h h' : Heap) (p c : Ptr) (pn' cn' : JsonNode) : Prop where
  next : h'.next = h.next
  parent : h'.nodes p = some pn'
  child : h'.nodes c = some cn'
  other : ∀ a, a ≠ p → a ≠ c → h'.nodes a = h.nodes a

theorem Rehung.fresh (hre : Rehung h h' p c pn' cn') (hh : h.Fresh) (hp : h.nodes p = some pn) (hc : h.nodes c = some cn) :
    h'.Fresh := by
  intro a ha
  rw [hre.next] at ha
  have hnone := hh a ha
  rw [hre.other a, hnone]
  · rintro rfl
    simp [hp] at hnone
  · rintro rfl
    simp [hc] at hnone

/-- The parents after the change. -/
theorem Rehung.parentOf_eq (hre : Rehung h h' p c pn' cn') (hp : h.nodes p = some pn) (hpp : pn'.parent = pn.parent)
    (hac : a ≠ c) : parentOf h' a = parentOf h a := by
  by_cases hap : a = p
  · subst hap
    rw [parentOf_some hre.parent, parentOf_some hp, hpp]
  · simp [parentOf, hre.other a hap hac]

theorem Rehung.kidsOf_eq (hre : Rehung h h' p c pn' cn') (hc : h.nodes c = some cn)
    (hcc : cn'.contents.children = cn.contents.children) (hap : a ≠ p) : kidsOf h' a = kidsOf h a := by
  by_cases hac : a = c
  · subst hac
    rw [kidsOf_some hre.child, kidsOf_some hc, hcc]
  · simp [kidsOf, hre.other a hap hac]

/-- `c` comes to the children of `p`. -/
theorem Rehung.attach (hre : Rehung h h' p c pn' cn') (hw : WellHung h) (hp : h.nodes p = some pn)
    (hc : h.nodes c = some cn) (hpp : pn'.parent = pn.parent) (hcc : cn'.contents.children = cn.contents.children)
    (hloose : cn.parent = none) (hcp : cn'.parent = some p)
    (hkids : ∀ b, b ∈ pn'.contents.children ↔ b = c ∨ b ∈ pn.contents.children) : WellHung h' := by
  have hnot (q : Ptr) : c ∉ kidsOf h q := by
    intro hmem
    have hparent := (hw c q).2 hmem
    rw [parentOf_some hc, hloose] at hparent
    cases hparent
  intro a q
  have hiff := hw a q
  by_cases hqp : q = p
  · subst hqp
    rw [kidsOf_some hre.parent, hkids, ← kidsOf_some hp, ← hiff]
    by_cases hac : a = c
    · subst hac
      simp [parentOf_some hre.child, hcp]
    · simp [hre.parentOf_eq hp hpp hac, hac]
  · rw [hre.kidsOf_eq hc hcc hqp, ← hiff]
    by_cases hac : a = c
    · subst hac
      rw [parentOf_some hre.child, hcp, parentOf_some hc, hloose]
      simp [Ne.symm hqp]
    · rw [hre.parentOf_eq hp hpp hac]

/-- `c` goes from the children of `p`. -/
theorem Rehung.detach (hre : Rehung h h' p c pn' cn') (hw : WellHung h) (hp : h.nodes p = some pn)
    (hc : h.nodes c = some cn) (hpp : pn'.parent = pn.parent) (hcc : cn'.contents.children = cn.contents.children)
    (hparent : cn.parent = some p) (hloose : cn'.parent = none)
    (hkids : ∀ b, b ∈ pn'.contents.children ↔ b ≠ c ∧ b ∈ pn.contents.children) : WellHung h' := by
  intro a q
  have hiff := hw a q
  by_cases hqp : q = p
  · subst hqp
    rw [kidsOf_some hre.parent, hkids, ← kidsOf_some hp, ← hiff]
    by_cases hac : a = c
    · subst hac
      simp [parentOf_some hre.child, hloose]
    · simp [hre.parentOf_eq hp hpp hac, hac]
  · rw [hre.kidsOf_eq hc hcc hqp, ← hiff]
    by_cases hac : a = c
    · subst hac
      rw [parentOf_some hre.child, hloose, parentOf_some hc, hparent]
      simp [Ne.symm hqp]
    · rw [hre.parentOf_eq hp hpp hac]

/-- What the links of `m'` are besides those of `p` and its children. -/
structure Relinked (m m' : Memory) (h : Heap) (p c : Ptr) : Prop where
  fresh : m'.fresh = m.fresh
  live : m'.live = m.live
  parent : ∀ a, a ≠ c → m'.parent a = m.parent a
  key : ∀ a, a ≠ c → m'.key a = m.key a
  tag : m'.tag = m.tag
  bool_ : m'.bool_ = m.bool_
  string_ : m'.string_ = m.string_
  number_ : m'.number_ = m.number_
  head : ∀ a, a ≠ p → m'.head a = m.head a
  tail : ∀ a, a ≠ p → m'.tail a = m.tail a
  prev : ∀ a, a ≠ c → parentOf h a ≠ some p → m'.prev a = m.prev a
  next : ∀ a, a ≠ c → parentOf h a ≠ some p → m'.next a = m.next a

theorem Relinked.shape (hl : Relinked m m' h p c) (a : Ptr) (contents : JsonContents) :
    m'.Shape a contents ↔ m.Shape a contents := by
  cases contents <;> simp [Memory.Shape, hl.tag, hl.bool_, hl.string_, hl.number_]

/-- The children of any other node stay linked as they are. -/
theorem Relinked.kids (hl : Relinked m m' h p c) (hw : WellHung h) (hc : ∀ q, parentOf h c = some q → q = p)
    (ha : h.nodes a = some n) (hap : a ≠ p) (hd : DList m.prev m.next (m.head a) (m.tail a) n.contents.children) :
    DList m'.prev m'.next (m'.head a) (m'.tail a) n.contents.children := by
  have hkid (b : Ptr) (hb : b ∈ n.contents.children) : b ≠ c ∧ parentOf h b ≠ some p := by
    have hparent := (hw b a).2 (by rwa [kidsOf_some ha])
    constructor
    · rintro rfl
      exact hap (hc a hparent)
    · intro hbp
      rw [hparent] at hbp
      exact hap (Option.some.inj hbp)
  rw [hl.head a hap, hl.tail a hap]
  apply hd.congr
  · intro b hb
    exact hl.prev b (hkid b hb).1 (hkid b hb).2
  · intro b hb
    exact hl.next b (hkid b hb).1 (hkid b hb).2

/-- Where the two nodes are right, all are. -/
theorem Relinked.represents (hl : Relinked m m' h p c) (hr : Represents m h) (hre : Rehung h h' p c pn' cn')
    (hw : WellHung h') (hp : h.nodes p = some pn) (hcn : h.nodes c = some cn) (hc : ∀ q, parentOf h c = some q → q = p)
    (hpp : pn'.parent = pn.parent) (hcc : cn'.parent ≠ some c) (hpn : m'.Is p pn') (hchild : m'.Is c cn') :
    Represents m' h' := by
  refine ⟨hre.fresh hr.fresh hp hcn, hw, fun a => ?_, by rw [hl.fresh, hre.next, hr.next], fun a => ?_, fun a n ha => ?_⟩
  · by_cases hac : a = c
    · subst hac
      rwa [parentOf_some hre.child]
    · rw [hre.parentOf_eq hp hpp hac]
      exact hr.loopless a
  · rw [hl.live, hr.live]
    by_cases hap : a = p
    · subst hap
      simp [hp, hre.parent]
    by_cases hac : a = c
    · subst hac
      simp [hcn, hre.child]
    · rw [hre.other a hap hac]
  · by_cases hap : a = p
    · subst hap
      obtain rfl := Option.some.inj (hre.parent.symm.trans ha)
      exact hpn
    by_cases hac : a = c
    · subst hac
      obtain rfl := Option.some.inj (hre.child.symm.trans ha)
      exact hchild
    rw [hre.other a hap hac] at ha
    have his := hr.node a n ha
    refine ⟨?_, ?_, (hl.shape a _).2 his.shape, hl.kids hr.hung hc ha hap his.kids, fun hloose => ?_⟩
    · rw [hl.parent a hac, his.parent]
    · rw [hl.key a hac, his.key]
    · have hroot : parentOf h a ≠ some p := by simp [parentOf_some ha, hloose]
      rw [hl.prev a hac hroot, hl.next a hac hroot]
      exact his.loose hloose

/-! ## Appending and prepending -/

/-- The nodes behind `append_node`. -/
def Memory.appended (p c : Ptr) (m : Memory) : Memory :=
  { m with
    parent := Function.update m.parent c (some p)
    prev := Function.update m.prev c (m.tail p)
    next := link (Function.update m.next c none) (m.tail p) (some c)
    head := if m.tail p = none then Function.update m.head p (some c) else m.head
    tail := Function.update m.tail p (some c) }

/-- The nodes behind `prepend_node`. -/
def Memory.prepended (p c : Ptr) (m : Memory) : Memory :=
  { m with
    parent := Function.update m.parent c (some p)
    prev := link (Function.update m.prev c none) (m.head p) (some c)
    next := Function.update m.next c (m.head p)
    tail := if m.head p = none then Function.update m.tail p (some c) else m.tail
    head := Function.update m.head p (some c) }

theorem appendNode_links (hp : m.live p = true) (hc : m.live c = true) (ht : ∀ t, m.tail p = some t → m.live t = true) :
    appendNode p c m = .ok () (m.appended p c) := by
  cases hlast : m.tail p with
  | none =>
    simp [appendNode, bind, EStateM.bind, write, load, Memory.setParent, Memory.setPrev, Memory.setNext,
      Memory.setHead, Memory.setTail, Memory.appended, hp, hc, hlast]
  | some t =>
    simp [appendNode, bind, EStateM.bind, write, load, Memory.setParent, Memory.setPrev, Memory.setNext,
      Memory.setTail, Memory.appended, hp, hc, hlast, ht t hlast]

theorem prependNode_links (hp : m.live p = true) (hc : m.live c = true) (ht : ∀ t, m.head p = some t → m.live t = true) :
    prependNode p c m = .ok () (m.prepended p c) := by
  cases hfirst : m.head p with
  | none =>
    simp [prependNode, bind, EStateM.bind, write, load, Memory.setParent, Memory.setPrev, Memory.setNext,
      Memory.setHead, Memory.setTail, Memory.prepended, hp, hc, hfirst]
  | some t =>
    simp [prependNode, bind, EStateM.bind, write, load, Memory.setParent, Memory.setPrev, Memory.setNext,
      Memory.setHead, Memory.prepended, hp, hc, hfirst, ht t hfirst]

/-- The children of a node have it as their parent. -/
theorem Represents.kid (hr : Represents m h) (hp : h.nodes p = some pn) (hb : b ∈ pn.contents.children) :
    parentOf h b = some p ∧ m.live b = true := by
  have hparent := (hr.hung b p).2 (by rwa [kidsOf_some hp])
  obtain ⟨n, hn⟩ := live_of_parentOf hparent
  exact ⟨hparent, hr.live_some hn⟩

theorem Represents.relinked_appended (hr : Represents m h) (hp : h.nodes p = some pn) (c : Ptr) :
    Relinked m (m.appended p c) h p c := by
  have hkids := (hr.node p pn hp).kids
  refine ⟨rfl, rfl, fun a ha => Function.update_of_ne ha _ _, fun _ _ => rfl, rfl, rfl, rfl, rfl, fun a ha => ?_,
    fun a ha => Function.update_of_ne ha _ _, fun a ha _ => Function.update_of_ne ha _ _, fun a ha hap => ?_⟩
  · dsimp only [Memory.appended]
    split
    · exact Function.update_of_ne ha _ _
    · rfl
  · have hne : m.tail p ≠ some a := by
      intro htail
      rw [hkids.tail_eq] at htail
      exact hap (hr.kid hp (List.mem_of_getLast? htail)).1
    dsimp only [Memory.appended]
    rw [link_of_ne hne, Function.update_of_ne ha]

theorem Represents.relinked_prepended (hr : Represents m h) (hp : h.nodes p = some pn) (c : Ptr) :
    Relinked m (m.prepended p c) h p c := by
  have hkids := (hr.node p pn hp).kids
  refine ⟨rfl, rfl, fun a ha => Function.update_of_ne ha _ _, fun _ _ => rfl, rfl, rfl, rfl, rfl,
    fun a ha => Function.update_of_ne ha _ _, fun a ha => ?_, fun a ha hap => ?_, fun a ha _ => Function.update_of_ne ha _ _⟩
  · dsimp only [Memory.prepended]
    split
    · exact Function.update_of_ne ha _ _
    · rfl
  · have hne : m.head p ≠ some a := by
      intro hhead
      rw [hkids.head_eq] at hhead
      exact hap (hr.kid hp (List.mem_of_head? hhead)).1
    dsimp only [Memory.prepended]
    rw [link_of_ne hne, Function.update_of_ne ha]

/-- A node that has no parent is hung below `p` by links `m'`, among whose children it is now. -/
theorem Represents.attach (hr : Represents m h) (hpc : p ≠ c) (hp : h.nodes p = some pn) (hc : h.nodes c = some cn)
    (hloose : cn.parent = none) (hl : Relinked m m' h p c) (hparent : m'.parent c = some p) (hkey : m'.key c = m.key c)
    (hlist : DList m'.prev m'.next (m'.head p) (m'.tail p) cs) (hkids : ∀ b, b ∈ cs ↔ b = c ∨ b ∈ pn.contents.children)
    (hcs : (pn.contents.withChildren cs).children = cs)
    (hre : Rehung h h' p c { pn with contents := pn.contents.withChildren cs } { cn with parent := some p }) :
    Represents m' h' := by
  have hnone (q : Ptr) (hq : parentOf h c = some q) : q = p := by
    rw [parentOf_some hc, hloose] at hq
    cases hq
  have hpn := hr.node p pn hp
  have hcn := hr.node c cn hc
  have hw := hre.attach hr.hung hp hc rfl rfl hloose rfl (by simpa [hcs] using hkids)
  refine hl.represents hr hre hw hp hc hnone rfl (by simpa using hpc) ⟨?_, ?_, ?_, ?_, fun hroot => ?_⟩
    ⟨hparent, ?_, ?_, ?_, fun hroot => ?_⟩
  · rw [hl.parent p hpc, hpn.parent]
  · rw [hl.key p hpc, hpn.key]
  · rw [hl.shape, shape_withChildren]
    exact hpn.shape
  · rw [hcs]
    exact hlist
  · have hne : parentOf h p ≠ some p := by simp [parentOf_some hp, show pn.parent = none from hroot]
    rw [hl.prev p hpc hne, hl.next p hpc hne]
    exact hpn.loose hroot
  · rw [hkey, hcn.key]
  · exact (hl.shape c _).2 hcn.shape
  · have hsame := hl.kids hr.hung hnone hc (Ne.symm hpc) hcn.kids
    exact hsame
  · cases hroot

theorem appendNode_outcome (hr : Represents m h) (hpc : p ≠ c) (hp : h.nodes p = some pn) (hc : h.nodes c = some cn)
    (hloose : cn.parent = none) (hcs : ∀ cs, (pn.contents.withChildren cs).children = cs) :
    Outcome (appendNode p c m) (CodiusSandbox.appendNode p c h) := by
  have hkids := (hr.node p pn hp).kids
  have hnot : c ∉ pn.contents.children := by
    intro hmem
    have hparent := (hr.kid hp hmem).1
    rw [parentOf_some hc, hloose] at hparent
    cases hparent
  have hlinks := appendNode_links (hr.live_some hp) (hr.live_some hc) fun t ht => by
    rw [hkids.tail_eq] at ht
    exact (hr.kid hp (List.mem_of_getLast? ht)).2
  obtain ⟨h', hrun, hnext, hparent, hchild, hother⟩ := CodiusSandbox.appendNode_run hp hc hpc
  rw [hlinks, hrun]
  have hhead : (m.appended p c).head p = (m.head p).or (some c) := by
    rw [← hkids.append_head]
    dsimp only [Memory.appended]
    split <;> simp
  have hlist := hkids.append hnot
  rw [← hhead] at hlist
  have hlist' : DList (m.appended p c).prev (m.appended p c).next ((m.appended p c).head p) ((m.appended p c).tail p)
      (pn.contents.children ++ [c]) := by simpa [Memory.appended] using hlist
  exact .ok (hr.attach hpc hp hc hloose (hr.relinked_appended hp c) (Function.update_self _ _ _) rfl hlist'
    (by simp [or_comm]) (hcs _) ⟨hnext, hparent, hchild, hother⟩)

theorem prependNode_run (hp : h.nodes p = some pn) (hc : h.nodes c = some cn) (hpc : p ≠ c) :
    ∃ h', OnLists.prependNode p c h = .ok () h' ∧
      Rehung h h' p c { pn with contents := pn.contents.withChildren (c :: pn.contents.children) }
        { cn with parent := some p } := by
  have hp' : Function.update h.nodes c (some { cn with parent := some p }) p = some pn := by
    rw [Function.update_of_ne hpc, hp]
  rw [OnLists.prependNode, bind_ok (deref_ok hc), store, bind_modify, bind_ok (deref_ok hp')]
  refine ⟨_, rfl, rfl, Function.update_self _ _ _, ?_, ?_⟩
  · dsimp only
    rw [Function.update_of_ne (Ne.symm hpc), Function.update_self]
  · intro a hap hac
    dsimp only
    rw [Function.update_of_ne hap, Function.update_of_ne hac]

theorem prependNode_outcome (hr : Represents m h) (hpc : p ≠ c) (hp : h.nodes p = some pn) (hc : h.nodes c = some cn)
    (hloose : cn.parent = none) (hcs : ∀ cs, (pn.contents.withChildren cs).children = cs) :
    Outcome (prependNode p c m) (OnLists.prependNode p c h) := by
  have hkids := (hr.node p pn hp).kids
  have hnot : c ∉ pn.contents.children := by
    intro hmem
    have hparent := (hr.kid hp hmem).1
    rw [parentOf_some hc, hloose] at hparent
    cases hparent
  have hlinks := prependNode_links (hr.live_some hp) (hr.live_some hc) fun t ht => by
    rw [hkids.head_eq] at ht
    exact (hr.kid hp (List.mem_of_head? ht)).2
  obtain ⟨h', hrun, hre⟩ := prependNode_run hp hc hpc
  rw [hlinks, hrun]
  have htail : (m.prepended p c).tail p = (m.tail p).or (some c) := by
    rw [← hkids.prepend_tail]
    dsimp only [Memory.prepended]
    split <;> simp
  have hlist := hkids.prepend hnot
  rw [← htail] at hlist
  have hlist' : DList (m.prepended p c).prev (m.prepended p c).next ((m.prepended p c).head p) ((m.prepended p c).tail p)
      (c :: pn.contents.children) := by simpa [Memory.prepended] using hlist
  exact .ok (hr.attach hpc hp hc hloose (hr.relinked_prepended hp c) (Function.update_self _ _ _) rfl hlist'
    (by simp) (hcs _) hre)

/-! ## One node alone -/

/-- The node at `c` is new or gets a new key or value; its parent and its children, if it was there, stay. -/
structure Renoded (m m' : Memory) (h h' : Heap) (c : Ptr) (cn' : JsonNode) : Prop where
  nodes : h'.nodes = Function.update h.nodes c (some cn')
  fresh : h'.Fresh
  next_eq : m'.fresh = h'.next
  live : m'.live = Function.update m.live c true
  parent : ∀ a, a ≠ c → m'.parent a = m.parent a
  key : ∀ a, a ≠ c → m'.key a = m.key a
  tag : ∀ a, a ≠ c → m'.tag a = m.tag a
  bool_ : ∀ a, a ≠ c → m'.bool_ a = m.bool_ a
  string_ : ∀ a, a ≠ c → m'.string_ a = m.string_ a
  number_ : ∀ a, a ≠ c → m'.number_ a = m.number_ a
  head : ∀ a, a ≠ c → m'.head a = m.head a
  tail : ∀ a, a ≠ c → m'.tail a = m.tail a
  prev : ∀ a n, h.nodes a = some n → m'.prev a = m.prev a
  next : ∀ a n, h.nodes a = some n → m'.next a = m.next a

theorem Renoded.represents (hn : Renoded m m' h h' c cn') (hr : Represents m h) (hparent : cn'.parent = parentOf h c)
    (hkids : cn'.contents.children = kidsOf h c) (his : m'.Is c cn') : Represents m' h' := by
  have hparents (a : Ptr) : parentOf h' a = parentOf h a := by
    by_cases hac : a = c
    · subst hac
      simp [parentOf, hn.nodes, hparent]
    · simp [parentOf, hn.nodes, hac]
  have hchildren (a : Ptr) : kidsOf h' a = kidsOf h a := by
    by_cases hac : a = c
    · subst hac
      simp [kidsOf, hn.nodes, hkids]
    · simp [kidsOf, hn.nodes, hac]
  refine ⟨hn.fresh, fun a p => ?_, fun a => ?_, hn.next_eq, fun a => ?_, fun a n ha => ?_⟩
  · rw [hparents, hchildren]
    exact hr.hung a p
  · rw [hparents]
    exact hr.loopless a
  · rw [hn.live, hn.nodes]
    by_cases hac : a = c
    · subst hac
      simp
    · simp [hac, hr.live]
  · by_cases hac : a = c
    · subst hac
      rw [hn.nodes, Function.update_self] at ha
      obtain rfl := Option.some.inj ha
      exact his
    rw [hn.nodes, Function.update_of_ne hac] at ha
    have hold := hr.node a n ha
    refine ⟨?_, ?_, ?_, ?_, fun hroot => ?_⟩
    · rw [hn.parent a hac, hold.parent]
    · rw [hn.key a hac, hold.key]
    · have hshape := hold.shape
      cases hcontents : n.contents <;> rw [hcontents] at hshape <;>
        simpa [Memory.Shape, hn.tag a hac, hn.bool_ a hac, hn.string_ a hac, hn.number_ a hac] using hshape
    · rw [hn.head a hac, hn.tail a hac]
      apply hold.kids.congr
      · intro b hb
        obtain ⟨bn, hbn⟩ := live_of_parentOf (hr.kid ha hb).1
        exact hn.prev b bn hbn
      · intro b hb
        obtain ⟨bn, hbn⟩ := live_of_parentOf (hr.kid ha hb).1
        exact hn.next b bn hbn
    · rw [hn.prev a n ha, hn.next a n ha]
      exact hold.loose hroot

theorem setKey_run (hr : Represents m h) (hc : h.nodes c = some cn) (key : Str) :
    ∃ m' h', write c (Memory.setKey c (some key)) m = .ok () m' ∧ OnLists.setKey c key h = .ok () h' ∧
      h'.nodes = Function.update h.nodes c (some { cn with key := some key }) ∧ Represents m' h' := by
  have hold := hr.node c cn hc
  have hlist : OnLists.setKey c key h =
      .ok () { h with nodes := Function.update h.nodes c (some { cn with key := some key }) } := by
    rw [OnLists.setKey, bind_ok (deref_ok hc)]
    rfl
  have hre : Renoded m (m.setKey c (some key)) h
      { h with nodes := Function.update h.nodes c (some { cn with key := some key }) } c { cn with key := some key } := by
    refine ⟨rfl, fun a ha => ?_, hr.next, ?_, fun _ _ => rfl, fun a ha => Function.update_of_ne ha _ _, fun _ _ => rfl,
      fun _ _ => rfl, fun _ _ => rfl, fun _ _ => rfl, fun _ _ => rfl, fun _ _ => rfl, fun _ _ _ => rfl, fun _ _ _ => rfl⟩
    · have hlt := hr.fresh.lt hc
      have hne : a ≠ c := Nat.ne_of_gt (Nat.lt_of_lt_of_le hlt ha)
      dsimp only
      rw [Function.update_of_ne hne]
      exact hr.fresh a ha
    · exact (Function.update_eq_self_iff.2 (hr.live_some hc).symm).symm
  refine ⟨_, _, write_ok (hr.live_some hc) _, hlist, rfl, hre.represents hr ?_ ?_ ?_⟩
  · rw [parentOf_some hc]
  · rw [kidsOf_some hc]
  · exact ⟨hold.parent, Function.update_self _ _ _, hold.shape, hold.kids, hold.loose⟩

/-! ## New nodes -/

/-- A new node with the values `b`, `s` and `num`. -/
def Memory.created (tag : JsonTag) (b : Bool) (s : Option Str) (num : Word) (m : Memory) : Memory where
  live := Function.update m.live m.fresh true
  fresh := m.fresh + 1
  parent := Function.update m.parent m.fresh none
  prev := Function.update m.prev m.fresh none
  next := Function.update m.next m.fresh none
  key := Function.update m.key m.fresh none
  tag := Function.update m.tag m.fresh tag
  bool_ := Function.update m.bool_ m.fresh b
  string_ := Function.update m.string_ m.fresh s
  number_ := Function.update m.number_ m.fresh num
  head := Function.update m.head m.fresh none
  tail := Function.update m.tail m.fresh none

theorem mknode_links (tag : JsonTag) : mknode tag m = .ok m.fresh (m.created tag false none 0) := rfl

/-- The new node gets its value. -/
theorem bind_mknode (tag : JsonTag) {b : Bool} {s : Option Str} {num : Word} {f : Ptr → Memory → Memory}
    (hf : f m.fresh (m.created tag false none 0) = m.created tag b s num) :
    (do let ret ← mknode tag; write ret (f ret); return ret : NodeM Ptr) m = .ok m.fresh (m.created tag b s num) := by
  have hlive : (m.created tag false none 0).live m.fresh = true := Function.update_self _ _ _
  rw [bind_ok (mknode_links tag), bind_ok (write_ok hlive (f m.fresh)), hf]
  rfl

theorem jsonMkbool_run (b : Bool) : jsonMkbool b m = .ok m.fresh (m.created .bool b none 0) := by
  apply bind_mknode
  simp only [Memory.created, Function.update_idem]

theorem jsonMkstring_run (s : Str) : jsonMkstring s m = .ok m.fresh (m.created .string false (some s) 0) := by
  apply bind_mknode
  simp only [Memory.created, Function.update_idem]

theorem jsonMknumber_run (num : Word) : jsonMknumber num m = .ok m.fresh (m.created .number false none num) := by
  apply bind_mknode
  simp only [Memory.created, Function.update_idem]

/-- A node without children is made in both. -/
theorem Represents.created (hr : Represents m h) {tag : JsonTag} {bit : Bool} {s : Option Str} {num : Word}
    {contents : JsonContents} (hkids : contents.children = [])
    (hshape : (m.created tag bit s num).Shape m.fresh contents) :
    Outcome (.ok m.fresh (m.created tag bit s num)) (CodiusSandbox.mknode contents h) := by
  have hnone : h.nodes h.next = none := hr.fresh _ (Nat.le_refl _)
  have hnew : h.next = m.fresh := hr.next.symm
  have hold (a : Ptr) (n : JsonNode) (ha : h.nodes a = some n) : a ≠ m.fresh := by
    rintro rfl
    rw [hr.next, hnone] at ha
    cases ha
  have hre : Renoded m (m.created tag bit s num) h (h.withNode contents) m.fresh ⟨none, none, contents⟩ := by
    refine ⟨by rw [← hnew]; rfl, hr.fresh.withNode contents, by rw [withNode_next, hnew]; rfl, rfl, ?_, ?_, ?_, ?_, ?_, ?_,
      ?_, ?_, fun a n ha => Function.update_of_ne (hold a n ha) _ _,
      fun a n ha => Function.update_of_ne (hold a n ha) _ _⟩ <;>
    exact fun a ha => Function.update_of_ne ha _ _
  have his : (m.created tag bit s num).Is m.fresh ⟨none, none, contents⟩ := by
    refine ⟨Function.update_self _ _ _, Function.update_self _ _ _, hshape, ?_, fun _ => ?_⟩
    · rw [hkids]
      simpa [Memory.created] using DList.nil
    · simp [Memory.created]
  rw [mknode_run, hnew]
  apply Outcome.ok
  apply hre.represents hr _ _ his
  · simp [parentOf, ← hnew, hnone]
  · simp [kidsOf, ← hnew, hnone, hkids]

/-! ## One after another -/

theorem Outcome.bind {α β : Type} {x : NodeM α} {y : HeapM α} {f : α → NodeM β} {g : α → HeapM β}
    (hx : Outcome (x m) (y h)) (hf : ∀ a m' h', x m = .ok a m' → y h = .ok a h' → Represents m' h' → Outcome (f a m') (g a h')) :
    Outcome ((x >>= f) m) ((y >>= g) h) := by
  generalize hxm : x m = r at hx
  generalize hyh : y h = s at hx
  cases hx with
  | ok hr =>
    rw [bind_ok hxm, bind_ok hyh]
    exact hf _ _ _ hxm hyh hr
  | error =>
    rw [bind_error hxm, bind_error hyh]
    exact .error

/-- A field is read where the node is. -/
theorem Represents.bind_load {α β : Type} (hr : Represents m h) (field : Memory → Ptr → α) {f : α → NodeM β}
    {g : JsonNode → HeapM β} (hf : ∀ n, h.nodes a = some n → m.Is a n → Outcome (f (field m a) m) (g n h)) :
    Outcome ((load field a >>= f) m) ((deref a >>= g) h) := by
  cases hn : h.nodes a with
  | none =>
    rw [bind_error (hr.load_error hn field), bind_error (deref_freed hn)]
    exact .error
  | some n =>
    rw [bind_ok (hr.load_ok hn field), bind_ok (deref_ok hn)]
    exact hf n hn (hr.node a n hn)

theorem Memory.Is.tag_eq (his : m.Is a n) : m.tag a = tagOf n.contents := by
  have hshape := his.shape
  cases hcontents : n.contents <;> rw [hcontents] at hshape
  · exact hshape
  · exact hshape.1
  · exact hshape.1
  · exact hshape.1
  · exact hshape
  · exact hshape

theorem children_withChildren {contents : JsonContents} (htag : tagOf contents = .array ∨ tagOf contents = .object)
    (qs : List Ptr) : (contents.withChildren qs).children = qs := by
  cases contents <;> simp_all [tagOf, JsonContents.withChildren, JsonContents.children]

/-- What follows the two `assert`s. -/
theorem Represents.bind_checkLoose (hr : Represents m h) (tag : JsonTag) {f : NodeM Unit} {g : HeapM Unit}
    (hf : ∀ pn cn, h.nodes p = some pn → h.nodes c = some cn → tagOf pn.contents = tag → cn.parent = none →
      Outcome (f m) (g h)) :
    Outcome ((checkLoose tag p c >>= fun _ => f) m) ((OnLists.checkLoose tag p c >>= fun _ => g) h) := by
  rw [checkLoose, OnLists.checkLoose, bind_assoc, bind_assoc]
  apply hr.bind_load
  intro pn hpn hp
  rw [hp.tag_eq]
  by_cases htag : tagOf pn.contents = tag
  · rw [if_pos htag, if_pos htag, bind_assoc, bind_assoc]
    apply hr.bind_load
    intro cn hcn hc
    rw [hc.parent]
    by_cases hloose : cn.parent = none
    · rw [if_pos hloose, if_pos hloose]
      exact hf pn cn hpn hcn htag hloose
    · rw [if_neg hloose, if_neg hloose]
      exact .error
  · rw [if_neg htag, if_neg htag]
    exact .error

/-! ## The functions that hang a node below another -/

theorem jsonAppendElement_eq (array element : Ptr) : CodiusSandbox.jsonAppendElement array element =
    (OnLists.checkLoose .array array element >>= fun _ => CodiusSandbox.appendNode array element) := by
  rw [CodiusSandbox.jsonAppendElement, OnLists.checkLoose, bind_assoc]
  congr 1
  funext n
  cases n.contents <;> simp only [tagOf, reduceCtorEq, if_true, if_false] <;> try rfl
  rw [bind_assoc]
  congr 1
  funext e
  split <;> rfl

theorem jsonAppendMember_eq (object : Ptr) (key : Str) (value : Ptr) : CodiusSandbox.jsonAppendMember object key value =
    (OnLists.checkLoose .object object value >>= fun _ => OnLists.setKey value key >>= fun _ =>
      CodiusSandbox.appendNode object value) := by
  rw [CodiusSandbox.jsonAppendMember, OnLists.checkLoose, bind_assoc]
  congr 1
  funext n
  cases n.contents <;> simp only [tagOf, reduceCtorEq, if_true, if_false] <;> try rfl
  funext h
  rw [bind_assoc]
  cases hv : h.nodes value with
  | none => rw [bind_error (deref_freed hv), bind_error (deref_freed hv)]
  | some v =>
    rw [bind_ok (deref_ok hv), bind_ok (deref_ok hv)]
    by_cases hloose : v.parent = none
    · rw [if_pos hloose, if_pos hloose, OnLists.setKey, pure_bind, bind_assoc, bind_ok (deref_ok hv)]
    · rw [if_neg hloose, if_neg hloose]
      rfl

theorem jsonAppendElement_outcome (hr : Represents m h) (hpc : p ≠ c) :
    Outcome (jsonAppendElement p c m) (CodiusSandbox.jsonAppendElement p c h) := by
  rw [jsonAppendElement_eq]
  apply hr.bind_checkLoose
  intro pn cn hp hc htag hloose
  exact appendNode_outcome hr hpc hp hc hloose (children_withChildren (.inl htag))

theorem jsonPrependElement_outcome (hr : Represents m h) (hpc : p ≠ c) :
    Outcome (jsonPrependElement p c m) (OnLists.jsonPrependElement p c h) := by
  apply hr.bind_checkLoose
  intro pn cn hp hc htag hloose
  exact prependNode_outcome hr hpc hp hc hloose (children_withChildren (.inl htag))

/-- A member gets its key first. -/
theorem Represents.bind_setKey (hr : Represents m h) (hpc : p ≠ c) (hp : h.nodes p = some pn) (hc : h.nodes c = some cn)
    (key : Str) {f : NodeM Unit} {g : HeapM Unit} (hf : ∀ m' h', Represents m' h' → h'.nodes p = some pn →
      h'.nodes c = some { cn with key := some key } → Outcome (f m') (g h')) :
    Outcome ((write c (Memory.setKey c (some key)) >>= fun _ => f) m) ((OnLists.setKey c key >>= fun _ => g) h) := by
  obtain ⟨m', h', hlinks, hlists, hnodes, hr'⟩ := setKey_run hr hc key
  rw [bind_ok hlinks, bind_ok hlists]
  apply hf m' h' hr'
  · rw [hnodes, Function.update_of_ne hpc, hp]
  · rw [hnodes, Function.update_self]

theorem jsonAppendMember_outcome (hr : Represents m h) (hpc : p ≠ c) (key : Str) :
    Outcome (jsonAppendMember p key c m) (CodiusSandbox.jsonAppendMember p key c h) := by
  rw [jsonAppendMember_eq]
  apply hr.bind_checkLoose
  intro pn cn hp hc htag hloose
  apply hr.bind_setKey hpc hp hc
  intro m' h' hr' hp' hc'
  exact appendNode_outcome hr' hpc hp' hc' hloose (children_withChildren (.inr htag))

theorem jsonPrependMember_outcome (hr : Represents m h) (hpc : p ≠ c) (key : Str) :
    Outcome (jsonPrependMember p key c m) (OnLists.jsonPrependMember p key c h) := by
  apply hr.bind_checkLoose
  intro pn cn hp hc htag hloose
  apply hr.bind_setKey hpc hp hc
  intro m' h' hr' hp' hc'
  exact prependNode_outcome hr' hpc hp' hc' hloose (children_withChildren (.inr htag))

end

end CodiusSandbox.JsonLinks
