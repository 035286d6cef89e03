import CodiusSandbox.JsonLinkRemoval
/-!
# Runs of the functions on JSON nodes

An `Op` is one call from outside, with the pointers and strings it is given. A run on the links answers, call by
call, what it answers on the lists (`run_outcome`). On the way a node has a key if and only if its parent is an
object (`Labelled`).
-/
namespace CodiusSandbox.JsonLinks

open LinkedList TreeHeap Wp

/-! ## Calls -/

inductive Op where
  | mknull
  | mkbool (b : Bool)
  | mkstring (s : Str)
  | mknumber (n : Word)
  | mkarray
  | mkobject
  | appendElement (array element : Ptr)
  | prependElement (array element : Ptr)
  | appendMember (object : Ptr) (key : Str) (value : Ptr)
  | prependMember (object : Ptr) (key : Str) (value : Ptr)
  | removeFromParent (node : Ptr)
  | delete (node : Option Ptr)
  | firstChild (node : Option Ptr)
  | findElement (array : Option Ptr) (index : Int)
  | findMember (object : Option Ptr) (name : Str)

/-- What a call returns, null if it is a `void` function. -/
def exec : Op → NodeM (Option Ptr)
  | .mknull => some <$> jsonMknull
  | .mkbool b => some <$> jsonMkbool b
  | .mkstring s => some <$> jsonMkstring s
  | .mknumber n => some <$> jsonMknumber n
  | .mkarray => some <$> jsonMkarray
  | .mkobject => some <$> jsonMkobject
  | .appendElement array element => do jsonAppendElement array element; return none
  | .prependElement array element => do jsonPrependElement array element; return none
  | .appendMember object key value => do jsonAppendMember object key value; return none
  | .prependMember object key value => do jsonPrependMember object key value; return none
  | .removeFromParent node => do jsonRemoveFromParent node; return none
  | .delete node => do jsonDelete node; return none
  | .firstChild node => jsonFirstChild node
  | .findElement array index => jsonFindElement array index
  | .findMember object name => jsonFindMember object name

def OnLists.exec : Op → HeapM (Option Ptr)
  | .mknull => some <$> CodiusSandbox.mknode .null
  | .mkbool b => some <$> CodiusSandbox.mknode (.bool b)
  | .mkstring s => some <$> CodiusSandbox.mknode (.string s)
  | .mknumber n => some <$> CodiusSandbox.mknode (.number n)
  | .mkarray => some <$> CodiusSandbox.mknode (.array [])
  | .mkobject => some <$> CodiusSandbox.mknode (.object [])
  | .appendElement array element => do CodiusSandbox.jsonAppendElement array element; return none
  | .prependElement array element => do jsonPrependElement array element; return none
  | .appendMember object key value => do CodiusSandbox.jsonAppendMember object key value; return none
  | .prependMember object key value => do jsonPrependMember object key value; return none
  | .removeFromParent node => do CodiusSandbox.jsonRemoveFromParent node; return none
  | .delete node => do CodiusSandbox.jsonDelete node; return none
  | .firstChild node => jsonFirstChild node
  | .findElement array index => jsonFindElement array index
  | .findMember object name => CodiusSandbox.jsonFindMember object name

/-- Its strings end at their NUL, and no node is to be its own child. -/
def Op.Proper : Op → Prop
  | .mkstring s => 0 ∉ s
  | .appendElement array element | .prependElement array element => array ≠ element
  | .appendMember object key value | .prependMember object key value => object ≠ value ∧ 0 ∉ key
  | _ => True

section
variable {m m' : Memory} {h h' : Heap} {a b c p q : Ptr} {n cn pn cn' pn' : JsonNode} {op : Op} {ops : List Op}

theorem Outcome.map {α β : Type} {x : NodeM α} {y : HeapM α} (hx : Outcome (x m) (y h)) (f : α → β) :
    Outcome ((f <$> x) m) ((f <$> y) h) := by
  rw [map_eq_pure_bind, map_eq_pure_bind]
  exact hx.bind fun _ _ _ _ _ hr => .ok hr

theorem exec_outcome (hr : Represents m h) (hop : op.Proper) : Outcome (exec op m) (OnLists.exec op h) := by
  cases op with
  | mknull =>
    apply Outcome.map
    exact hr.created rfl (Function.update_self _ _ _)
  | mkbool b =>
    apply Outcome.map
    rw [jsonMkbool_run]
    exact hr.created rfl ⟨Function.update_self _ _ _, Function.update_self _ _ _⟩
  | mkstring s =>
    apply Outcome.map
    rw [jsonMkstring_run]
    exact hr.created rfl ⟨Function.update_self _ _ _, Function.update_self _ _ _⟩
  | mknumber num =>
    apply Outcome.map
    rw [jsonMknumber_run]
    exact hr.created rfl ⟨Function.update_self _ _ _, Function.update_self _ _ _⟩
  | mkarray =>
    apply Outcome.map
    exact hr.created rfl (Function.update_self _ _ _)
  | mkobject =>
    apply Outcome.map
    exact hr.created rfl (Function.update_self _ _ _)
  | appendElement array element => exact (jsonAppendElement_outcome hr hop).bind fun _ _ _ _ _ hr' => .ok hr'
  | prependElement array element => exact (jsonPrependElement_outcome hr hop).bind fun _ _ _ _ _ hr' => .ok hr'
  | appendMember object key value => exact (jsonAppendMember_outcome hr hop.1 key).bind fun _ _ _ _ _ hr' => .ok hr'
  | prependMember object key value => exact (jsonPrependMember_outcome hr hop.1 key).bind fun _ _ _ _ _ hr' => .ok hr'
  | removeFromParent node => exact (jsonRemoveFromParent_outcome hr node).bind fun _ _ _ _ _ hr' => .ok hr'
  | delete node => exact (jsonDelete_outcome hr node).bind fun _ _ _ _ _ hr' => .ok hr'
  | firstChild node => exact jsonFirstChild_outcome hr node
  | findElement array index => exact jsonFindElement_outcome hr array index
  | findMember object name => exact jsonFindMember_outcome hr object name

theorem execs_outcome (hr : Represents m h) (hops : ∀ op ∈ ops, op.Proper) :
    Outcome (ops.mapM exec m) (ops.mapM OnLists.exec h) := by
  induction ops generalizing m h with
  | nil => exact .ok hr
  | cons op ops ih =>
    rw [List.mapM_cons, List.mapM_cons]
    apply (exec_outcome hr (hops op (by simp))).bind
    intro ret m₁ h₁ _ _ hr₁
    apply (ih hr₁ fun op hop => hops op (by simp [hop])).bind
    intro rets m₂ h₂ _ _ hr₂
    exact .ok hr₂

/-! ## Keys -/

def tagAt (h : Heap) (a : Ptr) : Option JsonTag := (h.nodes a).map fun n => tagOf n.contents

/-- The members of objects have keys, and no other nodes have. -/
structure Labelled (h : Heap) : Prop where
  key : ∀ a n, h.nodes a = some n → (n.key ≠ none ↔ ∃ p, n.parent = some p ∧ tagAt h p = some .object)
  noNulKey : ∀ a n k, h.nodes a = some n → n.key = some k → 0 ∉ k
  noNul : ∀ a n s, h.nodes a = some n → n.contents = .string s → 0 ∉ s

theorem labelled_empty : Labelled .empty := by
  constructor
  · intro a n hn
    cases hn
  · intro a n k hn
    cases hn
  · intro a n s hn
    cases hn

theorem tagAt_some (hn : h.nodes a = some n) : tagAt h a = some (tagOf n.contents) := by
  simp [tagAt, hn]

theorem tagOf_withChildren (contents : JsonContents) (qs : List Ptr) : tagOf (contents.withChildren qs) = tagOf contents := by
  cases contents <;> rfl

theorem Labelled.loose (hl : Labelled h) (hn : h.nodes a = some n) (hroot : n.parent = none) : n.key = none := by
  by_contra hkey
  obtain ⟨p, hp, -⟩ := (hl.key a n hn).1 hkey
  rw [hroot] at hp
  cases hp

theorem withChildren_eq_string {contents : JsonContents} {qs : List Ptr} {s : Str}
    (hs : contents.withChildren qs = .string s) : contents = .string s := by
  cases contents <;> simp_all [JsonContents.withChildren]

/-- The labels stay when `c` gets or loses its place below `p`, where its own are right. -/
theorem Labelled.rehung {cs : List Ptr} {parent : Option Ptr} {key : Option Str} (hl : Labelled h)
    (hre : Rehung h h' p c { pn with contents := pn.contents.withChildren cs } { cn with parent := parent, key := key })
    (hp : h.nodes p = some pn) (hc : h.nodes c = some cn)
    (hkey : key ≠ none ↔ ∃ q, parent = some q ∧ tagAt h q = some .object) (hnul : ∀ k, key = some k → 0 ∉ k) :
    Labelled h' := by
  have htag (a : Ptr) : tagAt h' a = tagAt h a := by
    by_cases hap : a = p
    · subst hap
      rw [tagAt_some hre.parent, tagAt_some hp, tagOf_withChildren]
    by_cases hac : a = c
    · subst hac
      rw [tagAt_some hre.child, tagAt_some hc]
    · rw [tagAt, hre.other a hap hac, tagAt]
  -- every node but `c` has the labels of one that was there
  have hold (a : Ptr) (n : JsonNode) (hac : a ≠ c) (hn : h'.nodes a = some n) : ∃ n₀, h.nodes a = some n₀ ∧
      n.parent = n₀.parent ∧ n.key = n₀.key ∧ ∀ s, n.contents = .string s → n₀.contents = .string s := by
    by_cases hap : a = p
    · subst hap
      obtain rfl := Option.some.inj (hre.parent.symm.trans hn)
      exact ⟨pn, hp, rfl, rfl, fun s hs => withChildren_eq_string hs⟩
    · rw [hre.other a hap hac] at hn
      exact ⟨n, hn, rfl, rfl, fun s hs => hs⟩
  refine ⟨fun a n hn => ?_, fun a n k hn hk => ?_, fun a n s hn hs => ?_⟩
  · simp only [htag]
    by_cases hac : a = c
    · subst hac
      obtain rfl := Option.some.inj (hre.child.symm.trans hn)
      exact hkey
    · obtain ⟨n₀, hn₀, hparent, hkey₀, -⟩ := hold a n hac hn
      rw [hparent, hkey₀]
      exact hl.key a n₀ hn₀
  · by_cases hac : a = c
    · subst hac
      obtain rfl := Option.some.inj (hre.child.symm.trans hn)
      exact hnul k hk
    · obtain ⟨n₀, hn₀, -, hkey₀, -⟩ := hold a n hac hn
      exact hl.noNulKey a n₀ k hn₀ (hkey₀.symm.trans hk)
  · by_cases hac : a = c
    · subst hac
      obtain rfl := Option.some.inj (hre.child.symm.trans hn)
      exact hl.noNul a cn s hc hs
    · obtain ⟨n₀, hn₀, -, -, hstring⟩ := hold a n hac hn
      exact hl.noNul a n₀ s hn₀ (hstring s hs)

theorem Labelled.withNode (hl : Labelled h) (hr : Represents m h) {contents : JsonContents}
    (hnul : ∀ s, contents = .string s → 0 ∉ s) : Labelled (h.withNode contents) := by
  have hold (a : Ptr) (n : JsonNode) (hn : (h.withNode contents).nodes a = some n) :
      (a = h.next ∧ n = ⟨none, none, contents⟩) ∨ h.nodes a = some n := by
    by_cases hnew : a = h.next
    · subst hnew
      rw [withNode_nodes_next] at hn
      exact .inl ⟨rfl, (Option.some.inj hn).symm⟩
    · rw [withNode_kept contents hnew] at hn
      exact .inr hn
  refine ⟨fun a n hn => ?_, fun a n k hn hk => ?_, fun a n s hn hs => ?_⟩
  · rcases hold a n hn with ⟨-, rfl⟩ | hn
    · simp
    · rw [hl.key a n hn]
      refine exists_congr fun p => and_congr_right fun hp => ?_
      obtain ⟨pn, hpn⟩ := live_of_mem_kidsOf ((hr.hung a p).1 (by rw [parentOf_some hn, hp]))
      rw [tagAt, tagAt, withNode_kept contents (Nat.ne_of_lt (hr.fresh.lt hpn))]
  · rcases hold a n hn with ⟨-, rfl⟩ | hn
    · cases hk
    · exact hl.noNulKey a n k hn hk
  · rcases hold a n hn with ⟨-, rfl⟩ | hn
    · exact hnul s hs
    · exact hl.noNul a n s hn hs

theorem Labelled.deleted (hl : Labelled h) (hr : Represents m h) (hd : Deleted h h' c) : Labelled h' := by
  have hold (a : Ptr) (n : JsonNode) (hn : h'.nodes a = some n) :
      ∃ n₀, h.nodes a = some n₀ ∧ n = Without c n₀ ∧ ¬ Below h c a := by
    have hnot : ¬ Below h c a := fun hb => by
      rw [hd.gone a hb] at hn
      cases hn
    cases hn₀ : h.nodes a with
    | none =>
      rw [hd.free a hn₀] at hn
      cases hn
    | some n₀ =>
      rw [hd.kept a n₀ hn₀ hnot] at hn
      exact ⟨n₀, rfl, (Option.some.inj hn).symm, hnot⟩
  refine ⟨fun a n hn => ?_, fun a n k hn hk => ?_, fun a n s hn hs => ?_⟩
  · obtain ⟨n₀, hn₀, rfl, hnot⟩ := hold a n hn
    refine (hl.key a n₀ hn₀).trans (exists_congr fun p => and_congr_right fun hp => ?_)
    have hpa : parentOf h a = some p := by rw [parentOf_some hn₀, hp]
    obtain ⟨pn, hpn⟩ := live_of_mem_kidsOf ((hr.hung a p).1 hpa)
    have hkept := hd.kept p pn hpn fun hb => hnot (hb.of_parent hpa)
    rw [tagAt_some hpn, tagAt_some hkept, Without, tagOf_withChildren]
  · obtain ⟨n₀, hn₀, rfl, -⟩ := hold a n hn
    exact hl.noNulKey a n₀ k hn₀ hk
  · obtain ⟨n₀, hn₀, rfl, -⟩ := hold a n hn
    exact hl.noNul a n₀ s hn₀ (withChildren_eq_string hs)

/-! ## Calls on the lists -/

/-- A node is hung below another, or an `assert` fails, or one of them was freed. -/
def Hangs (tag : JsonTag) (key : Option Str) (p c : Ptr) (h : Heap) (r : EStateM.Result Fault Heap Unit) : Prop :=
  (∃ pn cn cs h', r = .ok () h' ∧ h.nodes p = some pn ∧ h.nodes c = some cn ∧ cn.parent = none ∧
    tagOf pn.contents = tag ∧ Rehung h h' p c { pn with contents := pn.contents.withChildren cs }
      { cn with parent := some p, key := key.or cn.key }) ∨
  r = .error .assertion h ∨ (r = .error .useAfterFree h ∧ (h.nodes p = none ∨ h.nodes c = none))

theorem checkLoose_cases (tag : JsonTag) (p c : Ptr) (g : HeapM Unit) (h : Heap) :
    (∃ pn cn, h.nodes p = some pn ∧ h.nodes c = some cn ∧ tagOf pn.contents = tag ∧ cn.parent = none ∧
      (OnLists.checkLoose tag p c >>= fun _ => g) h = g h) ∨
    (OnLists.checkLoose tag p c >>= fun _ => g) h = .error .assertion h ∨
    ((OnLists.checkLoose tag p c >>= fun _ => g) h = .error .useAfterFree h ∧ (h.nodes p = none ∨ h.nodes c = none)) := by
  rw [OnLists.checkLoose, bind_assoc]
  cases hp : h.nodes p with
  | none =>
    rw [bind_error (deref_freed hp)]
    exact .inr (.inr ⟨rfl, .inl rfl⟩)
  | some pn =>
    rw [bind_ok (deref_ok hp)]
    by_cases htag : tagOf pn.contents = tag
    · rw [if_pos htag, bind_assoc]
      cases hc : h.nodes c with
      | none =>
        rw [bind_error (deref_freed hc)]
        exact .inr (.inr ⟨rfl, .inr rfl⟩)
      | some cn =>
        rw [bind_ok (deref_ok hc)]
        by_cases hloose : cn.parent = none
        · rw [if_pos hloose]
          exact .inl ⟨pn, cn, rfl, rfl, htag, hloose, rfl⟩
        · rw [if_neg hloose]
          exact .inr (.inl rfl)
    · rw [if_neg htag]
      exact .inr (.inl rfl)

/-- What `g` does once the `assert`s hold. -/
def Attaches (g : HeapM Unit) (key : Option Str) (p c : Ptr) (h : Heap) : Prop :=
  ∀ pn cn, h.nodes p = some pn → h.nodes c = some cn → ∃ h' cs, g h = .ok () h' ∧
    Rehung h h' p c { pn with contents := pn.contents.withChildren cs } { cn with parent := some p, key := key.or cn.key }

theorem Attaches.hangs {g : HeapM Unit} {key : Option Str} (hg : Attaches g key p c h) (tag : JsonTag) :
    Hangs tag key p c h ((OnLists.checkLoose tag p c >>= fun _ => g) h) := by
  rcases checkLoose_cases tag p c g h with ⟨pn, cn, hp, hc, htag, hloose, hrun⟩ | hfail
  · obtain ⟨h', cs, hg, hre⟩ := hg pn cn hp hc
    exact .inl ⟨pn, cn, cs, h', hrun.trans hg, hp, hc, hloose, htag, hre⟩
  · exact .inr hfail

theorem attaches_appendNode (hpc : p ≠ c) (h : Heap) : Attaches (CodiusSandbox.appendNode p c) none p c h := by
  intro pn cn hp hc
  obtain ⟨h', hrun, hnext, hparent, hchild, hother⟩ := CodiusSandbox.appendNode_run hp hc hpc
  exact ⟨h', _, hrun, hnext, hparent, hchild, hother⟩

theorem attaches_prependNode (hpc : p ≠ c) (h : Heap) : Attaches (OnLists.prependNode p c) none p c h := by
  intro pn cn hp hc
  obtain ⟨h', hrun, hre⟩ := prependNode_run hp hc hpc
  exact ⟨h', _, hrun, hre⟩

/-- With its key set first. -/
theorem Attaches.setKey {g : HeapM Unit} (hpc : p ≠ c) (hg : ∀ h, Attaches g none p c h) (key : Str) (h : Heap) :
    Attaches (OnLists.setKey c key >>= fun _ => g) (some key) p c h := by
  intro pn cn hp hc
  have hset : OnLists.setKey c key h =
      .ok () { h with nodes := Function.update h.nodes c (some { cn with key := some key }) } := by
    rw [OnLists.setKey, bind_ok (deref_ok hc)]
    rfl
  rw [bind_ok hset]
  obtain ⟨h', cs, hrun, hre⟩ := hg { h with nodes := Function.update h.nodes c (some { cn with key := some key }) } pn
    { cn with key := some key } (by dsimp only; rw [Function.update_of_ne hpc, hp]) (Function.update_self _ _ _)
  refine ⟨h', cs, hrun, hre.next, hre.parent, hre.child, fun a hap hac => ?_⟩
  rw [hre.other a hap hac]
  exact Function.update_of_ne hac _ _

theorem hangs_appendElement (hpc : p ≠ c) (h : Heap) : Hangs .array none p c h (CodiusSandbox.jsonAppendElement p c h) := by
  rw [jsonAppendElement_eq]
  exact (attaches_appendNode hpc h).hangs .array

theorem hangs_prependElement (hpc : p ≠ c) (h : Heap) : Hangs .array none p c h (OnLists.jsonPrependElement p c h) :=
  (attaches_prependNode hpc h).hangs .array

theorem hangs_appendMember (hpc : p ≠ c) (key : Str) (h : Heap) :
    Hangs .object (some key) p c h (CodiusSandbox.jsonAppendMember p key c h) := by
  rw [jsonAppendMember_eq]
  exact (Attaches.setKey hpc (attaches_appendNode hpc) key h).hangs .object

theorem hangs_prependMember (hpc : p ≠ c) (key : Str) (h : Heap) :
    Hangs .object (some key) p c h (OnLists.jsonPrependMember p key c h) :=
  (Attaches.setKey hpc (attaches_prependNode hpc) key h).hangs .object

/-! ## Faults -/

/-- The call returns, or a failing `assert` or a node that was freed ends it. -/
def EndsWell {α : Type} (freed : Prop) (r : EStateM.Result Fault Heap α) : Prop :=
  (∃ a h', r = .ok a h' ∧ Labelled h') ∨ ∃ e h', r = .error e h' ∧ (e = .assertion ∨ freed)

theorem EndsWell.void {freed : Prop} {x : HeapM Unit} (hx : EndsWell freed (x h)) :
    EndsWell freed ((do x; return none : HeapM (Option Ptr)) h) := by
  rcases hx with ⟨u, h', hrun, hl⟩ | ⟨e, h', hrun, he⟩
  · rw [bind_ok hrun]
    exact .inl ⟨none, h', rfl, hl⟩
  · rw [bind_error hrun]
    exact .inr ⟨e, h', rfl, he⟩

theorem endsWell_mknode (hl : Labelled h) (hr : Represents m h) (freed : Prop) {contents : JsonContents}
    (hnul : ∀ s, contents = .string s → 0 ∉ s) : EndsWell freed ((some <$> CodiusSandbox.mknode contents) h) :=
  .inl ⟨some h.next, h.withNode contents, rfl, hl.withNode hr hnul⟩

theorem Hangs.endsWell {tag : JsonTag} {key : Option Str} {r : EStateM.Result Fault Heap Unit}
    (hh : Hangs tag key p c h r) (hl : Labelled h) (htag : key ≠ none ↔ tag = .object)
    (hnul : ∀ k, key = some k → 0 ∉ k) : EndsWell (∃ a ∈ [p, c], h.nodes a = none) r := by
  rcases hh with ⟨pn, cn, cs, h', hok, hp, hc, hloose, hpn, hre⟩ | hfail | ⟨hfail, hfreed⟩
  · rw [hl.loose hc hloose, Option.or_none] at hre
    refine .inl ⟨(), h', hok, hl.rehung hre hp hc ?_ hnul⟩
    rw [htag]
    constructor
    · intro hobject
      exact ⟨p, rfl, by rw [tagAt_some hp, hpn, hobject]⟩
    · rintro ⟨q, hq, hobject⟩
      obtain rfl := Option.some.inj hq
      rw [tagAt_some hp, hpn] at hobject
      exact Option.some.inj hobject
  · exact .inr ⟨_, h, hfail, .inl rfl⟩
  · refine .inr ⟨_, h, hfail, .inr ?_⟩
    simpa using hfreed

theorem endsWell_removeFromParent (hr : Represents m h) (hl : Labelled h) (c : Ptr) :
    EndsWell (∃ a ∈ [c], h.nodes a = none) (CodiusSandbox.jsonRemoveFromParent c h) := by
  cases hc : h.nodes c with
  | none =>
    rw [CodiusSandbox.jsonRemoveFromParent, bind_error (deref_freed hc)]
    exact .inr ⟨_, h, rfl, .inr ⟨c, by simp, hc⟩⟩
  | some cn =>
    cases hparent : cn.parent with
    | none => exact .inl ⟨(), h, (removeFromParent_loose hr hc hparent).2, hl⟩
    | some p =>
      obtain ⟨pn, hp⟩ := live_of_mem_kidsOf ((hr.hung c p).1 (by rw [parentOf_some hc, hparent]))
      obtain ⟨m', h', -, hlists, -, hre⟩ := removeFromParent_child hr hp hc hparent
      exact .inl ⟨(), h', hlists, hl.rehung hre hp hc (by simp) (by simp)⟩

theorem endsWell_delete (hr : Represents m h) (hl : Labelled h) (node : Option Ptr) :
    EndsWell (∃ a ∈ node.toList, h.nodes a = none) (CodiusSandbox.jsonDelete node h) := by
  cases node with
  | none => exact .inl ⟨(), h, rfl, hl⟩
  | some c =>
    cases hc : h.nodes c with
    | none =>
      have hfreed : ∃ a ∈ (some c).toList, h.nodes a = none := ⟨c, by simp, hc⟩
      rw [CodiusSandbox.jsonDelete, bind_get]
      cases h.next with
      | zero => exact .inr ⟨_, h, rfl, .inr hfreed⟩
      | succ fuel =>
        rw [CodiusSandbox.deleteNode, CodiusSandbox.jsonRemoveFromParent, bind_error (bind_error (deref_freed hc))]
        exact .inr ⟨_, h, rfl, .inr hfreed⟩
    | some cn =>
      obtain ⟨m', h', -, hlists, -, hd⟩ := jsonDelete_run hr hc
      exact .inl ⟨(), h', hlists, hl.deleted hr hd⟩

/-- A lookup looks at nothing else when its operand was freed. -/
theorem endsWell_lookup {a : Ptr} (hl : Labelled h) {f : JsonNode → HeapM (Option Ptr)}
    (hf : ∀ n, h.nodes a = some n → ∃ ret, f n h = .ok ret h) :
    EndsWell (∃ b ∈ (some a).toList, h.nodes b = none) ((deref a >>= f) h) := by
  cases ha : h.nodes a with
  | none =>
    rw [bind_error (deref_freed ha)]
    exact .inr ⟨_, h, rfl, .inr ⟨a, by simp, ha⟩⟩
  | some n =>
    obtain ⟨ret, hrun⟩ := hf n ha
    rw [bind_ok (deref_ok ha)]
    exact .inl ⟨ret, h, hrun, hl⟩

/-- The members of an object have the keys that are compared. -/
theorem findMember_run (name : Str) (cs : List Ptr)
    (hcs : ∀ c ∈ cs, ∃ n, h.nodes c = some n ∧ n.key ≠ none) : ∃ ret, CodiusSandbox.findMember name cs h = .ok ret h := by
  induction cs with
  | nil => exact ⟨none, rfl⟩
  | cons c cs ih =>
    obtain ⟨n, hn, hkey⟩ := hcs c (by simp)
    obtain ⟨key, hkey⟩ := Option.ne_none_iff_exists'.1 hkey
    rw [CodiusSandbox.findMember, bind_ok (deref_ok hn), hkey]
    by_cases hsame : key = name
    · simp only [if_pos hsame]
      exact ⟨some c, rfl⟩
    · simp only [if_neg hsame]
      exact ih fun b hb => hcs b (by simp [hb])

/-- The pointers a call is given. -/
def Op.operands : Op → List Ptr
  | .appendElement array element | .prependElement array element => [array, element]
  | .appendMember object _ value | .prependMember object _ value => [object, value]
  | .removeFromParent node => [node]
  | .delete node | .firstChild node | .findElement node _ | .findMember node _ => node.toList
  | _ => []

theorem exec_endsWell (hr : Represents m h) (hl : Labelled h) (hop : op.Proper) :
    EndsWell (∃ a ∈ op.operands, h.nodes a = none) (OnLists.exec op h) := by
  cases op with
  | mknull => exact endsWell_mknode hl hr _ (by simp)
  | mkbool b => exact endsWell_mknode hl hr _ (by simp)
  | mkstring s =>
    apply endsWell_mknode hl hr
    intro s' hs
    obtain rfl := JsonContents.string.inj hs
    exact hop
  | mknumber num => exact endsWell_mknode hl hr _ (by simp)
  | mkarray => exact endsWell_mknode hl hr _ (by simp)
  | mkobject => exact endsWell_mknode hl hr _ (by simp)
  | appendElement array element =>
    exact ((hangs_appendElement hop h).endsWell hl (by simp) (by simp)).void
  | prependElement array element =>
    exact ((hangs_prependElement hop h).endsWell hl (by simp) (by simp)).void
  | appendMember object key value =>
    exact ((hangs_appendMember hop.1 key h).endsWell hl (by simp) (by simpa using hop.2)).void
  | prependMember object key value =>
    exact ((hangs_prependMember hop.1 key h).endsWell hl (by simp) (by simpa using hop.2)).void
  | removeFromParent node => exact (endsWell_removeFromParent hr hl node).void
  | delete node => exact (endsWell_delete hr hl node).void
  | firstChild node =>
    cases node with
    | none => exact .inl ⟨none, h, rfl, hl⟩
    | some a => exact endsWell_lookup hl fun n _ => ⟨_, rfl⟩
  | findElement array index =>
    cases array with
    | none => exact .inl ⟨none, h, rfl, hl⟩
    | some a =>
      apply endsWell_lookup hl
      intro n _
      cases n.contents <;> exact ⟨_, rfl⟩
  | findMember object name =>
    cases object with
    | none => exact .inl ⟨none, h, rfl, hl⟩
    | some a =>
      apply endsWell_lookup hl
      intro n hn
      cases hcontents : n.contents with
      | object cs =>
        apply findMember_run
        intro c hc
        have hparent := (hr.kid hn (by rw [hcontents]; exact hc)).1
        obtain ⟨cn, hcn⟩ := live_of_parentOf hparent
        rw [parentOf_some hcn] at hparent
        refine ⟨cn, hcn, (hl.key c cn hcn).2 ⟨a, hparent, ?_⟩⟩
        rw [tagAt_some hn, hcontents]
        rfl
      | _ => exact ⟨none, rfl⟩

/-! ## Runs -/

theorem exec_step {ret : Option Ptr} (hr : Represents m h) (hl : Labelled h) (hop : op.Proper)
    (hrun : exec op m = .ok ret m') : ∃ h', OnLists.exec op h = .ok ret h' ∧ Represents m' h' ∧ Labelled h' := by
  have hout := exec_outcome hr hop
  rcases exec_endsWell hr hl hop with ⟨ret', h', hlists, hl'⟩ | ⟨e, h', hlists, -⟩
  · rw [hrun, hlists] at hout
    rw [hlists]
    cases hout with
    | ok hr' => exact ⟨h', rfl, hr', hl'⟩
  · rw [hrun, hlists] at hout
    cases hout

theorem execs_step {rets : List (Option Ptr)} (hr : Represents m h) (hl : Labelled h) (hops : ∀ op ∈ ops, op.Proper)
    (hrun : ops.mapM exec m = .ok rets m') :
    ∃ h', ops.mapM OnLists.exec h = .ok rets h' ∧ Represents m' h' ∧ Labelled h' := by
  induction ops generalizing m h rets with
  | nil =>
    obtain ⟨rfl, rfl⟩ := EStateM.Result.ok.inj hrun
    exact ⟨h, rfl, hr, hl⟩
  | cons op ops ih =>
    rw [List.mapM_cons] at hrun
    obtain ⟨ret, m₁, hop, hrun⟩ := of_bind_ok hrun
    obtain ⟨rets', m₂, hops', hrun⟩ := of_bind_ok hrun
    obtain ⟨rfl, rfl⟩ := EStateM.Result.ok.inj hrun
    obtain ⟨h₁, hlists, hr₁, hl₁⟩ := exec_step hr hl (hops op (by simp)) hop
    obtain ⟨h₂, hlists', hr₂, hl₂⟩ := ih hr₁ hl₁ (fun op hop => hops op (by simp [hop])) hops'
    refine ⟨h₂, ?_, hr₂, hl₂⟩
    rw [List.mapM_cons, bind_ok hlists, bind_ok hlists']
    rfl

/-- The memory after calls that all returned. -/
def Memory.Reached (m : Memory) : Prop :=
  ∃ (ops : List Op) (rets : List (Option Ptr)), (∀ op ∈ ops, op.Proper) ∧ ops.mapM exec .empty = .ok rets m

/-- After the same calls on both. -/
def SameRun (m : Memory) (h : Heap) : Prop :=
  ∃ (ops : List Op) (rets : List (Option Ptr)), (∀ op ∈ ops, op.Proper) ∧ ops.mapM exec .empty = .ok rets m ∧
    ops.mapM OnLists.exec .empty = .ok rets h

theorem SameRun.represents (hs : SameRun m h) : Represents m h ∧ Labelled h := by
  obtain ⟨ops, rets, hops, hlinks, hlists⟩ := hs
  obtain ⟨h', hlists', hr, hl⟩ := execs_step represents_empty labelled_empty hops hlinks
  rw [hlists] at hlists'
  obtain ⟨-, rfl⟩ := EStateM.Result.ok.inj hlists'
  exact ⟨hr, hl⟩

theorem Memory.Reached.represents (hm : m.Reached) : ∃ h, Represents m h ∧ Labelled h := by
  obtain ⟨ops, rets, hops, hrun⟩ := hm
  obtain ⟨h, -, hr, hl⟩ := execs_step represents_empty labelled_empty hops hrun
  exact ⟨h, hr, hl⟩

/-- Calls on linked nodes answer, and end, as those on lists of children do. -/
theorem calls_agree (ops : List Op) (hops : ∀ op ∈ ops, op.Proper) :
    Outcome (ops.mapM exec .empty) (ops.mapM OnLists.exec .empty) := execs_outcome represents_empty hops

/-- An array with two elements, of which the first is taken out again. -/
theorem calls_agree_removed :
    Outcome ([Op.mkarray, .mknull, .mkbool true, .appendElement 1 2, .appendElement 1 3, .removeFromParent 2].mapM exec .empty)
      ([Op.mkarray, .mknull, .mkbool true, .appendElement 1 2, .appendElement 1 3, .removeFromParent 2].mapM OnLists.exec
        .empty) :=
  calls_agree _ (by simp [Op.Proper])

/-- `Below`, on the links. -/
def Memory.Below (m : Memory) (c a : Ptr) : Prop :=
  Relation.ReflTransGen (fun p q => m.live q = true ∧ m.parent q = some p) c a

theorem Represents.parent_iff (hr : Represents m h) (a : Ptr) : parentOf h a = some p ↔ m.live a = true ∧ m.parent a = some p := by
  cases hn : h.nodes a with
  | none => simp [parentOf, hn, hr.live]
  | some n => simp [parentOf_some hn, hr.live, hn, (hr.node a n hn).parent]

theorem Represents.below_iff (hr : Represents m h) (c a : Ptr) : m.Below c a ↔ Below h c a := by
  rw [Memory.Below, Below]
  simp only [hr.parent_iff]

theorem Represents.live_iff (hr : Represents m h) (a : Ptr) : m.live a = true ↔ ∃ n, h.nodes a = some n := by
  rw [hr.live, Option.isSome_iff_exists]

/-- No call gets to a freed node or to null by itself, and every call ends. -/
theorem call_faults {e : Fault} (hm : m.Reached) (hop : op.Proper) (hrun : exec op m = .error e m') :
    e = .assertion ∨ ∃ a ∈ op.operands, m.live a = false := by
  obtain ⟨h, hr, hl⟩ := hm.represents
  have hout := exec_outcome hr hop
  rcases exec_endsWell hr hl hop with ⟨ret, h', hlists, -⟩ | ⟨e', h', hlists, he⟩
  · rw [hrun, hlists] at hout
    cases hout
  · rw [hrun, hlists] at hout
    cases hout
    refine he.imp id ?_
    rintro ⟨a, ha, hnone⟩
    exact ⟨a, ha, by rw [hr.live, hnone]; rfl⟩

/-- An array at 1 with one element at 2. -/
def oneElement : Memory :=
  ((Memory.empty.created .array false none 0).created .null false none 0).appended 1 2

theorem oneElement_reached : oneElement.Reached :=
  ⟨[.mkarray, .mknull, .appendElement 1 2], [some 1, some 2, none], by simp [Op.Proper], rfl⟩

/-- The element is not taken a second time. -/
theorem call_faults_again : Fault.assertion = .assertion ∨
    ∃ a ∈ (Op.prependElement 1 2).operands, oneElement.live a = false :=
  call_faults oneElement_reached (show (1 : Ptr) ≠ 2 by decide) (rfl : exec (.prependElement 1 2) oneElement = .error .assertion _)

/-- `json_delete` frees a node and what hangs below it, and all others stay where they are. -/
theorem jsonDelete_frees (hm : m.Reached) (hc : m.live c = true) : ∃ m', jsonDelete (some c) m = .ok () m' ∧
    ∀ a, (m'.live a = true ↔ m.live a = true ∧ ¬ m.Below c a) ∧
      (m'.live a = true → m'.parent a = m.parent a ∧ m'.key a = m.key a ∧ m'.tag a = m.tag a) := by
  obtain ⟨h, hr, -⟩ := hm.represents
  obtain ⟨cn, hcn⟩ := (hr.live_iff c).1 hc
  obtain ⟨m', h', hrun, -, hr', hd⟩ := jsonDelete_run hr hcn
  have hlive (a : Ptr) : m'.live a = true ↔ m.live a = true ∧ ¬ m.Below c a := by
    rw [hr'.live_iff, hr.live_iff, hr.below_iff]
    constructor
    · rintro ⟨n', hn'⟩
      constructor
      · by_contra hnone
        have hfree := hd.free a (Option.eq_none_iff_forall_ne_some.2 fun n hn => hnone ⟨n, hn⟩)
        rw [hfree] at hn'
        cases hn'
      · intro hb
        rw [hd.gone a hb] at hn'
        cases hn'
    · rintro ⟨⟨n, hn⟩, hb⟩
      exact ⟨_, hd.kept a n hn hb⟩
  refine ⟨m', hrun, fun a => ⟨hlive a, fun ha => ?_⟩⟩
  obtain ⟨hold, hb⟩ := (hlive a).1 ha
  obtain ⟨n, hn⟩ := (hr.live_iff a).1 hold
  have his := hr.node a n hn
  have his' := hr'.node a _ (hd.kept a n hn (by rwa [← hr.below_iff]))
  refine ⟨?_, ?_, ?_⟩
  · rw [his'.parent, his.parent]
    rfl
  · rw [his'.key, his.key]
    rfl
  · rw [his'.tag_eq, his.tag_eq, Without, tagOf_withChildren]

theorem jsonDelete_frees_array : ∃ m', jsonDelete (some 1) oneElement = .ok () m' ∧
    ∀ a, (m'.live a = true ↔ oneElement.live a = true ∧ ¬ oneElement.Below 1 a) ∧
      (m'.live a = true → m'.parent a = oneElement.parent a ∧ m'.key a = oneElement.key a ∧ m'.tag a = oneElement.tag a) :=
  jsonDelete_frees oneElement_reached rfl

end

end CodiusSandbox.JsonLinks
