import CodiusSandbox.JsonRuns
import CodiusSandbox.JsonUnicode
/-!
# The checker of linked nodes (`json_check`)

`json_check` looks for links that do not fit together. No run leads to such links (`check_run`): what it can
find wrong is a key or a string that is not UTF-8.

| here                | there                                                                                 |
|---------------------|---------------------------------------------------------------------------------------|
| `jsonCheck`         | `json_check` (`json.c:1315`): a message, or `none` for `true`                          |
| `problemUnless`     | the macro `problem`                                                                    |
| `valid`             | `utf8_validate`, on a string that ends at its NUL                                      |

The tags and the truth values that it looks for do not exist here.
-/
namespace CodiusSandbox.JsonLinks

open LinkedList TreeHeap Utf8 Wp
open JsonText (ScanFault utf8Validate utf8Validate_run)

/-! ## The checker -/

abbrev CheckM := EStateM ScanFault Memory

def look {α : Type} (field : Memory → Ptr → α) (p : Ptr) : CheckM α := fun m =>
  match load field p m with
  | .ok a m => .ok a m
  | .error e m => .error (.node e) m

def valid (s : Str) : CheckM Bool := fun m =>
  match utf8Validate (s ++ [0]) with
  | .ok b => .ok b m
  | .error e => .error e m

def problemUnless (holds : Bool) (problem : String) (rest : CheckM (Option String)) : CheckM (Option String) :=
  if holds then rest else return some problem

def checkKey (node : Ptr) (rest : CheckM (Option String)) : CheckM (Option String) := do
  match ← look Memory.key node with
  | some key => problemUnless (← valid key) "key contains invalid UTF-8" rest
  | none => rest

def checkString (node : Ptr) : CheckM (Option String) := do
  match ← look Memory.string_ node with
  | some s => problemUnless (← valid s) "string_ contains invalid UTF-8" (return none)
  | none => return some "string_ is NULL"

/-- `child->next->prev == child`, if there is a `child->next`. -/
def pointsBack (child : Ptr) : Option Ptr → CheckM Bool
  | some next => do return (← look Memory.prev next) = some child
  | none => return true

/-- The loop over the children. -/
def checkLoop (check : Ptr → CheckM (Option String)) (node head : Ptr) (tail : Option Ptr) :
    Nat → Option Ptr → Option Ptr → CheckM (Option String)
  | _, last, none =>
    problemUnless (last = tail) "tail does not match pointer found by starting at head and following next links"
      (return none)
  | 0, _, some _ => throw .fuel
  | turns + 1, _, some child =>
    problemUnless (child ≠ node) "node is its own child" do
    let next ← look Memory.next child
    problemUnless (next ≠ some child) "child->next == child (cycle)" do
    problemUnless (next ≠ some head) "child->next == head (cycle)" do
    problemUnless ((← look Memory.parent child) = some node) "child does not point back to parent" do
    problemUnless (← pointsBack child next) "child->next does not point back to child" do
    let tag ← look Memory.tag node
    let key ← look Memory.key child
    problemUnless (¬ (tag = .array ∧ key ≠ none)) "Array element's key is not NULL" do
    problemUnless (¬ (tag = .object ∧ key = none)) "Object member's key is NULL" do
    match ← check child with
    | some problem => return some problem
    | none => checkLoop check node head tail turns (some child) next

/-- What follows the check of the key. -/
def checkContents (check : Ptr → CheckM (Option String)) (node : Ptr) : CheckM (Option String) := do
  let tag ← look Memory.tag node
  if tag = .string then checkString node
  else if tag = .array ∨ tag = .object then
    let head ← look Memory.head node
    let tail ← look Memory.tail node
    match head, tail with
    | none, none => return none
    | some _, none => return some "tail is NULL, but head is not"
    | none, some _ => return some "head is NULL, but tail is not"
    | some head, some tail =>
      problemUnless ((← look Memory.prev head) = none) "First child's prev pointer is not NULL" do
      checkLoop check node head (some tail) (← get).fresh none (some head)
  else return none

def jsonCheck : Nat → Ptr → CheckM (Option String)
  | 0, _ => throw .fuel
  | fuel + 1, node => checkKey node (checkContents (jsonCheck fuel) node)

section
variable {m m' : Memory} {h h' : Heap} {a b c p q : Ptr} {n cn pn cn' pn' : JsonNode} {cs : List Ptr}

/-! ## What it finds -/

/-- The key and the string of a node are UTF-8. -/
def TextOk (n : JsonNode) : Prop := (∀ k, n.key = some k → IsUtf8 k) ∧ ∀ s, n.contents = .string s → IsUtf8 s

def TextBelow (h : Heap) (c : Ptr) : Prop := ∀ a n, Below h c a → h.nodes a = some n → TextOk n

def textProblems : List String := ["key contains invalid UTF-8", "string_ contains invalid UTF-8"]

/-- `holds`, or one of the two problems with text. -/
def Verdict (holds : Prop) (r : Option String) : Prop := (r = none ↔ holds) ∧ ∀ problem, r = some problem → problem ∈ textProblems

theorem look_ok (hr : Represents m h) (hn : h.nodes a = some n) {α : Type} (field : Memory → Ptr → α) :
    look field a m = .ok (field m a) m := by
  rw [look, hr.load_ok hn field]

theorem valid_run {s : Str} (h0 : 0 ∉ s) : ∃ b, valid s m = .ok b m ∧ (b = true ↔ IsUtf8 s) := by
  obtain ⟨b, hrun, hb⟩ := utf8Validate_run h0 []
  refine ⟨b, ?_, hb⟩
  rw [valid, hrun]

theorem problemUnless_true {holds : Bool} (hholds : holds = true) (problem : String) (rest : CheckM (Option String)) :
    problemUnless holds problem rest = rest := by
  rw [problemUnless, if_pos hholds]

/-- What is found in a text and after it. -/
theorem checkText_run (problem : String) {s : Str} {holds : Prop} {rest : CheckM (Option String)} (h0 : 0 ∉ s)
    (hproblem : problem ∈ textProblems) (hrest : ∃ r, rest m = .ok r m ∧ Verdict holds r) :
    ∃ r, (valid s >>= fun b => problemUnless b problem rest) m = .ok r m ∧ Verdict (IsUtf8 s ∧ holds) r := by
  obtain ⟨b, hrun, hb⟩ := valid_run (m := m) h0
  rw [bind_ok hrun]
  cases b with
  | true =>
    obtain ⟨r, hrun', hr, hproblems⟩ := hrest
    refine ⟨r, hrun', ?_, hproblems⟩
    rw [hr]
    exact ⟨fun hholds => ⟨hb.1 rfl, hholds⟩, fun hboth => hboth.2⟩
  | false =>
    refine ⟨some problem, rfl, ?_, fun p hp => ?_⟩
    · simpa using fun hutf8 => absurd (hb.2 hutf8) (by simp)
    · obtain rfl := Option.some.inj hp
      exact hproblem

theorem checkKey_run {holds : Prop} {rest : CheckM (Option String)} (hr : Represents m h) (hl : Labelled h)
    (hn : h.nodes a = some n) (hrest : ∃ r, rest m = .ok r m ∧ Verdict holds r) :
    ∃ r, checkKey a rest m = .ok r m ∧ Verdict ((∀ k, n.key = some k → IsUtf8 k) ∧ holds) r := by
  rw [checkKey, bind_ok (look_ok hr hn Memory.key), (hr.node a n hn).key]
  cases hkey : n.key with
  | none =>
    obtain ⟨r, hrun, hverdict⟩ := hrest
    exact ⟨r, hrun, by simpa using hverdict⟩
  | some key =>
    obtain ⟨r, hrun, hverdict⟩ := checkText_run "key contains invalid UTF-8" (hl.noNulKey a n key hn hkey)
      (by simp [textProblems]) hrest
    exact ⟨r, hrun, by simpa using hverdict⟩

theorem checkString_run (hr : Represents m h) (hl : Labelled h) (hn : h.nodes a = some n) {s : Str}
    (hs : n.contents = .string s) : ∃ r, checkString a m = .ok r m ∧ Verdict (IsUtf8 s) r := by
  have hshape := (hr.node a n hn).shape
  rw [hs] at hshape
  rw [checkString, bind_ok (look_ok hr hn Memory.string_), hshape.2]
  obtain ⟨r, hrun, hverdict⟩ := checkText_run "string_ contains invalid UTF-8" (hl.noNul a n s hn hs)
    (by simp [textProblems]) ⟨none, rfl, (by simp [Verdict] : Verdict True none)⟩
  exact ⟨r, hrun, by simpa using hverdict⟩

/-- The keys of children are as `json_check` wants them. -/
theorem Labelled.child_key (hl : Labelled h) (hn : h.nodes p = some pn) (hc : h.nodes c = some cn)
    (hparent : cn.parent = some p) : ¬ (tagOf pn.contents = .array ∧ cn.key ≠ none) ∧
      ¬ (tagOf pn.contents = .object ∧ cn.key = none) := by
  have hkey := hl.key c cn hc
  constructor
  · rintro ⟨harray, hsome⟩
    obtain ⟨q, hq, hobject⟩ := hkey.1 hsome
    rw [hparent] at hq
    obtain rfl := Option.some.inj hq
    rw [tagAt_some hn, harray] at hobject
    cases hobject
  · rintro ⟨hobject, hnone⟩
    exact hkey.2 ⟨p, hparent, by rw [tagAt_some hn, hobject]⟩ hnone

/-- What the checks along a list ask of a child that has `as` in front and `cs` behind. -/
theorem links_fit {as : List Ptr} {head : Ptr} (hd : DList m.prev m.next (m.head p) (m.tail p) (as ++ c :: cs))
    (hhead : (as ++ c :: cs).head? = some head) : m.next c = cs.head? ∧ cs.head? ≠ some c ∧ cs.head? ≠ some head ∧
      ∀ d, cs.head? = some d → m.prev d = some c := by
  have hnodup := List.nodup_append.1 hd.nodup
  have hc : c ∉ cs := (List.nodup_cons.1 hnodup.2.1).1
  refine ⟨hd.neighbours.2, fun hne => hc (List.mem_of_head? hne), fun hne => ?_, fun d hdc => ?_⟩
  · have hmem := List.mem_of_head? hne
    cases as with
    | nil =>
      obtain rfl := Option.some.inj hhead
      exact hc hmem
    | cons a as =>
      obtain rfl := Option.some.inj hhead
      exact hnodup.2.2 a (by simp) a (by simp [hmem]) rfl
  · obtain ⟨cs, rfl⟩ : ∃ ds, cs = d :: ds := by
      cases cs with
      | nil => cases hdc
      | cons b ds =>
        obtain rfl := Option.some.inj hdc
        exact ⟨ds, rfl⟩
    have hd' : DList m.prev m.next (m.head p) (m.tail p) ((as ++ [c]) ++ d :: cs) := by simpa using hd
    rw [hd'.neighbours.1]
    simp

/-- The loop along the children that are left, `as` being those that were passed. -/
theorem checkLoop_run {check : Ptr → CheckM (Option String)} {head : Ptr} (hr : Represents m h) (hl : Labelled h)
    (hn : h.nodes p = some pn) (hhead : pn.contents.children.head? = some head)
    (hcheck : ∀ d ∈ pn.contents.children, ∃ r, check d m = .ok r m ∧ Verdict (TextBelow h d) r) (cs : List Ptr) :
    ∀ (as : List Ptr) (turns : Nat), pn.contents.children = as ++ cs → cs.length ≤ turns →
      ∃ r, checkLoop check p head (m.tail p) turns as.getLast? cs.head? m = .ok r m ∧
        Verdict (∀ d ∈ cs, TextBelow h d) r := by
  have his := hr.node p pn hn
  induction cs with
  | nil =>
    intro as turns has _
    have hrun : checkLoop check p head (m.tail p) turns as.getLast? none m = .ok none m := by
      have hlast : as.getLast? = m.tail p := by rw [his.kids.tail_eq, has, List.append_nil]
      cases turns <;> rw [checkLoop, hlast, problemUnless_true (by simp)] <;> rfl
    exact ⟨none, hrun, by simp [Verdict]⟩
  | cons c cs ih =>
    intro as turns has hturns
    obtain ⟨turns, rfl⟩ : ∃ n, turns = n + 1 := ⟨turns - 1, by simp only [List.length_cons] at hturns; omega⟩
    have hmem : c ∈ pn.contents.children := by simp [has]
    have hparent := (hr.kid hn hmem).1
    obtain ⟨cn, hcn⟩ := live_of_parentOf hparent
    have hcp : c ≠ p := by
      rintro rfl
      exact hr.loopless c hparent
    rw [parentOf_some hcn] at hparent
    obtain ⟨harray, hobject⟩ := hl.child_key hn hcn hparent
    have hkids := his.kids
    rw [has] at hkids hhead
    obtain ⟨hnext, hself, hfirst, hback⟩ := links_fit hkids hhead
    have hpoints : pointsBack c cs.head? m = .ok true m := by
      cases hcs : cs.head? with
      | none => rfl
      | some d =>
        have hdmem : d ∈ pn.contents.children := by
          rw [has]
          exact List.mem_append_right _ (List.mem_cons_of_mem _ (List.mem_of_head? hcs))
        obtain ⟨dn, hdn⟩ := live_of_parentOf (hr.kid hn hdmem).1
        rw [pointsBack, bind_ok (look_ok hr hdn Memory.prev), hback d hcs]
        simp
        rfl
    obtain ⟨r, hrun, hverdict⟩ := hcheck c hmem
    rw [List.head?_cons, checkLoop, problemUnless_true (by simpa using hcp), bind_ok (look_ok hr hcn Memory.next), hnext,
      problemUnless_true (by simpa using hself), problemUnless_true (by simpa using hfirst),
      bind_ok (look_ok hr hcn Memory.parent), (hr.node c cn hcn).parent, hparent, problemUnless_true (by simp),
      bind_ok hpoints, problemUnless_true rfl, bind_ok (look_ok hr hn Memory.tag), bind_ok (look_ok hr hcn Memory.key),
      his.tag_eq, (hr.node c cn hcn).key, problemUnless_true (decide_eq_true harray),
      problemUnless_true (decide_eq_true hobject), bind_ok hrun]
    cases r with
    | some problem =>
      refine ⟨some problem, rfl, ?_, hverdict.2⟩
      simpa using fun htext => absurd (hverdict.1.2 htext) (by simp)
    | none =>
      obtain ⟨r', hrun', hverdict'⟩ := ih (as ++ [c]) turns (by simp [has])
        (by simp only [List.length_cons] at hturns; omega)
      rw [List.getLast?_concat] at hrun'
      refine ⟨r', hrun', ?_, hverdict'.2⟩
      rw [hverdict'.1, List.forall_mem_cons]
      exact ⟨fun hrest => ⟨hverdict.1.1 rfl, hrest⟩, fun hall => hall.2⟩

theorem Verdict.congr {holds more : Prop} {r : Option String} (hr : Verdict holds r) (h : more ↔ holds) : Verdict more r :=
  ⟨hr.1.trans h.symm, hr.2⟩

theorem checkContents_run {check : Ptr → CheckM (Option String)} (hr : Represents m h) (hl : Labelled h)
    (hn : h.nodes p = some pn)
    (hcheck : ∀ d ∈ pn.contents.children, ∃ r, check d m = .ok r m ∧ Verdict (TextBelow h d) r) :
    ∃ r, checkContents check p m = .ok r m ∧
      Verdict ((∀ s, pn.contents = .string s → IsUtf8 s) ∧ ∀ d ∈ pn.contents.children, TextBelow h d) r := by
  have his := hr.node p pn hn
  rw [checkContents, bind_ok (look_ok hr hn Memory.tag), his.tag_eq]
  by_cases hstring : tagOf pn.contents = .string
  · obtain ⟨s, hs⟩ : ∃ s, pn.contents = .string s := by
      cases hcontents : pn.contents <;> simp_all [tagOf]
    obtain ⟨r, hrun, hverdict⟩ := checkString_run hr hl hn hs
    rw [if_pos hstring]
    refine ⟨r, hrun, hverdict.congr ?_⟩
    simp [hs, JsonContents.children]
  have hno (s : Str) : pn.contents ≠ .string s := by
    intro hs
    rw [hs] at hstring
    exact hstring rfl
  rw [if_neg hstring]
  by_cases hinner : tagOf pn.contents = .array ∨ tagOf pn.contents = .object
  · rw [if_pos hinner, bind_ok (look_ok hr hn Memory.head), bind_ok (look_ok hr hn Memory.tail)]
    have hkids := his.kids
    cases hcs : pn.contents.children with
    | nil =>
      rw [hcs] at hkids
      rw [hkids.head_eq, hkids.tail_eq]
      exact ⟨none, rfl, by simp [Verdict, hno]⟩
    | cons c cs =>
      have hcmem : c ∈ pn.contents.children := by simp [hcs]
      obtain ⟨cn, hcn⟩ := live_of_parentOf (hr.kid hn hcmem).1
      have hlen := hr.length_children hn
      obtain ⟨r, hrun, hverdict⟩ := checkLoop_run hr hl hn (by rw [hcs]; rfl) hcheck (c :: cs) [] m.fresh hcs
        (by rw [← hcs]; exact hlen)
      rw [hcs] at hkids
      have hprev : m.prev c = none := hkids.seg.1
      obtain ⟨last, hlast⟩ : ∃ last, m.tail p = some last := by
        rw [hkids.tail_eq, List.getLast?_cons]
        exact ⟨_, rfl⟩
      rw [hlast] at hrun
      rw [hkids.head_eq, hlast, List.head?_cons]
      dsimp only
      rw [bind_ok (look_ok hr hcn Memory.prev), hprev, problemUnless_true (decide_eq_true rfl), bind_get]
      exact ⟨r, hrun, hverdict.congr (by simp [hno])⟩
  · rw [if_neg hinner, children_eq_nil hinner]
    exact ⟨none, rfl, by simp [Verdict, hno]⟩

/-! ## Every run -/

/-- The text below a node is its own and that below its children. -/
theorem textBelow_iff (hr : Represents m h) (hn : h.nodes p = some pn) :
    TextBelow h p ↔ TextOk pn ∧ ∀ d ∈ pn.contents.children, TextBelow h d := by
  constructor
  · intro htext
    refine ⟨htext p pn .refl hn, fun d hd a n hb ha => htext a n ?_ ha⟩
    exact Relation.ReflTransGen.head (hr.kid hn hd).1 hb
  · rintro ⟨hpn, hkids⟩ a n hb ha
    by_cases hap : a = p
    · subst hap
      obtain rfl := Option.some.inj (hn.symm.trans ha)
      exact hpn
    · obtain ⟨d, hd, hda⟩ := hb.child hap
      have hmem := (hr.hung d p).1 hd
      rw [kidsOf_some hn] at hmem
      exact hkids d hmem a n hda ha

/-- `json_check` of a node that does not hang below itself ends, with a verdict on the text below it. -/
theorem jsonCheck_run (hr : Represents m h) (hl : Labelled h) (fuel : Nat) :
    ∀ {p : Ptr} {pn : JsonNode} (hanging : List Ptr), h.nodes p = some pn →
      (∀ q, parentOf h p = some q → ¬ Below h p q) → (∀ a, a ≠ p → Below h p a → a ∈ hanging) → hanging.length < fuel →
      ∃ r, jsonCheck fuel p m = .ok r m ∧ Verdict (TextBelow h p) r := by
  induction fuel with
  | zero =>
    intro p pn hanging _ _ _ hfuel
    cases hfuel
  | succ fuel ih =>
    intro p pn hanging hn hcycle hhang hfuel
    have his := hr.node p pn hn
    have hcheck (d : Ptr) (hd : d ∈ pn.contents.children) : ∃ r, jsonCheck fuel d m = .ok r m ∧ Verdict (TextBelow h d) r := by
      have hparent := (hr.kid hn hd).1
      obtain ⟨dn, hdn⟩ := live_of_parentOf hparent
      have hdp : d ≠ p := by
        rintro rfl
        exact hr.loopless d hparent
      have hpd : Below h p d := Below.of_parent .refl hparent
      have hnot : ¬ Below h d p := fun hb => by
        obtain ⟨q, hq, hdq⟩ := hb.parent (Ne.symm hdp)
        exact hcycle q hq (hpd.trans hdq)
      have hmem : d ∈ hanging := hhang d hdp hpd
      refine ih (hanging.erase d) hdn (fun q hq hdq => ?_) (fun a had hda => ?_) ?_
      · rw [hparent] at hq
        obtain rfl := Option.some.inj hq
        exact hnot hdq
      · refine (List.mem_erase_of_ne had).2 (hhang a ?_ (hpd.trans hda))
        rintro rfl
        exact hnot hda
      · have hpos := List.length_pos_of_mem hmem
        rw [List.length_erase_of_mem hmem]
        omega
    obtain ⟨r, hrun, hverdict⟩ := checkKey_run hr hl hn (checkContents_run hr hl hn hcheck)
    refine ⟨r, hrun, hverdict.congr ?_⟩
    rw [textBelow_iff hr hn, TextOk, and_assoc]

/-- `TextOk`, on the links. -/
def Memory.TextOk (m : Memory) (a : Ptr) : Prop :=
  (∀ k, m.key a = some k → IsUtf8 k) ∧ (m.tag a = .string → ∀ s, m.string_ a = some s → IsUtf8 s)

theorem Memory.Is.textOk_iff (his : m.Is a n) : m.TextOk a ↔ JsonLinks.TextOk n := by
  rw [Memory.TextOk, JsonLinks.TextOk, his.key, his.tag_eq]
  refine and_congr_right fun _ => ?_
  have hshape := his.shape
  constructor
  · intro htext s hs
    rw [hs] at htext hshape
    exact htext rfl s hshape.2
  · intro htext htag s hs
    cases hcontents : n.contents with
    | string s' =>
      rw [hcontents] at hshape
      obtain rfl := Option.some.inj (hshape.2.symm.trans hs)
      exact htext s' hcontents
    | _ =>
      rw [hcontents] at htag
      cases htag

theorem Represents.textBelow_iff (hr : Represents m h) (hn : h.nodes p = some pn) :
    TextBelow h p ↔ ∀ a, m.Below p a → m.TextOk a := by
  constructor
  · intro htext a hb
    rw [hr.below_iff] at hb
    obtain ⟨n, ha⟩ : ∃ n, h.nodes a = some n := by
      by_cases hap : a = p
      · exact ⟨pn, hap ▸ hn⟩
      · obtain ⟨q, hq, -⟩ := hb.parent hap
        exact live_of_parentOf hq
    exact (hr.node a n ha).textOk_iff.2 (htext a n hb ha)
  · intro htext a n hb ha
    exact (hr.node a n ha).textOk_iff.1 (htext a ((hr.below_iff p a).2 hb))

/-- There are turns enough for every node there is. -/
theorem jsonCheck_ends (hr : Represents m h) (hl : Labelled h) (hn : h.nodes p = some pn)
    (hcycle : ∀ q, parentOf h p = some q → ¬ Below h p q) :
    ∃ r, jsonCheck m.fresh p m = .ok r m ∧ Verdict (TextBelow h p) r := by
  have hlt : p < m.fresh := by
    rw [hr.next]
    exact hr.fresh.lt hn
  have hless : ((List.range m.fresh).erase p).length < m.fresh := by
    rw [List.length_erase_of_mem (List.mem_range.2 hlt), List.length_range]
    exact Nat.sub_one_lt_of_lt hlt
  have hhang (a : Ptr) (hap : a ≠ p) (hb : Below h p a) : a ∈ (List.range m.fresh).erase p := by
    obtain ⟨q, hq, -⟩ := hb.parent hap
    obtain ⟨n, ha⟩ := live_of_parentOf hq
    rw [hr.next]
    exact (List.mem_erase_of_ne hap).2 (List.mem_range.2 (hr.fresh.lt ha))
  exact jsonCheck_run hr hl m.fresh _ hn hcycle hhang hless

/-- After any calls `json_check` finds nothing wrong with the links of a node that is not below itself, nor with
anything but the text. -/
theorem jsonCheck_reached (hm : m.Reached) (hp : m.live p = true)
    (hcycle : ∀ q, m.parent p = some q → ¬ m.Below p q) :
    ∃ r, jsonCheck m.fresh p m = .ok r m ∧ Verdict (∀ a, m.Below p a → m.TextOk a) r := by
  obtain ⟨h, hr, hl⟩ := hm.represents
  obtain ⟨pn, hpn⟩ := (hr.live_iff p).1 hp
  obtain ⟨r, hrun, hverdict⟩ := jsonCheck_ends hr hl hpn fun q hq => by
    rw [← hr.below_iff]
    exact hcycle q ((hr.parent_iff p).1 hq).2
  exact ⟨r, hrun, hverdict.congr (hr.textBelow_iff hpn).symm⟩

theorem jsonCheck_reached_array : ∃ r, jsonCheck oneElement.fresh 1 oneElement = .ok r oneElement ∧
    Verdict (∀ a, oneElement.Below 1 a → oneElement.TextOk a) r :=
  jsonCheck_reached oneElement_reached rfl fun _ hq => nomatch hq

end

end CodiusSandbox.JsonLinks
