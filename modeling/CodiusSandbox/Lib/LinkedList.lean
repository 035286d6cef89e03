import Mathlib.Logic.Function.Basic
import Mathlib.Data.List.Nodup
/-!
# Doubly linked lists

The links are two functions, `prev` and `next`. `Seg prev next a ps b` says that the elements `ps` are linked in
this order, with `a` in front of them and `b` behind; a list is a segment between nothing and nothing, with its
first and its last element known (`DList`). Read backwards a list is a list (`DList.reverse`), so each change at
the front is one at the back.
-/
namespace LinkedList

variable {α : Type} {prev next prev' next' : α → Option α} {a b c head tail : Option α} {p q : α} {ps qs : List α}

/-! ## Segments -/

def Seg (prev next : α → Option α) : Option α → List α → Option α → Prop
  | _, [], _ => True
  | a, p :: ps, b => prev p = a ∧ next p = ps.head?.or b ∧ Seg prev next (some p) ps b

@[simp] theorem seg_nil : Seg prev next a [] b := trivial

@[simp] theorem seg_cons : Seg prev next a (p :: ps) b ↔
    prev p = a ∧ next p = ps.head?.or b ∧ Seg prev next (some p) ps b := Iff.rfl

theorem seg_append : Seg prev next a (ps ++ qs) b ↔
    Seg prev next a ps (qs.head?.or b) ∧ Seg prev next (ps.getLast?.or a) qs b := by
  induction ps generalizing a with
  | nil => simp
  | cons p ps ih =>
    have hlast : (p :: ps).getLast?.or a = ps.getLast?.or (some p) := by
      cases hps : ps.getLast? <;> simp [List.getLast?_cons, hps]
    rw [List.cons_append, seg_cons, seg_cons, ih, hlast, List.head?_append, Option.or_assoc]
    simp only [and_assoc]

theorem seg_reverse : Seg next prev b ps.reverse a ↔ Seg prev next a ps b := by
  induction ps generalizing a with
  | nil => simp
  | cons p ps ih =>
    rw [List.reverse_cons, seg_append, List.getLast?_reverse]
    simp only [List.head?_cons, Option.some_or, seg_cons, List.head?_nil, Option.none_or, seg_nil, and_true, ih]
    tauto

theorem Seg.congr (h : Seg prev next a ps b) (hprev : ∀ p ∈ ps, prev' p = prev p) (hnext : ∀ p ∈ ps, next' p = next p) :
    Seg prev' next' a ps b := by
  induction ps generalizing a with
  | nil => simp
  | cons p ps ih =>
    obtain ⟨hp, hn, hs⟩ := h
    refine ⟨by rw [hprev p (by simp), hp], by rw [hnext p (by simp), hn], ?_⟩
    apply ih hs
    · intro q hq
      exact hprev q (by simp [hq])
    · intro q hq
      exact hnext q (by simp [hq])

section
variable [DecidableEq α]

/-- `f` with `v` at `p`, if there is a `p`. -/
def link (f : α → Option α) (p : Option α) (v : Option α) : α → Option α :=
  match p with
  | some p => Function.update f p v
  | none => f

@[simp] theorem link_none (f : α → Option α) (v : Option α) : link f none v = f := rfl

@[simp] theorem link_some (f : α → Option α) (p : α) (v : Option α) : link f (some p) v = Function.update f p v := rfl

theorem link_of_ne {f : α → Option α} {v : Option α} (h : a ≠ some q) : link f a v q = f q := by
  cases a with
  | none => rfl
  | some p =>
    apply Function.update_of_ne
    rintro rfl
    exact h rfl

/-- The last element gets a new successor. -/
theorem Seg.link_last (h : Seg prev next a ps b) (hps : ps.Nodup) : Seg prev (link next ps.getLast? c) a ps c := by
  induction ps generalizing a with
  | nil => simp
  | cons p ps ih =>
    obtain ⟨hp, hn, hs⟩ := h
    rw [List.nodup_cons] at hps
    cases ps with
    | nil => simp [hp]
    | cons q ps =>
      have hne : (q :: ps).getLast? ≠ some p := fun h => hps.1 (List.mem_of_getLast? h)
      rw [List.getLast?_cons_cons]
      refine ⟨hp, ?_, ih hs hps.2⟩
      rw [link_of_ne hne, hn]
      simp

/-- The first element gets a new predecessor. -/
theorem Seg.link_head (h : Seg prev next a ps b) (hps : ps.Nodup) : Seg (link prev ps.head? c) next c ps b := by
  have hlast := (seg_reverse.2 h).link_last (c := c) (List.nodup_reverse.2 hps)
  rw [List.getLast?_reverse] at hlast
  exact seg_reverse.1 hlast

end

/-! ## Lists -/

/-- The list `ps`, from `head` to `tail`. -/
structure DList (prev next : α → Option α) (head tail : Option α) (ps : List α) : Prop where
  head_eq : head = ps.head?
  tail_eq : tail = ps.getLast?
  seg : Seg prev next none ps none
  nodup : ps.Nodup

theorem DList.nil : DList prev next none none [] := ⟨rfl, rfl, trivial, List.nodup_nil⟩

theorem DList.reverse (h : DList prev next head tail ps) : DList next prev tail head ps.reverse := by
  refine ⟨?_, ?_, seg_reverse.2 h.seg, List.nodup_reverse.2 h.nodup⟩
  · rw [h.tail_eq, List.head?_reverse]
  · rw [h.head_eq, List.getLast?_reverse]

theorem DList.congr (h : DList prev next head tail ps) (hprev : ∀ p ∈ ps, prev' p = prev p)
    (hnext : ∀ p ∈ ps, next' p = next p) : DList prev' next' head tail ps :=
  ⟨h.head_eq, h.tail_eq, h.seg.congr hprev hnext, h.nodup⟩

/-- The neighbours of an element. -/
theorem DList.neighbours (h : DList prev next head tail (ps ++ q :: qs)) :
    prev q = ps.getLast? ∧ next q = qs.head? := by
  obtain ⟨-, hp, hn, -⟩ := seg_append.1 h.seg
  simpa using And.intro hp hn

/-- A new last element is the first one if there was none. -/
theorem DList.append_head (h : DList prev next head tail ps) (q : α) :
    (if tail = none then some q else head) = head.or (some q) := by
  rw [h.head_eq, h.tail_eq]
  cases ps <;> simp

theorem DList.prepend_tail (h : DList prev next head tail ps) (q : α) :
    (if head = none then some q else tail) = tail.or (some q) := h.reverse.append_head q

variable [DecidableEq α]

/-- `q` behind the last element. -/
theorem DList.append (h : DList prev next head tail ps) (hq : q ∉ ps) :
    DList (Function.update prev q tail) (link (Function.update next q none) tail (some q)) (head.or (some q)) (some q)
      (ps ++ [q]) := by
  have hne : tail ≠ some q := by
    rw [h.tail_eq]
    exact fun hmem => hq (List.mem_of_getLast? hmem)
  have hseg : Seg (Function.update prev q tail) (Function.update next q none) none ps none := by
    apply h.seg.congr
    · intro p hp
      apply Function.update_of_ne
      rintro rfl
      exact hq hp
    · intro p hp
      apply Function.update_of_ne
      rintro rfl
      exact hq hp
  refine ⟨?_, by simp, ?_, ?_⟩
  · rw [h.head_eq]
    cases ps <;> simp
  · rw [seg_append]
    constructor
    · have hlast := hseg.link_last (c := some q) h.nodup
      rw [← h.tail_eq] at hlast
      simpa using hlast
    · have hnext : link (Function.update next q none) tail (some q) q = none := by
        rw [link_of_ne hne, Function.update_self]
      rw [seg_cons, hnext, h.tail_eq]
      simp
  · simp only [List.nodup_append, List.nodup_cons, List.not_mem_nil, not_false_eq_true, List.nodup_nil, and_self,
      List.mem_singleton, forall_eq, true_and]
    exact ⟨h.nodup, fun p hp hpq => hq (hpq ▸ hp)⟩

/-- `q` in front of the first element. -/
theorem DList.prepend (h : DList prev next head tail ps) (hq : q ∉ ps) :
    DList (link (Function.update prev q none) head (some q)) (Function.update next q head) (some q) (tail.or (some q))
      (q :: ps) := by
  have happend := (h.reverse.append (by simpa using hq)).reverse
  simpa using happend

/-- Without `q`, whose neighbours are linked to each other. -/
theorem DList.erase (h : DList prev next head tail ps) (hq : q ∈ ps) :
    DList (link prev (next q) (prev q)) (link next (prev q) (next q)) (if prev q = none then next q else head)
      (if next q = none then prev q else tail) (ps.erase q) := by
  obtain ⟨as, bs, rfl⟩ := List.append_of_mem hq
  obtain ⟨hprev, hnext⟩ := h.neighbours
  have hnodup := h.nodup
  simp only [List.nodup_append, List.nodup_cons] at hnodup
  obtain ⟨has, ⟨hqbs, hbs⟩, hdisjoint⟩ := hnodup
  have hqas : q ∉ as := fun hmem => hdisjoint q hmem q (by simp) rfl
  obtain ⟨hsegas, -, -, hsegbs⟩ := seg_append.1 h.seg
  have herase : (as ++ q :: bs).erase q = as ++ bs := by
    rw [List.erase_append_right _ hqas, List.erase_cons_head]
  rw [herase, hprev, hnext]
  refine ⟨?_, ?_, ?_, ?_⟩
  · rw [h.head_eq]
    cases as <;> simp
  · rw [h.tail_eq, List.getLast?_append, List.getLast?_append, List.getLast?_cons]
    cases bs <;> simp [List.getLast?_cons]
  · rw [seg_append]
    constructor
    · have hlast := hsegas.link_last (c := bs.head?) has
      simp only [Option.or_none] at hlast ⊢
      apply hlast.congr
      · intro p hp
        apply link_of_ne
        intro hhead
        exact hdisjoint p hp p (by simp [List.mem_of_head? hhead]) rfl
      · intro p _
        rfl
    · have hhead := hsegbs.link_head (c := as.getLast?) hbs
      simp only [Option.or_none] at hhead ⊢
      apply hhead.congr
      · intro p _
        rfl
      · intro p hp
        apply link_of_ne
        intro hlast
        exact hdisjoint p (List.mem_of_getLast? hlast) p (by simp [hp]) rfl
  · simp only [List.nodup_append]
    exact ⟨has, hbs, fun p hp q hq => hdisjoint p hp q (by simp [hq])⟩

end LinkedList
