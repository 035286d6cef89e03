import Mathlib.Data.Set.Lattice
import Mathlib.Order.CompletePartialOrder
import Mathlib.Order.Interval.Set.LinearOrder
import Mathlib.Tactic.Common
/-!
# Ranges that tile a range

`Tiles l a b`: the half-open ranges of the list `l` are disjoint and together are the range from `a` to
`b`. The ranges may come in any order, and be empty.
-/
namespace Tiling

variable {α : Type} [LinearOrder α]

/-- What lies in some range of the list. -/
def covered (l : List (α × α)) : Set α := {x | ∃ s ∈ l, x ∈ Set.Ico s.1 s.2}

def Apart (l : List (α × α)) : Prop := l.Pairwise fun s t => Disjoint (Set.Ico s.1 s.2) (Set.Ico t.1 t.2)

def Tiles (l : List (α × α)) (a b : α) : Prop := Apart l ∧ covered l = Set.Ico a b

variable {l l' : List (α × α)} {a b c x : α}

@[simp] theorem covered_nil : covered ([] : List (α × α)) = ∅ := by simp [covered]

@[simp] theorem covered_singleton : covered [(a, b)] = Set.Ico a b := by
  ext x
  simp [covered]

@[simp] theorem covered_append : covered (l ++ l') = covered l ∪ covered l' := by
  ext x
  simp [covered, or_and_right, exists_or]

theorem apart_append : Apart (l ++ l') ↔ Apart l ∧ Apart l' ∧ Disjoint (covered l) (covered l') := by
  unfold Apart
  rw [List.pairwise_append, and_congr_right_iff]
  intro _
  rw [and_congr_right_iff]
  intro _
  constructor
  · intro h
    rw [Set.disjoint_left]
    rintro x ⟨s, hs, hxs⟩ ⟨t, ht, hxt⟩
    exact Set.disjoint_left.1 (h s hs t ht) hxs hxt
  · intro h s hs t ht
    rw [Set.disjoint_left]
    intro x hxs hxt
    exact Set.disjoint_left.1 h ⟨s, hs, hxs⟩ ⟨t, ht, hxt⟩

theorem tiles_nil (a : α) : Tiles [] a a := ⟨.nil, by simp⟩

theorem tiles_singleton (a b : α) : Tiles [(a, b)] a b := ⟨List.pairwise_singleton _ _, covered_singleton⟩

/-- Ranges up to `b` and from `b` on. -/
theorem Tiles.append (h : Tiles l a b) (h' : Tiles l' b c) (hab : a ≤ b) (hbc : b ≤ c) :
    Tiles (l ++ l') a c := by
  refine ⟨apart_append.2 ⟨h.1, h'.1, ?_⟩, ?_⟩
  · rw [h.2, h'.2, Set.disjoint_left]
    exact fun x hx hx' => absurd hx'.1 (not_le.2 hx.2)
  · rw [covered_append, h.2, h'.2, Set.Ico_union_Ico_eq_Ico hab hbc]

/-- A range lies within what is tiled. -/
theorem Tiles.mem (h : Tiles l a b) (hx : x ∈ covered l) : a ≤ x ∧ x < b := by
  rw [h.2] at hx
  exact hx

end Tiling
