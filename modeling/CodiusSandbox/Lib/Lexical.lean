import Mathlib.Data.List.Induction
import Mathlib.Tactic.Common
/-!
# Paths resolved without looking at the disk

A path is walked component by component, over a stack of directory names. Each amounts to a number
of climbs and then a descent (`walk_eq`), so that where it leads is read off without walking it.
-/
namespace Lexical

variable {α : Type}

inductive Component (α : Type) where
  | stay
  | up
  | down (name : α)
deriving DecidableEq, Repr

/-- One component from the directory `dir`; there is nothing above the empty stack. -/
def step (dir : List α) : Component α → List α
  | .stay => dir
  | .up => dir.dropLast
  | .down name => dir ++ [name]

def walk (dir : List α) (p : List (Component α)) : List α := p.foldl step dir

/-- One more component behind `k` climbs and the descent `r`. -/
def summarize : Nat × List α → Component α → Nat × List α
  | s, .stay => s
  | (k, []), .up => (k + 1, [])
  | (k, r), .up => (k, r.dropLast)
  | (k, r), .down name => (k, r ++ [name])

def summary (p : List (Component α)) : Nat × List α := p.foldl summarize (0, [])

/-- How far `p` climbs above where it starts. -/
def climbs (p : List (Component α)) : Nat := (summary p).1

/-- The names `p` descends by from its highest point. -/
def descent (p : List (Component α)) : List α := (summary p).2

/-- The directory `k` levels above `dir`. -/
def above (k : Nat) (dir : List α) : List α := dir.take (dir.length - k)

@[simp] theorem walk_nil (dir : List α) : walk dir [] = dir := rfl

@[simp] theorem walk_append (dir : List α) (p q : List (Component α)) :
    walk dir (p ++ q) = walk (walk dir p) q := by
  simp [walk]

@[simp] theorem walk_singleton (dir : List α) (c : Component α) : walk dir [c] = step dir c := rfl

theorem summary_append_singleton (p : List (Component α)) (c : Component α) :
    summary (p ++ [c]) = summarize (summary p) c := by
  simp [summary]

@[simp] theorem above_zero (dir : List α) : above 0 dir = dir := by
  simp [above]

@[simp] theorem above_nil (k : Nat) : above k ([] : List α) = [] := by
  simp [above]

/-- Climbing as far as the directory is deep leads to the top. -/
theorem above_eq_nil {k : Nat} {dir : List α} : above k dir = [] ↔ dir.length ≤ k := by
  unfold above
  rw [List.take_eq_nil_iff, ← List.length_eq_zero_iff]
  omega

theorem dropLast_above (k : Nat) (dir : List α) : (above k dir).dropLast = above (k + 1) dir := by
  unfold above
  rw [List.dropLast_eq_take, List.take_take, List.length_take]
  congr 1
  omega

/-- The climbs and then the descent lead where the path leads. -/
theorem walk_eq (dir : List α) (p : List (Component α)) :
    walk dir p = above (climbs p) dir ++ descent p := by
  unfold climbs descent
  induction p using List.reverseRecOn with
  | nil => simp [summary]
  | append_singleton p c ih =>
    rw [walk_append, walk_singleton, summary_append_singleton, ih]
    cases c with
    | stay => rfl
    | down name => simp [step, summarize]
    | up =>
      cases hr : (summary p).2 with
      | nil =>
        have hs : summary p = ((summary p).1, []) := Prod.ext rfl hr
        rw [hs]
        simp [step, summarize, dropLast_above]
      | cons a r =>
        have hs : summary p = ((summary p).1, a :: r) := Prod.ext rfl hr
        rw [hs]
        simp only [step, summarize]
        rw [List.dropLast_append_of_ne_nil (by simp)]

/-- Two starts lead to one place exactly if they agree as far up as the path climbs. -/
theorem walk_eq_walk_iff {dir dir' : List α} {p : List (Component α)} :
    walk dir p = walk dir' p ↔ above (climbs p) dir = above (climbs p) dir' := by
  rw [walk_eq, walk_eq, List.append_left_inj]

/-- A path stays below its start exactly if it descends again what it climbed. -/
theorem prefix_walk_iff {dir : List α} {p : List (Component α)} :
    dir <+: walk dir p ↔ dir.drop (dir.length - climbs p) <+: descent p := by
  have hsplit : dir = above (climbs p) dir ++ dir.drop (dir.length - climbs p) :=
    (List.take_append_drop _ _).symm
  rw [walk_eq]
  constructor
  · intro h
    rw [← List.prefix_append_right_inj (above (climbs p) dir), ← hsplit]
    exact h
  · intro h
    rw [← List.prefix_append_right_inj (above (climbs p) dir), ← hsplit] at h
    exact h

end Lexical
