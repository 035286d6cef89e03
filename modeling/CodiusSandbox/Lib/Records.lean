import Mathlib.Algebra.BigOperators.Group.List.Basic
import Mathlib.Tactic.Common
/-!
# Records that tell their own length

`walk size` cuts records off the front of a list, each as long as `size` says of what is left.
-/
namespace Records

variable {α : Type}

/-- `none`: a record is empty, or longer than what is left, or the fuel does not suffice. -/
def walk (size : List α → Nat) : Nat → List α → Option (List (List α))
  | _, [] => some []
  | 0, _ :: _ => none
  | fuel + 1, a :: data =>
    let n := size (a :: data)
    if 0 < n ∧ n ≤ (a :: data).length then
      (walk size fuel ((a :: data).drop n)).map fun records => (a :: data).take n :: records
    else none

/-- `size` tells the length of `r` whatever comes behind it. -/
structure Framed (size : List α → Nat) (r : List α) : Prop where
  nonempty : r ≠ []
  tells : ∀ rest, size (r ++ rest) = r.length

variable {size : List α → Nat} {r : List α} {records : List (List α)} {fuel : Nat}

@[simp] theorem walk_nil : walk size fuel [] = some [] := by
  cases fuel <;> rfl

theorem walk_append (h : Framed size r) (rest : List α) :
    walk size (fuel + 1) (r ++ rest) = (walk size fuel rest).map fun records => r :: records := by
  cases r with
  | nil => exact absurd rfl h.nonempty
  | cons a r =>
    have hs := h.tells rest
    have hle : (a :: r).length ≤ (a :: r ++ rest).length := by simp
    rw [List.cons_append] at hs hle ⊢
    rw [walk, hs, if_pos ⟨by simp, hle⟩, ← List.cons_append, List.drop_left, List.take_left]

/-- Framed records one behind the other are found again, and the walk ends at the end. -/
theorem walk_flatten (h : ∀ r ∈ records, Framed size r) (hf : records.length ≤ fuel) :
    walk size fuel records.flatten = some records := by
  induction records generalizing fuel with
  | nil => simp
  | cons r records ih =>
    simp only [List.length_cons] at hf
    obtain ⟨fuel, rfl⟩ : ∃ n, fuel = n + 1 := ⟨fuel - 1, by omega⟩
    rw [List.flatten_cons, walk_append (h r (by simp)),
      ih (fun r' hr' => h r' (by simp [hr'])) (by omega)]
    rfl

/-- No more framed records than elements. -/
theorem length_le_flatten (h : ∀ r ∈ records, Framed size r) : records.length ≤ records.flatten.length := by
  have hpos : ∀ n ∈ records.map List.length, 1 ≤ n := by
    intro n hn
    obtain ⟨r, hr, rfl⟩ := List.mem_map.1 hn
    exact List.length_pos_iff.2 (h r hr).nonempty
  rw [List.length_flatten]
  simpa using List.length_le_sum_of_one_le _ hpos

end Records
