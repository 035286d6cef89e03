import Mathlib.Order.Closure
/-!
# A pointer that is only moved up

Pieces of the lengths `ls` are put behind one another, each where `up` rounds the end of the last one. `up` is a
closure operator, so the pieces do not meet (`increasing`), and as long as every piece that holds anything ends
at `top` or before, the pointer stays at or below `up top` (`next_le`).
-/
namespace BumpPointer

variable (up : ClosureOperator ℕ) {p top l : ℕ} {ls : List ℕ} {e : ℕ × ℕ}

/-- Start and length of each piece. -/
def allot : ℕ → List ℕ → List (ℕ × ℕ)
  | _, [] => []
  | p, l :: ls => (p, l) :: allot (up (p + l)) ls

/-- No piece that holds anything ends behind `top`. -/
def Fits (p top : ℕ) (ls : List ℕ) : Prop := ∀ e ∈ allot up p ls, 0 < e.2 → e.1 + e.2 ≤ top

instance : Decidable (Fits up p top ls) := inferInstanceAs (Decidable (∀ e ∈ allot up p ls, 0 < e.2 → e.1 + e.2 ≤ top))

variable {up}

theorem fits_cons : Fits up p top (l :: ls) ↔ (0 < l → p + l ≤ top) ∧ Fits up (up (p + l)) top ls :=
  List.forall_mem_cons

theorem next_le (hp : p ≤ up top) (h : 0 < l → p + l ≤ top) : up (p + l) ≤ up top := by
  rcases Nat.eq_zero_or_pos l with rfl | hpos
  · exact (up.monotone hp).trans (up.idempotent top).le
  · exact up.monotone (h hpos)

theorem start_le : ∀ {ls : List ℕ} {p : ℕ}, e ∈ allot up p ls → p ≤ e.1
  | [], _, h => absurd h List.not_mem_nil
  | l :: ls, p, h => by
    rcases List.mem_cons.1 h with rfl | h
    · exact Nat.le_refl p
    · have hnext := up.le_closure (p + l)
      have hle := start_le h
      omega

/-- Each piece ends before the next ones start. -/
theorem increasing : ∀ (ls : List ℕ) (p : ℕ), (allot up p ls).Pairwise fun a b => a.1 + a.2 ≤ b.1
  | [], _ => List.Pairwise.nil
  | l :: ls, p => by
    refine List.pairwise_cons.2 ⟨fun b hb => ?_, increasing ls _⟩
    exact (up.le_closure (p + l)).trans (start_le hb)

end BumpPointer
