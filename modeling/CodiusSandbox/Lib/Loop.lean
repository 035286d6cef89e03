import CodiusSandbox.Lib.Wp
/-!
# Loops that end from within

`loop body fuel` runs `body` until it says that it is done, at most `fuel` times, and returns whether it was.
Where the body keeps an invariant under which it is never done, no fuel suffices (`loop_keeps`).
-/
namespace Loop

open Wp

variable {ε σ : Type} {body : EStateM ε σ Bool} {s t : σ}

def loop (body : EStateM ε σ Bool) : Nat → EStateM ε σ Bool
  | 0 => pure false
  | fuel + 1 => do
    let done ← body
    if done then return true
    loop body fuel

theorem loop_done (h : body s = .ok true t) (fuel : Nat) : loop body (fuel + 1) s = .ok true t := by
  rw [loop, bind_ok h]
  rfl

theorem loop_next (h : body s = .ok false t) (fuel : Nat) : loop body (fuel + 1) s = loop body fuel t := by
  rw [loop, bind_ok h]
  rfl

theorem loop_error {e : ε} (h : body s = .error e t) (fuel : Nat) : loop body (fuel + 1) s = .error e t := by
  rw [loop, bind_error h]

/-- Under an invariant that `body` keeps without being done, the loop is never done. -/
theorem loop_keeps {I : σ → Prop} {E : ε → σ → Prop} (h : ∀ s, I s → wp body (fun done t => done = false ∧ I t) E s) :
    ∀ {fuel : Nat} {s : σ}, I s → wp (loop body fuel) (fun done t => done = false ∧ I t) E s
  | 0, s, hs => (wp_pure false).2 ⟨rfl, hs⟩
  | fuel + 1, s, hs => by
    have hbody := h s hs
    cases hb : body s with
    | error e u =>
      rw [wp_error (loop_error hb fuel)]
      exact (wp_error hb).1 hbody
    | ok done u =>
      obtain ⟨rfl, hu⟩ := (wp_ok hb).1 hbody
      have hrest : wp (loop body fuel) (fun done t => done = false ∧ I t) E u := loop_keeps h hu
      unfold wp at hrest ⊢
      rw [loop_next hb]
      exact hrest

end Loop
