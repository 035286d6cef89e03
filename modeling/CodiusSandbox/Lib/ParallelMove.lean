import Mathlib.Data.List.Nodup
import Mathlib.Logic.Function.Basic
/-!
# Moves made one after the other

A list of moves `(destination, source)` is to give each destination what its source held at the start. Made in
order, they do so exactly if no move writes the source of a later one (`parallel_iff`), as long as the
destinations are distinct and so is what the sources hold.
-/
namespace ParallelMove

variable {K V : Type} [DecidableEq K]

/-- The moves in order. -/
def sequential : List (K × K) → (K → V) → K → V
  | [], env => env
  | m :: ms, env => sequential ms (Function.update env m.1 (env m.2))

/-- From `env` to `env'` each destination has got what its source held. -/
def Parallel (ms : List (K × K)) (env env' : K → V) : Prop := ∀ m ∈ ms, env' m.1 = env m.2

variable {m b : K × K} {ms : List (K × K)} {env env' : K → V} {k : K}

theorem sequential_of_notMem : ∀ {ms : List (K × K)} {env : K → V}, k ∉ ms.map Prod.fst → sequential ms env k = env k
  | [], _, _ => rfl
  | m :: ms, env, h => by
    obtain ⟨hne, h⟩ := not_or.1 (mt List.mem_cons.2 h)
    rw [sequential, sequential_of_notMem h, Function.update_of_ne hne]

/-- A source that is no destination is moved as it was. -/
theorem sequential_of_kept : ∀ {ms : List (K × K)} {env : K → V}, (ms.map Prod.fst).Nodup → b ∈ ms →
    b.2 ∉ ms.map Prod.fst → sequential ms env b.1 = env b.2
  | [], _, _, hb, _ => absurd hb List.not_mem_nil
  | m :: ms, env, hd, hb, hsrc => by
    obtain ⟨hm, hd⟩ := List.nodup_cons.1 hd
    obtain ⟨hne, hsrc⟩ := not_or.1 (mt List.mem_cons.2 hsrc)
    rcases List.mem_cons.1 hb with rfl | hb
    · rw [sequential, sequential_of_notMem hm, Function.update_self]
    · rw [sequential, sequential_of_kept hd hb hsrc, Function.update_of_ne hne]

theorem parallel_of_pairwise : ∀ {ms : List (K × K)} {env : K → V}, (ms.map Prod.fst).Nodup →
    (ms.Pairwise fun a b => a.1 ≠ b.2) → Parallel ms env (sequential ms env)
  | [], _, _, _ => fun m hm => absurd hm List.not_mem_nil
  | m :: ms, env, hd, hp => by
    obtain ⟨hm, hd⟩ := List.nodup_cons.1 hd
    obtain ⟨hfirst, hp⟩ := List.pairwise_cons.1 hp
    refine List.forall_mem_cons.2 ⟨?_, fun b hb => ?_⟩
    · rw [sequential, sequential_of_notMem hm, Function.update_self]
    · rw [sequential, parallel_of_pairwise hd hp b hb, Function.update_of_ne (hfirst b hb).symm]

theorem pairwise_of_parallel : ∀ {ms : List (K × K)} {env : K → V}, (ms.map Prod.fst).Nodup →
    (ms.map fun m => env m.2).Nodup → Parallel ms env (sequential ms env) → ms.Pairwise fun a b => a.1 ≠ b.2
  | [], _, _, _, _ => List.Pairwise.nil
  | m :: ms, env, hd, hs, h => by
    obtain ⟨hm, hd⟩ := List.nodup_cons.1 hd
    obtain ⟨hms, hs⟩ := List.nodup_cons.1 hs
    have hfirst : ∀ b ∈ ms, m.1 ≠ b.2 := by
      intro b hb heq
      have hown := h b (List.mem_cons_of_mem _ hb)
      rw [sequential, sequential_of_kept hd hb (heq ▸ hm), ← heq, Function.update_self] at hown
      rw [heq] at hown
      exact hms (List.mem_map.2 ⟨b, hb, hown.symm⟩)
    have hsame : ∀ b ∈ ms, Function.update env m.1 (env m.2) b.2 = env b.2 := fun b hb =>
      Function.update_of_ne (hfirst b hb).symm _ _
    have hs' : (ms.map fun b => Function.update env m.1 (env m.2) b.2).Nodup := by
      rw [List.map_congr_left hsame]
      exact hs
    have h' : Parallel ms (Function.update env m.1 (env m.2)) (sequential ms (Function.update env m.1 (env m.2))) := by
      intro b hb
      rw [hsame b hb]
      exact h b (List.mem_cons_of_mem _ hb)
    exact List.pairwise_cons.2 ⟨hfirst, pairwise_of_parallel hd hs' h'⟩

theorem parallel_iff (hd : (ms.map Prod.fst).Nodup) (hs : (ms.map fun m => env m.2).Nodup) :
    Parallel ms env (sequential ms env) ↔ ms.Pairwise fun a b => a.1 ≠ b.2 :=
  ⟨pairwise_of_parallel hd hs, parallel_of_pairwise hd⟩

end ParallelMove
