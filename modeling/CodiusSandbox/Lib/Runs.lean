import Mathlib.Tactic.Common
/-!
# Runs of a partial step function

`step e s` is the state behind the event `e`, if that can happen in `s`. `Run step C s₀ s`: events that
satisfy `C` where they happen lead from `s₀` to `s`.
-/
namespace Runs

variable {S E : Type}

inductive Run (step : E → S → Option S) (C : E → S → Prop) (s₀ : S) : S → Prop
  | start : Run step C s₀ s₀
  | step {s s' : S} {e : E} : Run step C s₀ s → C e s → step e s = some s' → Run step C s₀ s'

/-- The state behind a list of events. -/
def after (step : E → S → Option S) : List E → S → Option S
  | [], s => some s
  | e :: es, s => (step e s).bind (after step es)

/-- Each event of the list satisfies `C` where it happens. -/
def Meets (step : E → S → Option S) (C : E → S → Prop) : List E → S → Prop
  | [], _ => True
  | e :: es, s => C e s ∧ ∀ s', step e s = some s' → Meets step C es s'

variable {step : E → S → Option S} {C D : E → S → Prop} {s₀ s s' : S} {I : S → Prop}

/-- What holds at the start and is kept by every event holds in every state of a run. -/
theorem Run.invariant (h : Run step C s₀ s) (start : I s₀)
    (keep : ∀ e s s', I s → C e s → step e s = some s' → I s') : I s := by
  induction h with
  | start => exact start
  | step _ hc hs ih => exact keep _ _ _ ih hc hs

theorem Run.of_after : ∀ {es : List E} {s : S}, Run step C s₀ s → Meets step C es s →
    after step es s = some s' → Run step C s₀ s' := by
  intro es
  induction es with
  | nil =>
    intro s h _ hs
    cases hs
    exact h
  | cons e es ih =>
    intro s h hm hs
    rw [after, Option.bind_eq_some_iff] at hs
    obtain ⟨t, ht, hs⟩ := hs
    exact ih (.step h hm.1 ht) (hm.2 t ht) hs

/-- Where an invariant holds as long as the events satisfy `C`, and an event that does not ends in a bad
state and leaves nothing but bad states behind it, the good runs are those whose events all satisfy `C`. -/
theorem after_iff {G : S → Prop} (ok : ∀ s, I s → G s)
    (keep : ∀ e s s', I s → C e s → step e s = some s' → I s')
    (bad : ∀ e s s', I s → ¬ C e s → step e s = some s' → ¬ G s')
    (persist : ∀ e s s', ¬ G s → step e s = some s' → ¬ G s') :
    ∀ {es : List E} {s : S}, I s → after step es s = some s' → (G s' ↔ Meets step C es s) := by
  have stays : ∀ {es : List E} {s : S}, ¬ G s → after step es s = some s' → ¬ G s' := by
    intro es
    induction es with
    | nil =>
      intro s hg hs
      cases hs
      exact hg
    | cons e es ih =>
      intro s hg hs
      rw [after, Option.bind_eq_some_iff] at hs
      obtain ⟨t, ht, hs⟩ := hs
      exact ih (persist e s t hg ht) hs
  intro es
  induction es with
  | nil =>
    intro s hi hs
    cases hs
    exact iff_of_true (ok _ hi) trivial
  | cons e es ih =>
    intro s hi hs
    rw [after, Option.bind_eq_some_iff] at hs
    obtain ⟨t, ht, hs⟩ := hs
    by_cases hc : C e s
    · rw [ih (keep e s t hi hc ht) hs]
      refine ⟨fun h => ⟨hc, fun t' ht' => ?_⟩, fun h => h.2 t ht⟩
      rw [ht] at ht'
      cases ht'
      exact h
    · exact iff_of_false (stays (bad e s t hi hc ht) hs) fun h => hc h.1

/-! ## Total steps -/

section
variable {T : Type} {next : E → S → S} {next' : E → T → T} {A : E → S → Prop} {B : E → T → Prop} {R : S → T → Prop}

/-- Each event of the list satisfies `A` where it happens. -/
def Along (next : E → S → S) (A : E → S → Prop) : List E → S → Prop
  | [], _ => True
  | e :: es, s => A e s ∧ Along next A es (next e s)

instance [∀ e s, Decidable (A e s)] : ∀ (es : List E) (s : S), Decidable (Along next A es s)
  | [], _ => inferInstanceAs (Decidable True)
  | e :: es, s =>
    have := instDecidableAlong es (next e s)
    inferInstanceAs (Decidable (A e s ∧ Along next A es (next e s)))

/-- Two systems in step with each other, as long as the events are good, have the same good lists of events. -/
theorem along_iff (agree : ∀ e s t, R s t → (A e s ↔ B e t))
    (keep : ∀ e s t, R s t → B e t → R (next e s) (next' e t)) :
    ∀ {es : List E} {s : S} {t : T}, R s t → (Along next A es s ↔ Along next' B es t) := by
  intro es
  induction es with
  | nil => exact fun _ => Iff.rfl
  | cons e es ih =>
    intro s t h
    rw [Along, Along, agree e s t h]
    exact and_congr_right fun hb => ih (keep e s t h hb)

end

end Runs
