import Mathlib.Tactic.Common
/-!
# Weakest preconditions of `EStateM` programs

`wp x Q E s`: run from `s`, the program `x` either returns in a result and a state that satisfy `Q`
or throws in an error and a state that satisfy `E`. `EStateM` is deterministic and keeps the state
at a throw, so every rule is an equivalence; a program is analysed by rewriting with the rules of
its parts, in either direction.
-/
namespace Wp

variable {ε σ α β : Type}

def wp (x : EStateM ε σ α) (Q : α → σ → Prop) (E : ε → σ → Prop) (s : σ) : Prop :=
  match x s with
  | .ok a t => Q a t
  | .error e t => E e t

instance {x : EStateM ε σ α} {Q : α → σ → Prop} {E : ε → σ → Prop} {s : σ}
    [∀ a t, Decidable (Q a t)] [∀ e t, Decidable (E e t)] : Decidable (wp x Q E s) :=
  match h : x s with
  | .ok a t => decidable_of_iff (Q a t) (by simp [wp, h])
  | .error e t => decidable_of_iff (E e t) (by simp [wp, h])

/-- The program returns, in a result and state that satisfy `Q`. -/
def Returns (x : EStateM ε σ α) (Q : α → σ → Prop) (s : σ) : Prop :=
  wp x Q (fun _ _ => False) s

instance {x : EStateM ε σ α} {Q : α → σ → Prop} {s : σ} [∀ a t, Decidable (Q a t)] :
    Decidable (Returns x Q s) := inferInstanceAs (Decidable (wp x Q (fun _ _ => False) s))

/-! ## Runs -/

theorem bind_ok {x : EStateM ε σ β} {f : β → EStateM ε σ α} {s t : σ} {b : β} (h : x s = .ok b t) :
    (x >>= f) s = f b t := by
  simp only [bind, EStateM.bind, h]

theorem bind_error {x : EStateM ε σ β} {f : β → EStateM ε σ α} {s t : σ} {e : ε}
    (h : x s = .error e t) : (x >>= f) s = .error e t := by
  simp only [bind, EStateM.bind, h]

/-- A composite that returns, taken apart. -/
theorem of_bind_ok {x : EStateM ε σ β} {f : β → EStateM ε σ α} {s t : σ} {a : α} (h : (x >>= f) s = .ok a t) :
    ∃ b u, x s = .ok b u ∧ f b u = .ok a t := by
  cases hx : x s with
  | ok b u => exact ⟨b, u, rfl, by rw [← h, bind_ok hx]⟩
  | error e u =>
    rw [bind_error hx] at h
    cases h

theorem bind_get {f : σ → EStateM ε σ α} (s : σ) : (get >>= f) s = f s s := rfl

theorem bind_set {f : PUnit → EStateM ε σ α} (s t : σ) : (set t >>= f) s = f ⟨⟩ t := rfl

theorem bind_modify {g : σ → σ} {f : PUnit → EStateM ε σ α} {s : σ} :
    (modify g >>= f) s = f ⟨⟩ (g s) := rfl

/-- `StateM` cannot throw, and runs as a function. -/
theorem state_bind (x : StateM σ β) (f : β → StateM σ α) (s : σ) : (x >>= f) s = f (x s).1 (x s).2 := rfl

/-! ## Rules -/

section
variable {Q : α → σ → Prop} {E : ε → σ → Prop} {s : σ}

@[simp] theorem wp_pure (a : α) : wp (pure a) Q E s ↔ Q a s := Iff.rfl

@[simp] theorem wp_throw (e : ε) : wp (throw e : EStateM ε σ α) Q E s ↔ E e s := Iff.rfl

@[simp] theorem wp_bind (x : EStateM ε σ β) (f : β → EStateM ε σ α) :
    wp (x >>= f) Q E s ↔ wp x (fun b t => wp (f b) Q E t) E s := by
  simp only [wp, bind, EStateM.bind]
  cases x s <;> rfl

@[simp] theorem wp_map (x : EStateM ε σ β) (f : β → α) :
    wp (f <$> x) Q E s ↔ wp x (fun b t => Q (f b) t) E s := by
  simp only [wp, Functor.map, EStateM.map]
  cases x s <;> rfl

@[simp] theorem wp_get {Q : σ → σ → Prop} : wp (get : EStateM ε σ σ) Q E s ↔ Q s s := Iff.rfl

@[simp] theorem wp_set {Q : PUnit → σ → Prop} (t : σ) :
    wp (set t : EStateM ε σ PUnit) Q E s ↔ Q ⟨⟩ t := Iff.rfl

@[simp] theorem wp_modify {Q : PUnit → σ → Prop} (f : σ → σ) :
    wp (modify f : EStateM ε σ PUnit) Q E s ↔ Q ⟨⟩ (f s) := Iff.rfl

theorem wp_ite (c : Prop) [Decidable c] (x y : EStateM ε σ α) :
    wp (if c then x else y) Q E s ↔ (c → wp x Q E s) ∧ (¬c → wp y Q E s) := by
  by_cases h : c <;> simp [h]

theorem wp_ok {x : EStateM ε σ α} {a : α} {t : σ} (h : x s = .ok a t) : wp x Q E s ↔ Q a t := by
  simp only [wp, h]

theorem wp_error {x : EStateM ε σ α} {e : ε} {t : σ} (h : x s = .error e t) : wp x Q E s ↔ E e t := by
  simp only [wp, h]

theorem wp_mono {x : EStateM ε σ α} {Q' : α → σ → Prop} {E' : ε → σ → Prop}
    (hQ : ∀ a t, Q a t → Q' a t) (hE : ∀ e t, E e t → E' e t) (h : wp x Q E s) : wp x Q' E' s := by
  unfold wp at h ⊢
  split at h <;> simp_all

theorem wp_and {x : EStateM ε σ α} {Q' : α → σ → Prop} {E' : ε → σ → Prop} (h : wp x Q E s) (h' : wp x Q' E' s) :
    wp x (fun a t => Q a t ∧ Q' a t) (fun e t => E e t ∧ E' e t) s := by
  unfold wp at h h' ⊢
  split at h <;> simp_all

/-- What holds behind every second part holds behind the whole. -/
theorem wp_bind_of_forall {x : EStateM ε σ β} {f : β → EStateM ε σ α}
    (h : ∀ b t, wp (f b) Q (fun _ _ => True) t) (s : σ) : wp (x >>= f) Q (fun _ _ => True) s := by
  rw [wp_bind]
  unfold wp
  cases x s with
  | ok b t => exact h b t
  | error _ _ => trivial

end

theorem returns_iff {x : EStateM ε σ α} {Q : α → σ → Prop} {s : σ} :
    Returns x Q s ↔ ∃ a t, x s = .ok a t ∧ Q a t := by
  unfold Returns wp
  cases h : x s <;> simp

@[simp] theorem returns_pure {Q : α → σ → Prop} {s : σ} (a : α) : Returns (pure a : EStateM ε σ α) Q s ↔ Q a s :=
  Iff.rfl

@[simp] theorem returns_throw {Q : α → σ → Prop} {s : σ} (e : ε) :
    Returns (throw e : EStateM ε σ α) Q s ↔ False := Iff.rfl

@[simp] theorem returns_bind {Q : α → σ → Prop} {s : σ} (x : EStateM ε σ β) (f : β → EStateM ε σ α) :
    Returns (x >>= f) Q s ↔ Returns x (fun b t => Returns (f b) Q t) s := wp_bind x f

@[simp] theorem returns_get {Q : σ → σ → Prop} {s : σ} :
    Returns (get : EStateM ε σ σ) Q s ↔ Q s s := Iff.rfl

@[simp] theorem returns_set {Q : PUnit → σ → Prop} {s : σ} (t : σ) :
    Returns (set t : EStateM ε σ PUnit) Q s ↔ Q ⟨⟩ t := Iff.rfl

@[simp] theorem returns_modify {Q : PUnit → σ → Prop} {s : σ} (f : σ → σ) :
    Returns (modify f : EStateM ε σ PUnit) Q s ↔ Q ⟨⟩ (f s) := Iff.rfl

theorem Returns.mono {x : EStateM ε σ α} {Q Q' : α → σ → Prop} {s : σ} (h : ∀ a t, Q a t → Q' a t)
    (hx : Returns x Q s) : Returns x Q' s := wp_mono h (fun _ _ => id) hx

theorem returns_ok {x : EStateM ε σ α} {Q : α → σ → Prop} {s t : σ} {a : α} (h : x s = .ok a t) :
    Returns x Q s ↔ Q a t := wp_ok h

theorem Returns.both {x : EStateM ε σ α} {Q R : α → σ → Prop} {s : σ} (hq : Returns x Q s)
    (hr : Returns x R s) : ∃ a t, Q a t ∧ R a t := by
  obtain ⟨a, t, hx, hq⟩ := returns_iff.1 hq
  exact ⟨a, t, hq, (returns_ok hx).1 hr⟩

/-- A program that returns, under a postcondition that says nothing about it. -/
theorem returns_const {x : EStateM ε σ α} {Q : α → σ → Prop} {s : σ} {p : Prop}
    (hx : ∃ a t, x s = .ok a t) (hQ : ∀ a t, Q a t ↔ p) : Returns x Q s ↔ p := by
  obtain ⟨a, t, h⟩ := hx
  rw [returns_iff]
  exact ⟨fun ⟨a', t', _, hq⟩ => (hQ a' t').1 hq, fun hp => ⟨a, t, h, (hQ a t).2 hp⟩⟩

theorem error_of_not_returns {x : EStateM ε σ α} {s : σ} (h : ¬ Returns x (fun _ _ => True) s) :
    ∃ e t, x s = .error e t := by
  rw [returns_iff] at h
  cases hx : x s with
  | ok a t => exact absurd ⟨a, t, hx, trivial⟩ h
  | error e t => exact ⟨e, t, rfl⟩

theorem not_returns_of_error {x : EStateM ε σ α} {Q : α → σ → Prop} {s t : σ} {e : ε} (h : x s = .error e t) :
    ¬ Returns x Q s := (wp_error h).1

/-- A program that throws does not return. -/
theorem not_returns_of_throws {x : EStateM ε σ α} {Q : α → σ → Prop} {E : ε → σ → Prop} {s : σ}
    (h : wp x (fun _ _ => False) E s) : ¬ Returns x Q s := by
  rw [returns_iff]
  rintro ⟨a, t, hx, _⟩
  exact (wp_ok hx).1 h

/-! ## What a program leaves alone -/

/-- However `x` ends, `obs` is what it was. -/
def Preserves {γ : Type} (obs : σ → γ) (x : EStateM ε σ α) : Prop :=
  ∀ s, wp x (fun _ t => obs t = obs s) (fun _ t => obs t = obs s) s

namespace Preserves

variable {γ δ : Type} {obs : σ → γ}

theorem pure (a : α) : Preserves obs (pure a : EStateM ε σ α) := fun _ => rfl

theorem throw (e : ε) : Preserves obs (throw e : EStateM ε σ α) := fun _ => rfl

theorem get : Preserves obs (get : EStateM ε σ σ) := fun _ => rfl

theorem bind {x : EStateM ε σ β} {f : β → EStateM ε σ α} (hx : Preserves obs x)
    (hf : ∀ b, Preserves obs (f b)) : Preserves obs (x >>= f) := fun s => by
  rw [wp_bind]
  refine wp_mono (fun b t ht => ?_) (fun _ _ => id) (hx s)
  exact wp_mono (fun _ _ hu => hu.trans ht) (fun _ _ hu => hu.trans ht) (hf b t)

theorem ite {c : Prop} [Decidable c] {x y : EStateM ε σ α} (hx : Preserves obs x)
    (hy : Preserves obs y) : Preserves obs (if c then x else y) := by
  split
  · exact hx
  · exact hy

/-- What is computed from a preserved observation is preserved. -/
theorem mono {x : EStateM ε σ α} (hx : Preserves obs x) (g : γ → δ) :
    Preserves (fun s => g (obs s)) x := fun s =>
  wp_mono (fun _ _ h => congrArg g h) (fun _ _ h => congrArg g h) (hx s)

theorem of_ok {x : EStateM ε σ α} (hx : Preserves obs x) {a : α} {s t : σ} (h : x s = .ok a t) :
    obs t = obs s := (wp_ok h).1 (hx s)

end Preserves

/-! ## Where a program may lead -/

/-- However `x` ends, the last state is one that `R` allows behind the first. -/
def Advances (R : σ → σ → Prop) (x : EStateM ε σ α) : Prop :=
  ∀ s, wp x (fun _ t => R s t) (fun _ t => R s t) s

namespace Advances

variable {R : σ → σ → Prop}

theorem of_preserves {γ : Type} {obs : σ → γ} {x : EStateM ε σ α} (hx : Preserves obs x)
    (h : ∀ s t, obs t = obs s → R s t) : Advances R x := fun s =>
  wp_mono (fun _ t => h s t) (fun _ t => h s t) (hx s)

theorem bind (trans : ∀ {s t u}, R s t → R t u → R s u) {x : EStateM ε σ β} {f : β → EStateM ε σ α}
    (hx : Advances R x) (hf : ∀ b, Advances R (f b)) : Advances R (x >>= f) := fun s => by
  rw [wp_bind]
  refine wp_mono (fun b t ht => ?_) (fun _ _ => id) (hx s)
  exact wp_mono (fun _ _ hu => trans ht hu) (fun _ _ hu => trans ht hu) (hf b t)

theorem ite {c : Prop} [Decidable c] {x y : EStateM ε σ α} (hx : Advances R x) (hy : Advances R y) :
    Advances R (if c then x else y) := by
  split
  · exact hx
  · exact hy

theorem of_ok {x : EStateM ε σ α} (hx : Advances R x) {a : α} {s t : σ} (h : x s = .ok a t) : R s t :=
  (wp_ok h).1 (hx s)

end Advances

end Wp
