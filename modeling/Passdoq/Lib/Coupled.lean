import Passdoq.Lib.Eff
import Mathlib

/-!
# Two computations side by side

Two runs that start in related states, and what is the same in both.

* `Same P r r'` : the same exception, or values that `P` relates;
* `Coupled R P x y` : from states that `R` relates, `x` and `y` end the same way in states that `R` relates; one rule for
  each way to build a computation.
-/

namespace Eff

variable {σ τ ε α β α' β' : Type}

/-- The same exception, or related values. -/
inductive Same (P : α → β → Prop) : Except ε α → Except ε β → Prop
  | ok {a : α} {b : β} (h : P a b) : Same P (.ok a) (.ok b)
  | error (e : ε) : Same P (.error e) (.error e)

/-- From related states the two computations end the same way, in related states. -/
def Coupled (R : σ → τ → Prop) (P : α → β → Prop) (x : Eff σ ε α) (y : Eff τ ε β) : Prop :=
  ∀ s t, R s t → Same P (x s).1 (y t).1 ∧ R (x s).2 (y t).2

variable {R : σ → τ → Prop} {P P' : α → β → Prop} {Q : α' → β' → Prop}

/-! ## The same result -/

theorem Same.refl {P : α → α → Prop} (h : ∀ a, P a a) (r : Except ε α) : Same P r r := by
  cases r with
  | error e => exact .error e
  | ok a => exact .ok (h a)

theorem Same.mono {r : Except ε α} {r' : Except ε β} (h : Same P r r') (hP : ∀ a b, P a b → P' a b) : Same P' r r' := by
  cases h with
  | ok h => exact .ok (hP _ _ h)
  | error e => exact .error e

theorem Same.bind {r : Except ε α} {r' : Except ε β} {f : α → Except ε α'} {f' : β → Except ε β'} (h : Same P r r')
    (hf : ∀ a b, P a b → Same Q (f a) (f' b)) : Same Q (r >>= f) (r' >>= f') := by
  cases h with
  | ok h => exact hf _ _ h
  | error e => exact .error e

theorem same_eq {r r' : Except ε α} : Same Eq r r' ↔ r = r' := by
  constructor
  · intro h
    cases h with
    | ok h => rw [h]
    | error e => rfl
  · rintro rfl
    exact .refl (fun _ => rfl) r

/-! ## One rule for each way to build a computation -/

theorem coupled_pure {a : α} {b : β} (h : P a b) : Coupled R P (pure a : Eff σ ε α) (pure b) :=
  fun _ _ hR => ⟨.ok h, hR⟩

theorem coupled_throw (e : ε) : Coupled R P (throw e : Eff σ ε α) (throw e) := fun _ _ hR => ⟨.error e, hR⟩

theorem coupled_lift {x : Except ε α} {y : Except ε β} (h : Same P x y) : Coupled R P (lift x) (lift y) :=
  fun _ _ hR => ⟨h, hR⟩

theorem coupled_get : Coupled R R (get : Eff σ ε σ) get := fun _ _ hR => ⟨.ok hR, hR⟩

theorem coupled_modify {f : σ → σ} {g : τ → τ} (h : ∀ s t, R s t → R (f s) (g t)) :
    Coupled R Eq (modify f : Eff σ ε Unit) (modify g) := fun s t hR => ⟨.ok rfl, h s t hR⟩

theorem Coupled.mono {x : Eff σ ε α} {y : Eff τ ε β} (h : Coupled R P x y) (hP : ∀ a b, P a b → P' a b) :
    Coupled R P' x y := fun s t hR => ⟨(h s t hR).1.mono hP, (h s t hR).2⟩

theorem Coupled.bind {x : Eff σ ε α} {y : Eff τ ε β} {f : α → Eff σ ε α'} {g : β → Eff τ ε β'} (h : Coupled R P x y)
    (hf : ∀ a b, P a b → Coupled R Q (f a) (g b)) : Coupled R Q (x >>= f) (y >>= g) := by
  intro s t hR
  have hxy := h s t hR
  rw [bind_apply, bind_apply]
  revert hxy
  rcases x s with ⟨r, s'⟩
  rcases y t with ⟨r', t'⟩
  rintro ⟨hr, hR'⟩
  cases hr with
  | ok hP => exact hf _ _ hP s' t' hR'
  | error e => exact ⟨.error e, hR'⟩

/-- The same value on both sides. -/
theorem coupled_lift_bind {x : Except ε α} {f : α → Eff σ ε α'} {g : α → Eff τ ε β'} (h : ∀ a, Coupled R Q (f a) (g a)) :
    Coupled R Q (lift x >>= f) (lift x >>= g) := by
  have hx : Coupled R Eq (lift x : Eff σ ε α) (lift x : Eff τ ε α) := coupled_lift (.refl (fun _ => rfl) x)
  refine hx.bind fun a b hab => ?_
  rw [← hab]
  exact h a

theorem coupled_modify_bind {f : σ → σ} {f' : τ → τ} {k : Unit → Eff σ ε α'} {k' : Unit → Eff τ ε β'}
    (hf : ∀ s t, R s t → R (f s) (f' t)) (hk : Coupled R Q (k ()) (k' ())) :
    Coupled R Q (modify f >>= k) (modify f' >>= k') := (coupled_modify hf).bind fun _ _ _ => hk

theorem Coupled.map {x : Eff σ ε α} {y : Eff τ ε β} {f : α → α'} {g : β → β'} (h : Coupled R P x y)
    (hf : ∀ a b, P a b → Q (f a) (g b)) : Coupled R Q (f <$> x) (g <$> y) :=
  h.bind fun a b hP => coupled_pure (hf a b hP)

theorem Coupled.catching {c : ε → Bool} {x x' : Eff σ ε α} {y y' : Eff τ ε β} (h : Coupled R P x y)
    (h' : Coupled R P x' y') : Coupled R P (catching c x x') (catching c y y') := by
  intro s t hR
  have hxy := h s t hR
  rw [catching_apply, catching_apply]
  revert hxy
  rcases x s with ⟨r, s'⟩
  rcases y t with ⟨r', t'⟩
  rintro ⟨hr, hR'⟩
  cases hr with
  | ok hP => exact ⟨.ok hP, hR'⟩
  | error e =>
    dsimp only
    split_ifs
    · exact h' s' t' hR'
    · exact ⟨.error e, hR'⟩

end Eff
