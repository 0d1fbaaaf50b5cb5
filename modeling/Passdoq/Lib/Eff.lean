import Mathlib

/-!
# Effects that survive a failure

`Eff σ ε α` is a computation on a state `σ` that returns an `α` or fails with an `ε`. What it assigned
before it failed stays assigned, as with exceptions in an imperative language.

`throw`, `get`, `modify`, `lift` and `catching`, each with the equation that runs it; `bind_eq_ok` takes a
sequence that returned apart; `Keeps` : a computation that leaves a part of the state alone, however it ends.
-/

/-- A computation on a state `σ` that returns an `α` or fails with an `ε`. -/
def Eff (σ ε α : Type) := σ → Except ε α × σ

namespace Eff

variable {σ ε α β : Type}

instance : Monad (Eff σ ε) where
  pure a := fun s => (.ok a, s)
  bind x f := fun s =>
    match x s with
    | (.ok a, s') => f a s'
    | (.error e, s') => (.error e, s')

def throw (e : ε) : Eff σ ε α := fun s => (.error e, s)

def get : Eff σ ε σ := fun s => (.ok s, s)

def modify (f : σ → σ) : Eff σ ε Unit := fun s => (.ok (), f s)

def lift (x : Except ε α) : Eff σ ε α := fun s => (x, s)

/-- Run `x`, and `y` after it when it failed with an error of the class `c`. -/
def catching (c : ε → Bool) (x y : Eff σ ε α) : Eff σ ε α := fun s =>
  match x s with
  | (.ok a, s') => (.ok a, s')
  | (.error e, s') => if c e then y s' else (.error e, s')

@[simp] theorem pure_apply (a : α) (s : σ) : (pure a : Eff σ ε α) s = (.ok a, s) := rfl

@[simp] theorem bind_apply (x : Eff σ ε α) (f : α → Eff σ ε β) (s : σ) :
    (x >>= f) s = match x s with
      | (.ok a, s') => f a s'
      | (.error e, s') => (.error e, s') := rfl

@[simp] theorem map_apply (f : α → β) (x : Eff σ ε α) (s : σ) :
    (f <$> x) s = match x s with
      | (.ok a, s') => (.ok (f a), s')
      | (.error e, s') => (.error e, s') := by
  change (x >>= fun a => pure (f a)) s = _
  rw [bind_apply]
  rcases x s with ⟨_ | _, _⟩ <;> rfl

@[simp] theorem throw_apply (e : ε) (s : σ) : (throw e : Eff σ ε α) s = (.error e, s) := rfl

@[simp] theorem get_apply (s : σ) : (get : Eff σ ε σ) s = (.ok s, s) := rfl

@[simp] theorem modify_apply (f : σ → σ) (s : σ) : (modify f : Eff σ ε Unit) s = (.ok (), f s) := rfl

@[simp] theorem lift_apply (x : Except ε α) (s : σ) : (lift x : Eff σ ε α) s = (x, s) := rfl

theorem lift_ok_bind (a : α) (f : α → Eff σ ε β) : (lift (.ok a) >>= f) = f a := rfl

theorem lift_error_bind (e : ε) (f : α → Eff σ ε β) : (lift (.error e) >>= f) = throw e := rfl

theorem catching_apply (c : ε → Bool) (x y : Eff σ ε α) (s : σ) :
    catching c x y s = match x s with
      | (.ok a, s') => (.ok a, s')
      | (.error e, s') => if c e then y s' else (.error e, s') := rfl

theorem map_apply_snd (f : α → β) (x : Eff σ ε α) (s : σ) : ((f <$> x) s).2 = (x s).2 := by
  rw [map_apply]
  rcases x s with ⟨_ | _, _⟩ <;> rfl

theorem map_apply_error (f : α → β) (x : Eff σ ε α) (s : σ) (e : ε) : ((f <$> x) s).1 = .error e ↔ (x s).1 = .error e := by
  rw [map_apply]
  rcases x s with ⟨_ | _, _⟩ <;> simp

/-- What a sequence returns, its second part returned in the state that its first part left. -/
theorem bind_eq_ok {x : Eff σ ε α} {f : α → Eff σ ε β} {s s' : σ} {b : β} :
    (x >>= f) s = (.ok b, s') ↔ ∃ a t, x s = (.ok a, t) ∧ f a t = (.ok b, s') := by
  rw [bind_apply]
  rcases x s with ⟨e | a, t⟩ <;> simp

theorem bind_bind {γ : Type} (x : Eff σ ε α) (f : α → Eff σ ε β) (g : β → Eff σ ε γ) :
    ((x >>= f) >>= g) = x >>= fun a => f a >>= g := by
  funext s
  rw [bind_apply, bind_apply, bind_apply]
  rcases x s with ⟨e | a, t⟩ <;> rfl

theorem map_eq_ok {f : α → β} {x : Eff σ ε α} {s s' : σ} {b : β} :
    (f <$> x) s = (.ok b, s') ↔ ∃ a, x s = (.ok a, s') ∧ f a = b := by
  rw [map_apply]
  rcases x s with ⟨e | a, t⟩ <;> simp [and_comm]

theorem catching_of_ok {c : ε → Bool} {x y : Eff σ ε α} {s s' : σ} {a : α} (h : x s = (.ok a, s')) :
    catching c x y s = (.ok a, s') := by
  rw [catching_apply, h]

/-- A result other than the one for a failure is the result of `x`. -/
theorem catching_eq_ok {c : ε → Bool} {x : Eff σ ε α} {s s' : σ} {a b : α} (hne : b ≠ a) :
    catching c x (pure a) s = (.ok b, s') ↔ x s = (.ok b, s') := by
  rw [catching_apply]
  rcases x s with ⟨e | r, t⟩
  · cases hc : c e <;> simp [hc, Ne.symm hne]
  · rfl

/-! ## Parts of the state that are left alone -/

/-- What `f` says of the state is the same after `x`. -/
def Keeps {τ : Type} (f : σ → τ) (x : Eff σ ε α) : Prop := ∀ s, f (x s).2 = f s

section Keeps

variable {τ : Type} {f : σ → τ}

theorem keeps_pure (a : α) : Keeps f (pure a : Eff σ ε α) := fun _ => rfl

theorem keeps_lift (x : Except ε α) : Keeps f (lift x : Eff σ ε α) := fun _ => rfl

theorem Keeps.bind {x : Eff σ ε α} {g : α → Eff σ ε β} (hx : Keeps f x) (hg : ∀ a, Keeps f (g a)) : Keeps f (x >>= g) := by
  intro s
  have hs := hx s
  rw [bind_apply]
  revert hs
  rcases x s with ⟨e | a, t⟩ <;> intro hs
  · exact hs
  · exact (hg a t).trans hs

theorem Keeps.catching {c : ε → Bool} {x y : Eff σ ε α} (hx : Keeps f x) (hy : Keeps f y) : Keeps f (catching c x y) := by
  intro s
  have hs := hx s
  rw [catching_apply]
  revert hs
  rcases x s with ⟨e | a, t⟩ <;> intro hs
  · dsimp only
    split_ifs
    · exact (hy t).trans hs
    · exact hs
  · exact hs

end Keeps

end Eff
