import Mathlib

/-!
# Machines and simulation

A `Machine` answers calls of `κ` with answers of `α`; what a call may answer and leave need not be determined.

* `Machine.Runs` : a history of calls with their answers, from one state to another;
* `Machine.Simulates` : each step of a kind of one machine is one of the other; `Simulates.runs` : so is each history;
* `Runs.keeps` : what each step of a kind keeps, a history of such steps keeps.
-/

structure Machine (κ α : Type) where
  State : Type
  Step : State → κ → α → State → Prop

namespace Machine

variable {κ α : Type}

/-- A history of calls with their answers. -/
inductive Runs (M : Machine κ α) : M.State → List (κ × α) → M.State → Prop
  | nil (s : M.State) : Runs M s [] s
  | cons {s s' s'' : M.State} {k : κ} {a : α} {history : List (κ × α)} (h : M.Step s k a s')
      (hrest : Runs M s' history s'') : Runs M s ((k, a) :: history) s''

/-- What `M` does on a call of the kind `C`, `N` may do from a state that `R` relates. -/
def Simulates (C : κ → Prop) (M N : Machine κ α) (R : M.State → N.State → Prop) : Prop :=
  ∀ s t k a s', C k → R s t → M.Step s k a s' → ∃ t', N.Step t k a t' ∧ R s' t'

variable {M N : Machine κ α} {s s' s'' : M.State} {t : N.State} {history more : List (κ × α)}

theorem runs_append : M.Runs s (history ++ more) s'' ↔ ∃ s', M.Runs s history s' ∧ M.Runs s' more s'' := by
  constructor
  · intro h
    induction history generalizing s with
    | nil => exact ⟨s, .nil s, h⟩
    | cons p history ih =>
      cases h with
      | cons hstep hrest =>
        obtain ⟨s', hfirst, hmore⟩ := ih hrest
        exact ⟨s', .cons hstep hfirst, hmore⟩
  · rintro ⟨s', hfirst, hmore⟩
    induction hfirst with
    | nil => exact hmore
    | cons hstep _ ih => exact .cons hstep (ih hmore)

theorem runs_cons {p : κ × α} : M.Runs s (p :: history) s'' ↔ ∃ s', M.Step s p.1 p.2 s' ∧ M.Runs s' history s'' := by
  constructor
  · intro h
    cases h with
    | cons hstep hrest => exact ⟨_, hstep, hrest⟩
  · rintro ⟨s', hstep, hrest⟩
    exact .cons hstep hrest

/-- A history of calls of the kind is one of a machine that simulates it, and ends in related states. -/
theorem Simulates.runs {C : κ → Prop} {R : M.State → N.State → Prop} (h : Simulates C M N R)
    (hall : ∀ p ∈ history, C p.1) (hR : R s t) (hrun : M.Runs s history s') : ∃ t', N.Runs t history t' ∧ R s' t' := by
  induction hrun generalizing t with
  | nil s => exact ⟨t, .nil t, hR⟩
  | cons hstep _ ih =>
    obtain ⟨hfirst, hall⟩ := List.forall_mem_cons.mp hall
    obtain ⟨t', hstep', hR'⟩ := h _ _ _ _ _ hfirst hR hstep
    obtain ⟨t'', hrest, hR''⟩ := ih hall hR'
    exact ⟨t'', .cons hstep' hrest, hR''⟩

/-- What every step keeps that the calls of a history may take. -/
theorem Runs.keeps {I : M.State → Prop} {C : κ × α → Prop} (hstep : ∀ s p s', C p → I s → M.Step s p.1 p.2 s' → I s')
    (hall : ∀ p ∈ history, C p) (hI : I s) (hrun : M.Runs s history s') : I s' := by
  induction hrun with
  | nil => exact hI
  | cons h _ ih =>
    obtain ⟨hfirst, hall⟩ := List.forall_mem_cons.mp hall
    exact ih hall (hstep _ _ _ hfirst hI h)

end Machine
