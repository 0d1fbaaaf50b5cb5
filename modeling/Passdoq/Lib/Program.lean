import Mathlib

/-!
# Programs over an interface

An interface is a type `Ω` of calls with the type `A o` of what each call answers. A `Program` makes calls and goes on with
the answers; a `Handler` carries the calls out on a state, and stops where it is `none`.

* `Program.run` : a program under a handler;
* `Handler.Simulates` : what one handler answers the other answers too, on related states; `Handler.Simulates.run` : so no
  program tells the two apart;
* `Handler.within`, `Handler.Leaves.run_within` : a handler that stops where a condition is left does not stop a run at whose end the
  condition still holds;
* `Program.Only` : every call that a program can make is of a kind; `Handler.Total`, `Program.run_total` : where a handler
  answers all calls of the kind, the program comes to its end.
-/

/-- A computation that returns an `α` after calls of the interface. -/
inductive Program (Ω : Type) (A : Ω → Type) (α : Type)
  | done (a : α)
  | call (o : Ω) (next : A o → Program Ω A α)

/-- What carries out calls on a state. -/
abbrev Handler (Ω : Type) (A : Ω → Type) (σ : Type) := σ → (o : Ω) → Option (A o × σ)

variable {Ω : Type} {A : Ω → Type} {α β σ τ : Type}

namespace Program

def bind : Program Ω A α → (α → Program Ω A β) → Program Ω A β
  | .done a, f => f a
  | .call o next, f => .call o fun x => (next x).bind f

instance : Monad (Program Ω A) where
  pure := .done
  bind := bind

/-- One call, and its answer. -/
def perform (o : Ω) : Program Ω A (A o) := .call o .done

def run (h : Handler Ω A σ) : Program Ω A α → σ → Option (α × σ)
  | .done a, s => some (a, s)
  | .call o next, s => (h s o).bind fun r => (next r.1).run h r.2

variable {h : Handler Ω A σ}

@[simp] theorem run_pure (a : α) (s : σ) : (pure a : Program Ω A α).run h s = some (a, s) := rfl

@[simp] theorem run_perform (o : Ω) (s : σ) : (perform o : Program Ω A (A o)).run h s = h s o := by
  change (h s o).bind (fun r => some (r.1, r.2)) = h s o
  exact Option.bind_fun_some (h s o)

theorem run_bind (p : Program Ω A α) (f : α → Program Ω A β) (s : σ) :
    (p >>= f).run h s = (p.run h s).bind fun r => (f r.1).run h r.2 := by
  induction p generalizing s with
  | done a => rfl
  | call o next ih =>
    change (h s o).bind (fun r => ((next r.1) >>= f).run h r.2) = ((h s o).bind _).bind _
    rw [Option.bind_assoc]
    congr 1
    funext r
    exact ih r.1 r.2

/-! ## The calls that a program can make -/

/-- Every call of the program is a `C`, whatever is answered. -/
def Only (C : Ω → Prop) : Program Ω A α → Prop
  | .done _ => True
  | .call o next => C o ∧ ∀ x, (next x).Only C

variable {C : Ω → Prop}

theorem only_perform {o : Ω} (ho : C o) : (perform o : Program Ω A (A o)).Only C := ⟨ho, fun _ => trivial⟩

theorem Only.bind {p : Program Ω A α} {f : α → Program Ω A β} (hp : p.Only C) (hf : ∀ a, (f a).Only C) :
    (p >>= f).Only C := by
  induction p with
  | done a => exact hf a
  | call o next ih => exact ⟨hp.1, fun x => ih x (hp.2 x)⟩

end Program

namespace Handler

variable {h : Handler Ω A σ} {g : Handler Ω A τ} {R : σ → τ → Prop} {C : Ω → Prop} {I : σ → Prop}

/-- What `g` answers, `h` answers as well, and related states stay related. -/
def Simulates (R : σ → τ → Prop) (h : Handler Ω A σ) (g : Handler Ω A τ) : Prop :=
  ∀ s t o a t', R s t → g t o = some (a, t') → ∃ s', h s o = some (a, s') ∧ R s' t'

/-- No program can tell the handlers apart: it returns the same under both. -/
theorem Simulates.run (hsim : Simulates R h g) (p : Program Ω A α) {s : σ} {t t' : τ} {a : α} (hR : R s t)
    (hp : p.run g t = some (a, t')) : ∃ s', p.run h s = some (a, s') ∧ R s' t' := by
  induction p generalizing s t with
  | done b =>
    obtain ⟨rfl, rfl⟩ := Prod.mk.inj (Option.some.inj hp)
    exact ⟨s, rfl, hR⟩
  | call o next ih =>
    obtain ⟨⟨x, t₁⟩, hx, hnext⟩ := Option.bind_eq_some_iff.mp hp
    obtain ⟨s₁, hs₁, hR₁⟩ := hsim s t o x t₁ hR hx
    obtain ⟨s', hs', hR'⟩ := ih x hR₁ hnext
    refine ⟨s', ?_, hR'⟩
    change (h s o).bind (fun r => (next r.1).run h r.2) = _
    rw [hs₁, Option.bind_some]
    exact hs'

/-- The handler stops where `ok` does not hold any more. -/
def within (ok : σ → Bool) (h : Handler Ω A σ) : Handler Ω A σ := fun s o => (h s o).filter fun r => ok r.2

theorem within_eq_some {ok : σ → Bool} {s s' : σ} {o : Ω} {x : A o} :
    h.within ok s o = some (x, s') ↔ h s o = some (x, s') ∧ ok s' = true := Option.filter_eq_some_iff

/-- Where `ok` is left it does not come back. -/
def Leaves (ok : σ → Bool) (h : Handler Ω A σ) : Prop := ∀ s o x s', h s o = some (x, s') → ok s' = true → ok s = true

variable {ok : σ → Bool}

theorem Leaves.run (hok : h.Leaves ok) {p : Program Ω A α} {s s' : σ} {a : α} (hrun : p.run h s = some (a, s'))
    (hs' : ok s' = true) : ok s = true := by
  induction p generalizing s with
  | done b =>
    obtain ⟨rfl, rfl⟩ := Prod.mk.inj (Option.some.inj hrun)
    exact hs'
  | call o next ih =>
    obtain ⟨⟨x, s₁⟩, hx, hnext⟩ := Option.bind_eq_some_iff.mp hrun
    exact hok s o x s₁ hx (ih x hnext)

/-- A run at whose end `ok` holds has never left it. -/
theorem Leaves.run_within (hok : h.Leaves ok) {p : Program Ω A α} {s s' : σ} {a : α} (hrun : p.run h s = some (a, s'))
    (hs' : ok s' = true) : p.run (h.within ok) s = some (a, s') := by
  induction p generalizing s with
  | done b => exact hrun
  | call o next ih =>
    obtain ⟨⟨x, s₁⟩, hx, hnext⟩ := Option.bind_eq_some_iff.mp hrun
    have hx' : h.within ok s o = some (x, s₁) := within_eq_some.mpr ⟨hx, hok.run hnext hs'⟩
    change (h.within ok s o).bind (fun r => (next r.1).run (h.within ok) r.2) = _
    rw [hx', Option.bind_some]
    exact ih x hnext

/-- Under the invariant every call of the kind is answered, and the invariant stays. -/
def Total (I : σ → Prop) (C : Ω → Prop) (h : Handler Ω A σ) : Prop :=
  ∀ s o, I s → C o → ∃ a s', h s o = some (a, s') ∧ I s'

end Handler

theorem Program.run_total {h : Handler Ω A σ} {I : σ → Prop} {C : Ω → Prop} (hh : h.Total I C) {p : Program Ω A α}
    (hp : p.Only C) {s : σ} (hs : I s) : ∃ a s', p.run h s = some (a, s') ∧ I s' := by
  induction p generalizing s with
  | done a => exact ⟨a, s, rfl, hs⟩
  | call o next ih =>
    obtain ⟨x, s₁, hx, hs₁⟩ := hh s o hs hp.1
    obtain ⟨a, s', ha, hs'⟩ := ih x (hp.2 x) hs₁
    refine ⟨a, s', ?_, hs'⟩
    change (h s o).bind (fun r => (next r.1).run h r.2) = _
    rw [hx, Option.bind_some]
    exact ha
