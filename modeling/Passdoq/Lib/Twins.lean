import Passdoq.Lib.Program

/-!
# Two programs side by side

Two runs that differ only where nobody looks. A `View` says what is seen of a call and of its answer; what is seen of an answer
may depend on the calls before, which move a phase.

* `Program.Tied V P r p p'` : from the phase `r` on, `p` and `p'` make calls that look the same, as long as the answers do, and
  end in results that `P` relates; `Tied.bind` : how programs are tied;
* `Handler.Tied` : calls that look the same get answers that do; `Handler.Tied.run` : so tied programs come to related ends.
-/

structure View (Ω : Type) (A : Ω → Type) (ρ κ L : Type) where
  call : Ω → κ
  answer : ρ → (o : Ω) → A o → L
  next : ρ → κ → ρ

variable {Ω ρ κ L α β γ δ σ τ : Type} {A : Ω → Type} {V : View Ω A ρ κ L}

namespace Program

/-- The programs look the same from the phase on. -/
def Tied (V : View Ω A ρ κ L) (P : α → β → Prop) : ρ → Program Ω A α → Program Ω A β → Prop
  | _, .done a, .done b => P a b
  | r, .call o next, .call o' next' => V.call o = V.call o' ∧
      ∀ x x', V.answer r o x = V.answer r o' x' → Tied V P (V.next r (V.call o)) (next x) (next' x')
  | _, _, _ => False

variable {P : α → β → Prop} {Q : γ → δ → Prop} {r : ρ}

theorem Tied.bind {p : Program Ω A α} {p' : Program Ω A β} {f : α → Program Ω A γ} {f' : β → Program Ω A δ}
    (hp : Tied V P r p p') (hf : ∀ a b, P a b → ∀ r, Tied V Q r (f a) (f' b)) : Tied V Q r (p >>= f) (p' >>= f') := by
  induction p generalizing r p' with
  | done a =>
    cases p' with
    | done b => exact hf a b hp r
    | call => exact hp.elim
  | call o next ih =>
    cases p' with
    | done => exact hp.elim
    | call o' next' => exact ⟨hp.1, fun x x' hx => ih x (hp.2 x x' hx)⟩

theorem Tied.mono {P' : α → β → Prop} {p : Program Ω A α} {p' : Program Ω A β} (hp : Tied V P r p p')
    (hP : ∀ a b, P a b → P' a b) : Tied V P' r p p' := by
  induction p generalizing r p' with
  | done a =>
    cases p' with
    | done b => exact hP a b hp
    | call => exact hp.elim
  | call o next ih =>
    cases p' with
    | done => exact hp.elim
    | call o' next' => exact ⟨hp.1, fun x x' hx => ih x (hp.2 x x' hx)⟩

end Program

namespace Handler

/-- Calls that look the same in a phase get answers that do, and leave related states. -/
def Tied (V : View Ω A ρ κ L) (R : ρ → σ → τ → Prop) (h : Handler Ω A σ) (g : Handler Ω A τ) : Prop :=
  ∀ r s t o o' x s', R r s t → V.call o = V.call o' → h s o = some (x, s') →
    ∃ x' t', g t o' = some (x', t') ∧ V.answer r o x = V.answer r o' x' ∧ R (V.next r (V.call o)) s' t'

/-- What the one program comes to, the other comes to as well, as far as anybody sees. -/
theorem Tied.run {R : ρ → σ → τ → Prop} {P : α → β → Prop} {h : Handler Ω A σ} {g : Handler Ω A τ} (htied : Tied V R h g)
    {p : Program Ω A α} {p' : Program Ω A β} {r : ρ} (hp : Program.Tied V P r p p') {s s' : σ} {t : τ} {a : α}
    (hR : R r s t) (hrun : p.run h s = some (a, s')) :
    ∃ b t' r', p'.run g t = some (b, t') ∧ P a b ∧ R r' s' t' := by
  induction p generalizing r p' s t with
  | done c =>
    cases p' with
    | call => exact hp.elim
    | done b =>
      obtain ⟨rfl, rfl⟩ := Prod.mk.inj (Option.some.inj hrun)
      exact ⟨b, t, r, rfl, hp, hR⟩
  | call o next ih =>
    cases p' with
    | done => exact hp.elim
    | call o' next' =>
      obtain ⟨⟨x, s₁⟩, hx, hnext⟩ := Option.bind_eq_some_iff.mp hrun
      obtain ⟨x', t₁, hx', hsame, hR₁⟩ := htied r s t o o' x s₁ hR hp.1 hx
      obtain ⟨b, t', r', hb, hP, hR'⟩ := ih x (hp.2 x x' hsame) hR₁ hnext
      refine ⟨b, t', r', ?_, hP, hR'⟩
      change (g t o').bind (fun r => (next' r.1).run g r.2) = _
      rw [hx', Option.bind_some]
      exact hb

end Handler
