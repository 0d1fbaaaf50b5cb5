import Mathlib

/-!
# Runs of a step function

A step function takes a state and an event to the next state, or to none when the machine stops there.

* `runs step s evs` : the state after the events;
* `Along step C s evs` : every step of that run is taken where `C` allows it;
* `runs_invariant` : what each allowed step preserves, an allowed run preserves; `runs_preserves` : where every step is;
* `Along.of_states`, `Along.of_chain` : a run is allowed whose states show it; `Along.of_good` : where each step shows it.
-/

variable {σ ε τ : Type} {step : σ → ε → Option σ} {C : σ → ε → Prop} {I : σ → Prop} {s s' s'' : σ} {evs evs' : List ε}

/-- The state after the events, from the first to the last. -/
def runs (step : σ → ε → Option σ) (s : σ) : List ε → Option σ
  | [] => some s
  | ev :: evs => (step s ev).bind fun s' => runs step s' evs

/-- Every event meets `C` in the state it finds. -/
def Along (step : σ → ε → Option σ) (C : σ → ε → Prop) (s : σ) : List ε → Prop
  | [] => True
  | ev :: evs => C s ev ∧ ∀ s', step s ev = some s' → Along step C s' evs

@[simp] theorem runs_nil : runs step s [] = some s := rfl

theorem runs_cons {ev : ε} : runs step s (ev :: evs) = some s'' ↔ ∃ s', step s ev = some s' ∧ runs step s' evs = some s'' :=
  Option.bind_eq_some_iff

theorem runs_one (ev : ε) (h : step s ev = some s') : runs step s [ev] = some s' := runs_cons.mpr ⟨s', h, rfl⟩

theorem runs_two {ev ev' : ε} (h : step s ev = some s') (h' : step s' ev' = some s'') :
    runs step s [ev, ev'] = some s'' := runs_cons.mpr ⟨s', h, runs_one ev' h'⟩

theorem runs_append : runs step s (evs ++ evs') = some s'' ↔ ∃ s', runs step s evs = some s' ∧ runs step s' evs' = some s'' := by
  induction evs generalizing s with
  | nil => simp
  | cons ev evs ih =>
    simp only [List.cons_append, runs_cons, ih]
    constructor
    · rintro ⟨t, ht, s', hs', h⟩
      exact ⟨s', ⟨t, ht, hs'⟩, h⟩
    · rintro ⟨s', ⟨t, ht, hs'⟩, h⟩
      exact ⟨t, ht, s', hs', h⟩

theorem runs_snoc {ev : ε} : runs step s (evs ++ [ev]) = some s'' ↔ ∃ s', runs step s evs = some s' ∧ step s' ev = some s'' := by
  simp [runs_append, runs_cons]

theorem Along.append (h : Along step C s (evs ++ evs')) (hr : runs step s evs = some s') :
    Along step C s evs ∧ Along step C s' evs' := by
  induction evs generalizing s with
  | nil =>
    cases hr
    exact ⟨trivial, h⟩
  | cons ev evs ih =>
    obtain ⟨t, ht, hr⟩ := runs_cons.mp hr
    refine ⟨⟨h.1, fun t' ht' => ?_⟩, (ih (h.2 t ht) hr).2⟩
    rw [ht, Option.some.injEq] at ht'
    exact ht' ▸ (ih (h.2 t ht) hr).1

instance Along.decidable [∀ s ev, Decidable (C s ev)] : (s : σ) → (evs : List ε) → Decidable (Along step C s evs)
  | _, [] => isTrue trivial
  | s, ev :: evs =>
    have hrest : Decidable (∀ s', step s ev = some s' → Along step C s' evs) := match step s ev with
      | none => isTrue fun s' hs' => by cases hs'
      | some t =>
        have := Along.decidable t evs
        decidable_of_iff (Along step C t evs) ⟨fun h s' hs' => Option.some.inj hs' ▸ h, fun h => h t rfl⟩
    inferInstanceAs (Decidable (C s ev ∧ _))

/-- A condition that always holds is met along every run. -/
theorem Along.of_forall (h : ∀ s ev, C s ev) : Along step C s evs := by
  induction evs generalizing s with
  | nil => trivial
  | cons ev evs ih => exact ⟨h s ev, fun _ _ => ih⟩

theorem Along.and {D : σ → ε → Prop} (hC : Along step C s evs) (hD : Along step D s evs) :
    Along step (fun s ev => C s ev ∧ D s ev) s evs := by
  induction evs generalizing s with
  | nil => trivial
  | cons ev evs ih => exact ⟨⟨hC.1, hD.1⟩, fun s' hs' => ih (hC.2 s' hs') (hD.2 s' hs')⟩

theorem Along.imp {D : σ → ε → Prop} (h : ∀ s ev, C s ev → D s ev) (hC : Along step C s evs) : Along step D s evs := by
  induction evs generalizing s with
  | nil => trivial
  | cons ev evs ih => exact ⟨h s ev hC.1, fun s' hs' => ih (hC.2 s' hs')⟩

theorem runs_invariant (hstep : ∀ s ev s', I s → C s ev → step s ev = some s' → I s') (hI : I s)
    (hC : Along step C s evs) (hr : runs step s evs = some s') : I s' := by
  induction evs generalizing s with
  | nil =>
    cases hr
    exact hI
  | cons ev evs ih =>
    obtain ⟨t, ht, hr⟩ := runs_cons.mp hr
    exact ih (hstep s ev t hI hC.1 ht) (hC.2 t ht) hr

theorem runs_preserves (hstep : ∀ s ev s', I s → step s ev = some s' → I s') (hI : I s) (hr : runs step s evs = some s') :
    I s' :=
  runs_invariant (C := fun _ _ => True) (fun s ev s' hI _ hs => hstep s ev s' hI hs) hI (Along.of_forall fun _ _ => trivial) hr

/-- Where every state of a run is good, and only a step that `C` allows leads to a good state, the run is allowed. -/
theorem Along.of_states {Q : σ → Prop} (hstep : ∀ s ev s', I s → step s ev = some s' → I s' ∧ (Q s' → C s ev)) (hI : I s)
    (hr : runs step s evs = some s')
    (hall : ∀ evs₁ evs₂ s₁, evs = evs₁ ++ evs₂ → runs step s evs₁ = some s₁ → Q s₁) : Along step C s evs := by
  induction evs generalizing s with
  | nil => trivial
  | cons ev evs ih =>
    obtain ⟨t, ht, hr⟩ := runs_cons.mp hr
    obtain ⟨hnext, hallowed⟩ := hstep s ev t hI ht
    refine ⟨hallowed (hall [ev] evs t rfl (runs_one ev ht)), fun t' ht' => ?_⟩
    obtain rfl : t = t' := Option.some.inj (ht.symm.trans ht')
    refine ih hnext hr fun evs₁ evs₂ s₁ hsplit hr₁ => ?_
    exact hall (ev :: evs₁) evs₂ s₁ (by rw [hsplit]; rfl) (runs_cons.mpr ⟨t, ht, hr₁⟩)

theorem Along.of_good {Q : σ → Prop} (hstep : ∀ s ev s', step s ev = some s' → Q s' → C s ev)
    (hr : runs step s evs = some s')
    (hall : ∀ evs₁ evs₂ s₁, evs = evs₁ ++ evs₂ → runs step s evs₁ = some s₁ → Q s₁) : Along step C s evs :=
  Along.of_states (I := fun _ => True) (fun s ev s' _ hs => ⟨trivial, hstep s ev s' hs⟩) trivial hr hall

/-- Where a step from a good state to a good state is one that `C` allows, a run through good states is allowed. -/
theorem Along.of_chain {Q : σ → Prop} (hstep : ∀ s ev s', Q s → step s ev = some s' → Q s' → C s ev)
    (hr : runs step s evs = some s')
    (hall : ∀ evs₁ evs₂ s₁, evs = evs₁ ++ evs₂ → runs step s evs₁ = some s₁ → Q s₁) : Along step C s evs := by
  induction evs generalizing s with
  | nil => trivial
  | cons ev evs ih =>
    obtain ⟨t, ht, hr⟩ := runs_cons.mp hr
    refine ⟨hstep s ev t (hall [] _ s rfl rfl) ht (hall [ev] evs t rfl (runs_one ev ht)), fun t' ht' => ?_⟩
    obtain rfl : t = t' := Option.some.inj (ht.symm.trans ht')
    refine ih hr fun evs₁ evs₂ s₁ hsplit hr₁ => ?_
    exact hall (ev :: evs₁) evs₂ s₁ (by rw [hsplit]; rfl) (runs_cons.mpr ⟨t, ht, hr₁⟩)

/-- A run of one machine is, seen through `f`, a run of another. -/
theorem runs_project {step' : τ → ε → Option τ} {f : σ → τ}
    (hstep : ∀ s ev s', step s ev = some s' → step' (f s) ev = some (f s')) (hr : runs step s evs = some s') :
    runs step' (f s) evs = some (f s') := by
  induction evs generalizing s with
  | nil =>
    cases hr
    rfl
  | cons ev evs ih =>
    obtain ⟨t, ht, hr⟩ := runs_cons.mp hr
    exact runs_cons.mpr ⟨f t, hstep s ev t ht, ih hr⟩
