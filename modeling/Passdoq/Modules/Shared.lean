import Passdoq.Modules.Balance

/-!
# Several managers

The managers of a process share libltdl and the flag `ltdl_initialized_`.

* `World`, `World.step` : managers constructed, called and destroyed in any order;
* `Undisturbed` : what a manager that is alive may rely on;
* `managers_undisturbed` : they all can, in every state of a run, exactly when no manager is destroyed under another.
-/

namespace Passdoq.Modules

/-- The managers that are alive. `ready` : libltdl was initialized at some moment of the manager's life. -/
structure World where
  process : Process
  managers : OrdMap Nat ModuleManager
  ready : Nat → Bool

inductive Event
  | construct (i errors : Nat)
  | destroy (i : Nat)
  | load (i : Nat) (path : Bytes) (io : Loading)
  | unload (i : Nat) (name : Bytes)
  | unloadAll (i : Nat)

namespace World

def start : World := ⟨.start, ∅, fun _ => false⟩

def next (w : World) (managers : OrdMap Nat ModuleManager) (process : Process) : World where
  process := process
  managers := managers
  ready j := (managers.find? j).isSome && (w.ready j || process.ltdlInitialized)

/-- One event; none where the manager is not there, is there already, or touches a library that is not in memory. -/
def step (w : World) : Event → Option World
  | .construct i errors => match w.managers.find? i with
    | some _ => none
    | none => some (w.next (w.managers.insert i ∅) (initLtdl errors w.process).2)
  | .destroy i => (w.managers.find? i).bind fun m =>
    (Modules.unloadAll m w.process).map fun x => w.next (w.managers.erase i) (cleanupLtdl x.2)
  | .load i path io => (w.managers.find? i).bind fun m =>
    (loadModule path io m w.process).map fun x => w.next (w.managers.insert i x.2.1) x.2.2
  | .unload i name => (w.managers.find? i).bind fun m =>
    (unloadModule name m w.process).map fun x => w.next (w.managers.insert i x.2.1) x.2.2
  | .unloadAll i => (w.managers.find? i).bind fun m =>
    (Modules.unloadAll m w.process).map fun x => w.next (w.managers.insert i x.1) x.2

/-- For every manager libltdl stays initialized, and the libraries of its modules are open. -/
def Undisturbed (w : World) : Prop := ∀ i m, w.managers.find? i = some m →
  (w.ready i = true → w.process.ltdlInitialized = true ∧ 0 < w.process.ltdl.initialized) ∧
  ∀ name h, m.find? name = some h → w.process.ltdl.isOpen h.handle = true

/-- A manager that is destroyed while libltdl is initialized is the only one. -/
def Sole (w : World) : Event → Prop
  | .destroy i => w.process.ltdlInitialized = true → ∀ x ∈ w.managers.toList, x.1 = i
  | _ => True

instance decidableSole (w : World) : (ev : Event) → Decidable (w.Sole ev)
  | .destroy i => inferInstanceAs (Decidable (_ → ∀ x ∈ w.managers.toList, x.1 = i))
  | .construct _ _ | .load _ _ _ | .unload _ _ | .unloadAll _ => isTrue trivial

/-- The handles of all managers. -/
def handles (managers : OrdMap Nat ModuleManager) : List ModuleHandle := managers.values.flatMap OrdMap.values

structure Inv (w : World) : Prop where
  sound : Sound w.process (handles w.managers)
  counted : w.process.ltdlInitialized = true → 0 < w.process.ltdl.initialized
  ready : ∀ i, w.ready i = true → w.process.ltdlInitialized = true
  bare : w.process.ltdlInitialized = false → handles w.managers = []

variable {w w' : World} {ev : Event} {i : Nat} {m m' : ModuleManager} {managers : OrdMap Nat ModuleManager} {p p' : Process}

theorem handles_find (h : managers.find? i = some m) : (handles managers).Perm (m.values ++ handles (managers.erase i)) :=
  (OrdMap.values_erase_perm h).flatMap_right OrdMap.values

theorem handles_insert (managers : OrdMap Nat ModuleManager) (i : Nat) (m : ModuleManager) :
    (handles (managers.insert i m)).Perm (m.values ++ handles (managers.erase i)) :=
  (OrdMap.values_insert_perm managers i m).flatMap_right OrdMap.values

theorem inv_start : Inv start := ⟨sound_start, nofun, nofun, fun _ => rfl⟩

theorem undisturbed_of_inv (h : Inv w) : Undisturbed w := by
  intro i m hm
  refine ⟨fun hready => ⟨h.ready i hready, h.counted (h.ready i hready)⟩, fun name g hg => h.sound.tracks.isOpen ?_⟩
  refine List.mem_map.mpr ⟨g, (handles_find hm).mem_iff.mpr ?_, rfl⟩
  exact List.mem_append_left _ (OrdMap.mem_values.mpr ⟨name, hg⟩)

theorem ready_next (h : Inv w) (hflag : w.process.ltdlInitialized = true → p.ltdlInitialized = true) :
    ∀ i, (w.next managers p).ready i = true → p.ltdlInitialized = true := by
  intro i hready
  unfold next at hready
  simp only [Bool.and_eq_true, Bool.or_eq_true] at hready
  exact hready.2.elim (fun hw => hflag (h.ready i hw)) id

/-- A call on one manager keeps the invariant when it keeps the handles sound and the initialization. -/
theorem inv_call (h : Inv w) (hm : w.managers.find? i = some m)
    (hsound : Sound p (m'.values ++ handles (w.managers.erase i))) (hinit : SameInit w.process p)
    (hbare : w.process.ltdlInitialized = false → m.values = [] → m'.values = []) : Inv (w.next (w.managers.insert i m') p) where
  sound := hsound.perm (handles_insert w.managers i m').symm
  counted hflag := by
    change 0 < p.ltdl.initialized
    rw [hinit.2]
    exact h.counted (hinit.1.symm.trans hflag)
  ready := ready_next h fun hflag => hinit.1.trans hflag
  bare hflag := by
    have hflag : w.process.ltdlInitialized = false := hinit.1.symm.trans hflag
    have hempty := (handles_find hm).symm
    rw [h.bare hflag, List.perm_nil, List.append_eq_nil_iff] at hempty
    have hinsert := handles_insert w.managers i m'
    rw [hbare hflag hempty.1, hempty.2] at hinsert
    exact hinsert.eq_nil

/-- Without managers only the handles that are resident are left. -/
theorem inv_destroy (h : Inv w) (hm : w.managers.find? i = some m) (hsole : w.Sole (.destroy i))
    (hsound : Sound p (handles (w.managers.erase i))) (hinit : SameInit w.process p) :
    Inv (w.next (w.managers.erase i) (cleanupLtdl p)) := by
  by_cases hflag : p.ltdlInitialized = true
  · have hnone : w.managers.erase i = ∅ := by
      have halone := hsole (hinit.1.symm.trans hflag)
      refine OrdMap.ext (List.filter_eq_nil_iff.mpr fun x hx => ?_)
      simp [halone x hx]
    have hnil : handles (w.managers.erase i) = [] := by
      rw [hnone]
      rfl
    rw [hnil] at hsound
    unfold cleanupLtdl
    rw [if_pos hflag]
    refine ⟨?_, nofun, fun j hready => ?_, fun _ => hnil⟩
    · change Sound _ (handles (w.managers.erase i))
      rw [hnil]
      exact ⟨hsound.ledger, hsound.tracks.lt_dlexit⟩
    · -- no manager is left
      unfold next at hready
      rw [hnone] at hready
      cases hready
  · unfold cleanupLtdl
    rw [if_neg hflag]
    have hoff : w.process.ltdlInitialized = false := by rw [← hinit.1]; exact Bool.eq_false_iff.mpr hflag
    refine ⟨hsound, fun hon => absurd hon hflag, ready_next h fun hon => absurd hon (by simp [hoff]), fun _ => ?_⟩
    have hempty := (handles_find hm).symm
    rw [h.bare hoff, List.perm_nil, List.append_eq_nil_iff] at hempty
    exact hempty.2

theorem inv_construct (h : Inv w) (errors : Nat) (hnone : w.managers.find? i = none) :
    Inv (w.next (w.managers.insert i ∅) (initLtdl errors w.process).2) := by
  have hsame : (handles (w.managers.insert i ∅)).Perm (handles w.managers) := by
    have hinsert := handles_insert w.managers i ∅
    rwa [OrdMap.erase_of_find?_none hnone] at hinsert
  unfold initLtdl
  by_cases hflag : w.process.ltdlInitialized = true
  · rw [if_neg (not_not.mpr hflag)]
    exact ⟨h.sound.perm hsame.symm, h.counted, ready_next h id, fun hoff => by
      rw [h.bare hoff] at hsame
      exact hsame.eq_nil⟩
  · have hbare := h.bare (Bool.eq_false_iff.mpr hflag)
    have hnil : handles (w.managers.insert i ∅) = [] := by
      rw [hbare] at hsame
      exact hsame.eq_nil
    have hsound := h.sound
    rw [hbare] at hsound
    have htracks := hsound.tracks.lt_dlinit errors
    have hcount : 0 < (w.process.ltdl.lt_dlinit errors).2.initialized := by
      unfold Ltdl.lt_dlinit
      split_ifs <;> simp
    rw [if_pos hflag]
    dsimp only
    split_ifs with hfailed
    · refine ⟨?_, fun hon => absurd hon hflag, ready_next h fun hon => absurd hon hflag, fun _ => hnil⟩
      change Sound _ (handles (w.managers.insert i ∅))
      rw [hnil]
      exact ⟨hsound.ledger, htracks⟩
    · refine ⟨?_, fun _ => hcount, fun _ _ => rfl, nofun⟩
      change Sound _ (handles (w.managers.insert i ∅))
      rw [hnil]
      exact ⟨hsound.ledger, htracks⟩

theorem step_inv (h : Inv w) (hsole : w.Sole ev) (hstep : w.step ev = some w') : Inv w' := by
  have hfound : ∀ {i m}, w.managers.find? i = some m → Sound w.process (m.values ++ handles (w.managers.erase i)) :=
    fun hm => h.sound.perm (handles_find hm)
  cases ev with
  | construct i errors =>
    rw [step] at hstep
    cases hnone : w.managers.find? i with
    | some m =>
      rw [hnone] at hstep
      cases hstep
    | none =>
      rw [hnone] at hstep
      obtain rfl := Option.some.inj hstep
      exact inv_construct h errors hnone
  | destroy i =>
    obtain ⟨m, hm, hstep⟩ := Option.bind_eq_some_iff.mp hstep
    obtain ⟨p', hunload, hsound, hinit⟩ := sound_unloadAll (hfound hm)
    rw [hunload] at hstep
    obtain rfl := Option.some.inj hstep
    exact inv_destroy h hm hsole hsound hinit
  | load i path io =>
    obtain ⟨m, hm, hstep⟩ := Option.bind_eq_some_iff.mp hstep
    obtain ⟨b, m', p', hload, hsound, hinit, -, -, hkeep⟩ := sound_loadModule (hfound hm)
    rw [hload] at hstep
    obtain rfl := Option.some.inj hstep
    exact inv_call h hm hsound hinit fun hoff hnil => by rw [hkeep hoff, hnil]
  | unload i name =>
    obtain ⟨m, hm, hstep⟩ := Option.bind_eq_some_iff.mp hstep
    obtain ⟨b, m', p', hunload, hsound, hinit, -, hkeep⟩ := sound_unloadModule (hfound hm)
    rw [hunload] at hstep
    obtain rfl := Option.some.inj hstep
    exact inv_call h hm hsound hinit fun _ hnil => by rw [hkeep hnil, hnil]
  | unloadAll i =>
    obtain ⟨m, hm, hstep⟩ := Option.bind_eq_some_iff.mp hstep
    obtain ⟨p', hunload, hsound, hinit⟩ := sound_unloadAll (hfound hm)
    rw [hunload] at hstep
    obtain rfl := Option.some.inj hstep
    exact inv_call h hm hsound hinit fun _ _ => rfl

/-- A manager that is alive while libltdl is initialized knows it. -/
def Aware (w : World) : Prop := ∀ i m, w.managers.find? i = some m → w.process.ltdlInitialized = true → w.ready i = true

theorem aware_next (w : World) (managers : OrdMap Nat ModuleManager) (p : Process) : (w.next managers p).Aware := by
  intro i m hm hflag
  have hsome : (managers.find? i).isSome = true := by
    have hm : managers.find? i = some m := hm
    rw [hm]
    rfl
  have hflag : p.ltdlInitialized = true := hflag
  simp [next, hsome, hflag]

theorem step_next (hstep : w.step ev = some w') : ∃ managers p, w' = w.next managers p := by
  cases ev with
  | construct i errors =>
    rw [step] at hstep
    split at hstep
    · cases hstep
    · exact ⟨_, _, (Option.some.inj hstep).symm⟩
  | _ =>
    obtain ⟨m, -, hstep⟩ := Option.bind_eq_some_iff.mp hstep
    obtain ⟨x, -, rfl⟩ := Option.map_eq_some_iff.mp hstep
    exact ⟨_, _, rfl⟩

theorem destroy_off (hstep : w.step (.destroy i) = some w') : w'.process.ltdlInitialized = false ∧
    w'.managers = w.managers.erase i ∧ ∀ j, (w'.managers.find? j).isSome = true → w.ready j = true → w'.ready j = true := by
  obtain ⟨m, -, hstep⟩ := Option.bind_eq_some_iff.mp hstep
  obtain ⟨x, -, rfl⟩ := Option.map_eq_some_iff.mp hstep
  refine ⟨?_, rfl, fun j hj hready => ?_⟩
  · change (cleanupLtdl x.2).ltdlInitialized = false
    unfold cleanupLtdl
    split_ifs with hflag
    · rfl
    · exact Bool.eq_false_iff.mpr hflag
  · have hj : ((w.managers.erase i).find? j).isSome = true := hj
    simp [next, hj, hready]

theorem sole_of_undisturbed (haware : w.Aware) (hstep : w.step ev = some w') (h : w'.Undisturbed) : w.Sole ev := by
  cases ev with
  | destroy i =>
    intro hflag x hx
    by_contra hne
    obtain ⟨hoff, hmanagers, hready⟩ := destroy_off hstep
    have hfind : w.managers.find? x.1 = some x.2 := (w.managers.mem_iff_find? x.1 x.2).mp hx
    have hleft : w'.managers.find? x.1 = some x.2 := by
      rw [hmanagers, OrdMap.find?_erase, if_neg (Ne.symm hne)]
      exact hfind
    have hsome : (w'.managers.find? x.1).isSome = true := by
      rw [hleft]
      rfl
    have hon := ((h x.1 x.2 hleft).1 (hready x.1 hsome (haware x.1 x.2 hfind hflag))).1
    rw [hoff] at hon
    cases hon
  | _ => trivial

end World

open World in
/-- In every state of a run all managers are undisturbed exactly when no manager is destroyed, while libltdl is initialized,
beside another. -/
theorem managers_undisturbed {evs : List Event} {w : World} (h : runs World.step .start evs = some w) :
    (∀ evs₁ evs₂ w₁, evs = evs₁ ++ evs₂ → runs World.step .start evs₁ = some w₁ → w₁.Undisturbed) ↔
      Along World.step World.Sole .start evs := by
  constructor
  · intro hall
    refine Along.of_states (fun s ev s' haware hstep => ?_) (I := Aware) nofun h hall
    refine ⟨?_, sole_of_undisturbed haware hstep⟩
    obtain ⟨managers, p, rfl⟩ := step_next hstep
    exact aware_next s managers p
  · rintro halong evs₁ evs₂ w₁ rfl hrun
    refine undisturbed_of_inv (runs_invariant (fun s ev s' hI hC hs => step_inv hI hC hs) inv_start ?_ hrun)
    exact (halong.append hrun).1

/-- A library that loads. -/
def plugin : Loading := ⟨fun path => some (path, false), true, some ⟨ascii "plugin", true, true⟩, 0, ascii "plugin", true⟩

/-- Two managers load modules; then the first unloads its own. -/
def twoManagers : List Event := [.construct 0 0, .construct 1 0, .load 0 (ascii "a.so") plugin, .load 1 (ascii "b.so") plugin,
  .unloadAll 0]

theorem managers_undisturbed_two : (runs World.step .start twoManagers).isSome = true ∧
    ∀ evs₁ evs₂ w₁, twoManagers = evs₁ ++ evs₂ → runs World.step .start evs₁ = some w₁ → w₁.Undisturbed := by
  have hcheck : (runs World.step .start twoManagers).isSome = true := by decide +kernel
  obtain ⟨w, hrun⟩ := Option.isSome_iff_exists.mp hcheck
  exact ⟨hcheck, (managers_undisturbed hrun).mpr (by decide +kernel)⟩

/-- When the second is destroyed libltdl is shut down, and the first loses its library. -/
theorem managers_undisturbed_destroyed : ∃ w, runs World.step .start
    [.construct 0 0, .construct 1 0, .load 0 (ascii "a.so") plugin, .destroy 1] = some w ∧ ¬ w.Undisturbed ∧
    ∃ m h, w.managers.find? 0 = some m ∧ m.find? (ascii "plugin") = some h ∧ w.process.ltdl.isOpen h.handle = false ∧
      w.process.ltdlInitialized = false := by
  have hcheck : (runs World.step .start
      [.construct 0 0, .construct 1 0, .load 0 (ascii "a.so") plugin, .destroy 1]).any fun w =>
      (w.managers.find? 0).any fun m => (m.find? (ascii "plugin")).any fun h =>
        !w.process.ltdl.isOpen h.handle && !w.process.ltdlInitialized := by
    decide +kernel
  obtain ⟨w, hrun, hcheck⟩ := (Option.any_eq_true _ _).mp hcheck
  obtain ⟨m, hm, hcheck⟩ := (Option.any_eq_true _ _).mp hcheck
  obtain ⟨h, hh, hcheck⟩ := (Option.any_eq_true _ _).mp hcheck
  simp only [Bool.and_eq_true, Bool.not_eq_true'] at hcheck
  refine ⟨w, hrun, fun hundisturbed => ?_, m, h, hm, hh, hcheck.1, hcheck.2⟩
  have hopen := (hundisturbed 0 m hm).2 (ascii "plugin") h hh
  rw [hcheck.1] at hopen
  cases hopen

end Passdoq.Modules
