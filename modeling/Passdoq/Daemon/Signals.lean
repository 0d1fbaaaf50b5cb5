import Passdoq.Daemon.Lifecycle

/-!
# Signals

The daemons of a process and the signals that it gets. The handler of `daemon.cpp` stops the daemon that the static
`instance_` points to: the one constructed last, unless one has been destroyed since.

* `Process`, `Process.step` : the daemons, `instance_`, and what was destroyed; a signal arrives between two calls;
* `Points` : `instance_` points to a daemon that is there;
* `Heard` : a daemon that runs gets the signals; `Quiet` : the call takes them from no daemon that runs;
* `signals_reach` : when every daemon that runs gets the signals, and what a signal leaves.
-/

namespace Passdoq
open Services

structure Process (ι : Type) where
  daemons : ι → Option Daemon
  instance_ : Option ι
  /-- whether the handlers are set -/
  handled : Bool
  ended : List Daemon

inductive ProcessEvent (ι : Type)
  | construct (x : ι) (config : DaemonConfig) (services : ServiceRegistry)
  | start (x : ι) (e : StartEnv)
  | stop (x : ι) (e : StopEnv)
  | destroy (x : ι) (e : StopEnv) (last : Nat → Bool)
  | signal (e : StopEnv)

instance Daemon.Reaches.decidable (d : Daemon) (e : StartEnv) : Decidable (d.Reaches e) :=
  inferInstanceAs (Decidable ((d.config.daemonize = true → e.daemonizes = true) ∧ e.opens d.config.pidFile = true))

/-- `~Daemon` with the destructor of its registry, which tells all services once more to stop; `last` is what they answer. -/
def Daemon.destroy (d : Daemon) (e : StopEnv) (last : Nat → Bool) : Daemon :=
  let (_, d) := d.stop e
  let (_, calls) := stopAll d.services last
  d.act (calls.map .service)

namespace Process

variable {ι : Type} [DecidableEq ι]

def new : Process ι := ⟨fun _ => none, none, false, []⟩

/-- The handler: it uses the pointer unless it is null. -/
def signalHandler (s : Process ι) (e : StopEnv) : Option (Process ι) :=
  match s.instance_ with
  | some x => (s.daemons x).map fun d => { s with daemons := Function.update s.daemons x (some (d.stop e).2) }
  | none => some s

/-- A call within the lifetimes of the daemons, or a signal; without a handler a signal ends the process. -/
def step (s : Process ι) : ProcessEvent ι → Option (Process ι)
  | .construct x config services =>
    if s.daemons x = none then
      some { s with
        daemons := Function.update s.daemons x (some (Daemon.construct config services))
        instance_ := some x }
    else none
  | .start x e => (s.daemons x).map fun d => { s with
      daemons := Function.update s.daemons x (some (d.start e).2)
      handled := s.handled || (d.running = false ∧ d.Reaches e) }
  | .stop x e => (s.daemons x).map fun d => { s with daemons := Function.update s.daemons x (some (d.stop e).2) }
  | .destroy x e last => (s.daemons x).map fun d => { s with
      daemons := Function.update s.daemons x none
      instance_ := none
      ended := s.ended ++ [d.destroy e last] }
  | .signal e => if s.handled then s.signalHandler e else none

/-- `instance_` is null or points to a daemon that is there. -/
def Points (s : Process ι) : Prop := ∀ x, s.instance_ = some x → ∃ d, s.daemons x = some d

/-- A daemon that runs gets the signals. -/
def Heard (s : Process ι) : Prop := ∀ x d, s.daemons x = some d → d.running = true → s.instance_ = some x

/-- No daemon that runs is left without the signals: not by a new daemon, nor by the end of another, nor by its own start. -/
def Quiet (s : Process ι) : ProcessEvent ι → Prop
  | .construct _ _ _ => ∀ y d, s.daemons y = some d → d.running = false
  | .start x e => ∀ d, s.daemons x = some d → d.running = false → d.Reaches e → d.AllStart e → s.instance_ = some x
  | .destroy x _ _ => ∀ y d, y ≠ x → s.daemons y = some d → d.running = false
  | _ => True

/-- A start goes where the daemon does not run, and what is stopped stops. -/
def Smooth (s : Process ι) : ProcessEvent ι → Prop
  | .start x e => ∀ d, s.daemons x = some d → d.Safe (.start e)
  | .stop x e | .destroy x e _ => ∀ d, s.daemons x = some d → d.Obliging (.stop e)
  | .signal e => ∀ x d, s.instance_ = some x → s.daemons x = some d → d.Obliging (.stop e)
  | .construct _ _ _ => True

/-- Nothing is left of the daemons that were destroyed, and the others keep their invariant. -/
structure Orderly (s : Process ι) : Prop where
  inv : ∀ x d, s.daemons x = some d → d.Inv
  ended : ∀ d ∈ s.ended, d.running = false ∧ d.Inv

variable {s s' : Process ι} {ev : ProcessEvent ι} {x : ι} {d : Daemon}

/-! ## Steps -/

theorem stop_not_running (d : Daemon) (e : StopEnv) : (d.stop e).2.running = false := by
  cases h : d.running with
  | false =>
    rw [Daemon.stop_idle e h]
    exact h
  | true => rw [Daemon.stop_running e h]

theorem destroy_not_running (d : Daemon) (e : StopEnv) (last : Nat → Bool) : (d.destroy e last).running = false :=
  stop_not_running d e

/-- What the registry's destructor does leaves no service active that was not, and no PID file. -/
theorem inv_destroy {e : StopEnv} (h : d.Inv) (hobliging : d.Obliging (.stop e)) (last : Nat → Bool) :
    (d.destroy e last).Inv := by
  have hstopped := Daemon.inv_stop h e hobliging
  have hactive : ∀ s, (d.destroy e last).active s = true → (d.stop e).2.active s = true := by
    intro s hs
    rw [Daemon.destroy, Daemon.active_act, serviceCalls_services, stopAll_eq] at hs
    exact active_of_told hs
  refine ⟨fun s hs => hstopped.registered s (hactive s hs), fun _ => ?_⟩
  obtain ⟨hinactive, hpid⟩ := hstopped.clean (stop_not_running d e)
  refine ⟨fun s => ?_, ?_⟩
  · by_contra hs
    exact absurd (hactive s (Bool.eq_true_of_not_eq_false hs)) (by rw [hinactive s]; decide)
  · rw [Daemon.destroy, Daemon.pidPresent_act, present_services]
    exact hpid

theorem start_running_iff (d : Daemon) (e : StartEnv) :
    (d.start e).2.running = true ↔ d.running = true ∨ (d.running = false ∧ d.Reaches e ∧ d.AllStart e) := by
  rcases Daemon.start_cases d e with ⟨hbefore, hstart⟩ | ⟨hrunning, -, hall, hstart⟩ | ⟨hrunning, hreaches, hall, hstart⟩
  · rw [hstart]
    refine ⟨.inl, ?_⟩
    rintro (hrun | ⟨hrun, hreaches, -⟩)
    · exact hrun
    · rcases hbefore with hon | hnot
      · exact hon
      · exact absurd hreaches hnot
  · rw [hstart]
    change d.running = true ↔ _
    rw [hrunning]
    simp [hall]
  · rw [hstart]
    exact iff_of_true rfl (.inr ⟨hrunning, hreaches, hall⟩)

theorem put_cases {daemons : ι → Option Daemon} {put : Option Daemon} {y : ι}
    (h : Function.update daemons x put y = some d) : (y = x ∧ put = some d) ∨ (y ≠ x ∧ daemons y = some d) := by
  by_cases hy : y = x
  · rw [hy, Function.update_self] at h
    exact .inl ⟨hy, h⟩
  · rw [Function.update_of_ne hy] at h
    exact .inr ⟨hy, h⟩

theorem Points.put (h : Points s) (x : ι) (d : Daemon) :
    ∀ y, s.instance_ = some y → ∃ d', Function.update s.daemons x (some d) y = some d' := by
  intro y hy
  by_cases hyx : y = x
  · exact ⟨d, by rw [hyx, Function.update_self]⟩
  · obtain ⟨d', hd'⟩ := h y hy
    exact ⟨d', by rw [Function.update_of_ne hyx, hd']⟩

theorem Points.step (h : Points s) (hs : s.step ev = some s') : Points s' := by
  cases ev with
  | construct x config services =>
    rw [Process.step, Option.ite_none_right_eq_some] at hs
    obtain rfl := Option.some.inj hs.2
    intro y hy
    obtain rfl := Option.some.inj hy
    exact ⟨_, Function.update_self ..⟩
  | start x e =>
    obtain ⟨d, -, rfl⟩ := Option.map_eq_some_iff.mp hs
    exact h.put x _
  | stop x e =>
    obtain ⟨d, -, rfl⟩ := Option.map_eq_some_iff.mp hs
    exact h.put x _
  | destroy x e last =>
    obtain ⟨d, -, rfl⟩ := Option.map_eq_some_iff.mp hs
    exact nofun
  | signal e =>
    rw [Process.step, Option.ite_none_right_eq_some] at hs
    obtain ⟨-, hs⟩ := hs
    rw [signalHandler] at hs
    split at hs
    case h_1 x hx =>
      obtain ⟨d, -, rfl⟩ := Option.map_eq_some_iff.mp hs
      exact h.put x _
    case h_2 =>
      obtain rfl := Option.some.inj hs
      exact h

theorem Heard.stop (h : Heard s) (x : ι) (d : Daemon) (e : StopEnv) :
    Heard { s with daemons := Function.update s.daemons x (some (d.stop e).2) } := by
  intro y d' hd' hrun
  rcases put_cases hd' with ⟨-, hput⟩ | ⟨-, hold⟩
  · obtain rfl := Option.some.inj hput
    rw [stop_not_running] at hrun
    cases hrun
  · exact h y d' hold hrun

/-- A daemon comes or goes, and takes the signals with it: the others are heard only when they do not run. -/
theorem heard_displaced (s : Process ι) (x : ι) {put : Option Daemon} {target : Option ι} (ended : List Daemon)
    (htarget : ∀ y, target = some y → y = x) (hput : ∀ d, put = some d → target = some x) :
    Heard { s with daemons := Function.update s.daemons x put, instance_ := target, ended := ended } ↔
      ∀ y d, y ≠ x → s.daemons y = some d → d.running = false := by
  constructor
  · intro hheard y d hyx hd
    by_contra hrun
    have hy := hheard y d (show Function.update s.daemons x put y = some d by rw [Function.update_of_ne hyx, hd])
      (Bool.eq_true_of_not_eq_false hrun)
    exact hyx (htarget y hy)
  · intro hquiet y d hd hrun
    rcases put_cases hd with ⟨rfl, hnew⟩ | ⟨hyx, hold⟩
    · exact hput d hnew
    · rw [hquiet y d hyx hold] at hrun
      cases hrun

theorem heard_start (h : Heard s) (hd : s.daemons x = some d) (e : StartEnv) (handled : Bool) :
    Heard { s with daemons := Function.update s.daemons x (some (d.start e).2), handled := handled } ↔
      Quiet s (.start x e) := by
  constructor
  · intro hheard d' hd' hrunning hreaches hall
    obtain rfl := Option.some.inj (hd.symm.trans hd')
    exact hheard x _ (Function.update_self ..) ((start_running_iff d e).mpr (.inr ⟨hrunning, hreaches, hall⟩))
  · intro hquiet y d' hd' hrun
    rcases put_cases hd' with ⟨rfl, hput⟩ | ⟨-, hold⟩
    · obtain rfl := Option.some.inj hput
      rcases (start_running_iff d e).mp hrun with hwas | ⟨hrunning, hreaches, hall⟩
      · exact h y d hd hwas
      · exact hquiet d hd hrunning hreaches hall
    · exact h y d' hold hrun

/-- Where every daemon that runs gets the signals, they still do after a call exactly when it is quiet. -/
theorem heard_step (hs : s.step ev = some s') (h : Heard s) : Heard s' ↔ Quiet s ev := by
  cases ev with
  | construct x config services =>
    rw [Process.step, Option.ite_none_right_eq_some] at hs
    obtain ⟨hnone, hs⟩ := hs
    obtain rfl := Option.some.inj hs
    refine (heard_displaced s x s.ended (fun y hy => (Option.some.inj hy).symm) fun _ _ => rfl).trans ?_
    refine forall₂_congr fun y d => ⟨fun hquiet hd => hquiet ?_ hd, fun hquiet _ => hquiet⟩
    rintro rfl
    cases hnone.symm.trans hd
  | start x e =>
    obtain ⟨d, hd, rfl⟩ := Option.map_eq_some_iff.mp hs
    exact heard_start h hd e _
  | stop x e =>
    obtain ⟨d, hd, rfl⟩ := Option.map_eq_some_iff.mp hs
    exact iff_of_true (h.stop x d e) trivial
  | destroy x e last =>
    obtain ⟨d, hd, rfl⟩ := Option.map_eq_some_iff.mp hs
    exact heard_displaced s x _ nofun nofun
  | signal e =>
    rw [Process.step, Option.ite_none_right_eq_some] at hs
    obtain ⟨-, hs⟩ := hs
    rw [signalHandler] at hs
    split at hs
    case h_1 x hx =>
      obtain ⟨d, hd, rfl⟩ := Option.map_eq_some_iff.mp hs
      exact iff_of_true (h.stop x d e) trivial
    case h_2 =>
      obtain rfl := Option.some.inj hs
      exact iff_of_true h trivial

theorem Orderly.put (h : Orderly s) (hd : d.Inv) (x : ι) :
    ∀ y d', Function.update s.daemons x (some d) y = some d' → d'.Inv := by
  intro y d' hd'
  rcases put_cases hd' with ⟨-, hput⟩ | ⟨-, hold⟩
  · obtain rfl := Option.some.inj hput
    exact hd
  · exact h.inv y d' hold

theorem Orderly.step (h : Orderly s) (hsmooth : Smooth s ev) (hs : s.step ev = some s') : Orderly s' := by
  cases ev with
  | construct x config services =>
    rw [Process.step, Option.ite_none_right_eq_some] at hs
    obtain rfl := Option.some.inj hs.2
    exact ⟨h.put (Daemon.inv_construct config services) x, h.ended⟩
  | start x e =>
    obtain ⟨d, hd, rfl⟩ := Option.map_eq_some_iff.mp hs
    exact ⟨h.put (Daemon.inv_start (h.inv x d hd) e (hsmooth d hd)) x, h.ended⟩
  | stop x e =>
    obtain ⟨d, hd, rfl⟩ := Option.map_eq_some_iff.mp hs
    exact ⟨h.put (Daemon.inv_stop (h.inv x d hd) e (hsmooth d hd)) x, h.ended⟩
  | destroy x e last =>
    obtain ⟨d, hd, rfl⟩ := Option.map_eq_some_iff.mp hs
    refine ⟨fun y d' hd' => ?_, fun d' hd' => ?_⟩
    · rcases put_cases hd' with ⟨-, hput⟩ | ⟨-, hold⟩
      · cases hput
      · exact h.inv y d' hold
    · rcases List.mem_append.mp hd' with hd' | hd'
      · exact h.ended d' hd'
      · rw [List.mem_singleton.mp hd']
        exact ⟨destroy_not_running d e last, inv_destroy (h.inv x d hd) (hsmooth d hd) last⟩
  | signal e =>
    rw [Process.step, Option.ite_none_right_eq_some] at hs
    obtain ⟨-, hs⟩ := hs
    rw [signalHandler] at hs
    split at hs
    case h_1 x hx =>
      obtain ⟨d, hd, rfl⟩ := Option.map_eq_some_iff.mp hs
      exact ⟨h.put (Daemon.inv_stop (h.inv x d hd) e (hsmooth x d hx hd)) x, h.ended⟩
    case h_2 =>
      obtain rfl := Option.some.inj hs
      exact h

theorem signal_stops (h : Heard s) {e : StopEnv} (hs : s.signalHandler e = some s') {y : ι}
    (hd : s'.daemons y = some d) : d.running = false := by
  rw [signalHandler] at hs
  split at hs
  case h_1 x hx =>
    obtain ⟨d₀, -, rfl⟩ := Option.map_eq_some_iff.mp hs
    rcases put_cases hd with ⟨-, hput⟩ | ⟨hyx, hold⟩
    · obtain rfl := Option.some.inj hput
      exact stop_not_running d₀ e
    · by_contra hrun
      have hy := h y d hold (Bool.eq_true_of_not_eq_false hrun)
      exact hyx (Option.some.inj (hy.symm.trans hx))
  case h_2 hnull =>
    obtain rfl := Option.some.inj hs
    by_contra hrun
    cases (h y d hd (Bool.eq_true_of_not_eq_false hrun)).symm.trans hnull

/-! ## Runs -/

/-- In a run of calls and signals `instance_` never dangles, so a signal for which there is a handler is handled. Every
daemon that runs gets the signals, at every time, exactly when every call is quiet; and where all starts and stops go well
besides, a signal leaves no daemon running, no service active and no PID file. -/
theorem signals_reach {evs : List (ProcessEvent ι)} (hrun : runs step new evs = some s) :
    (Points s ∧ ∀ e, s.handled = true → (s.step (.signal e)).isSome) ∧
    ((∀ evs₁ evs₂ s₁, evs = evs₁ ++ evs₂ → runs step new evs₁ = some s₁ → Heard s₁) ↔ Along step Quiet new evs) ∧
    (Along step (fun s ev => Quiet s ev ∧ Smooth s ev) new evs → ∀ e s', Smooth s (.signal e) →
      s.step (.signal e) = some s' → ∀ d, (∃ x, s'.daemons x = some d) ∨ d ∈ s'.ended →
        d.running = false ∧ (∀ service, d.active service = false) ∧ d.pidPresent = false) := by
  have hpoints : Points s := runs_preserves (fun _ _ _ h hs => Points.step h hs) (show Points new from nofun) hrun
  have hnew : Heard (new : Process ι) := nofun
  have hheard : ∀ {evs₁ s₁}, Along step Quiet new evs₁ → runs step new evs₁ = some s₁ → Heard s₁ := fun hquiet hr =>
    runs_invariant (fun _ _ _ h hC hs => (heard_step hs h).mpr hC) hnew hquiet hr
  refine ⟨⟨hpoints, fun e hhandled => ?_⟩, ⟨fun hall => ?_, ?_⟩, fun halong e s' hsmooth hs d hd => ?_⟩
  · rw [step, if_pos hhandled, signalHandler]
    cases hx : s.instance_ with
    | none => rfl
    | some x =>
      obtain ⟨d, hd⟩ := hpoints x hx
      simp only [hd]
      rfl
  · exact Along.of_chain (fun _ _ _ h hs h' => (heard_step hs h).mp h') hrun hall
  · rintro hquiet evs₁ evs₂ s₁ rfl hr
    exact hheard (hquiet.append hr).1 hr
  · have hquiet : Along step Quiet new evs := halong.imp fun _ _ h => h.1
    have horderly : Orderly s := runs_invariant (fun _ _ _ h hC hs => Orderly.step h hC.2 hs)
      (show Orderly new from ⟨nofun, nofun⟩) halong hrun
    have horderly' := horderly.step hsmooth hs
    have hstopped : d.running = false ∧ d.Inv := by
      rcases hd with ⟨x, hd⟩ | hd
      · rw [step, Option.ite_none_right_eq_some] at hs
        exact ⟨signal_stops (hheard hquiet hrun) hs.2 hd, horderly'.inv x d hd⟩
      · exact horderly'.ended d hd
    exact ⟨hstopped.1, hstopped.2.clean hstopped.1⟩

/-- A daemon with two services is started. -/
def daemonStarted : List (ProcessEvent Nat) := [
  .construct 0 ⟨ascii "/tmp/d.pid", false⟩ Daemon.twoServices, .start 0 ⟨true, fun _ => true, fun _ => true, true⟩]

/-- The signal leaves no PID file. -/
theorem signals_reach_started : ∃ (s s' : Process Nat) (d : Daemon), runs step new daemonStarted = some s ∧
    s.step (.signal ⟨fun _ => true, fun _ => true⟩) = some s' ∧ s'.daemons 0 = some d ∧ d.pidPresent = false := by
  have halong : Along step (fun s ev => Quiet s ev ∧ Smooth s ev) (new : Process Nat) daemonStarted := by
    refine ⟨⟨nofun, trivial⟩, fun s hs => ⟨?_, fun _ _ => trivial⟩⟩
    obtain rfl := Option.some.inj hs
    exact ⟨fun _ _ _ _ _ => rfl, fun _ _ _ _ _ _ => rfl⟩
  obtain ⟨-, -, hclean⟩ := signals_reach (s := _) (show runs step new daemonStarted = some _ from rfl)
  refine ⟨_, _, _, rfl, rfl, rfl, ?_⟩
  exact (hclean halong _ _ (fun _ _ _ _ => ⟨fun _ _ => rfl, rfl⟩) rfl _ (.inl ⟨0, rfl⟩)).2.2

end Process

end Passdoq
