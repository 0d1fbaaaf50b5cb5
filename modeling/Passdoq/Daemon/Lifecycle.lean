import Passdoq.Lib.Run
import Passdoq.Daemon.Services

/-!
# The daemon

`Daemon::start` and `Daemon::stop` of `daemon.cpp`. The log is everything a daemon does outside itself: the PID file it
writes and unlinks, and its calls of services with their answers.

* `start_cases` : how a start ends;
* `Goes` : a start that fails does so before it has done anything;
* `FailedStartCleans` : what a failed start has begun it has undone;
* `Clean` : a daemon that does not run has no active service and no PID file.
-/

namespace Passdoq

open Services

structure DaemonConfig where
  pidFile : Bytes
  daemonize : Bool

/-- What a daemon does outside itself. -/
inductive DaemonAction
  | writePid (path : Bytes)
  | unlinkPid (path : Bytes) (ok : Bool)
  | service (call : ServiceCall)
  deriving DecidableEq

/-- Whether the file that a daemon writes at `path` is there after this, when `was` says whether it was before. -/
def presentAfter (path : Bytes) (was : Bool) : DaemonAction → Bool
  | .writePid path' => if path' = path then true else was
  | .unlinkPid path' true => if path' = path then false else was
  | _ => was

def present (path : Bytes) (was : Bool) (done : List DaemonAction) : Bool := done.foldl (presentAfter path) was

def DaemonAction.call? : DaemonAction → Option ServiceCall
  | .service call => some call
  | _ => none

def serviceCalls (done : List DaemonAction) : List ServiceCall := done.filterMap DaemonAction.call?

@[simp] theorem present_append (path : Bytes) (was : Bool) (done done' : List DaemonAction) :
    present path was (done ++ done') = present path (present path was done) done' := List.foldl_append

@[simp] theorem present_services (path : Bytes) (was : Bool) (calls : List ServiceCall) :
    present path was (calls.map .service) = was := by
  induction calls with
  | nil => rfl
  | cons call calls ih => exact ih

@[simp] theorem serviceCalls_append (done done' : List DaemonAction) :
    serviceCalls (done ++ done') = serviceCalls done ++ serviceCalls done' := List.filterMap_append

@[simp] theorem serviceCalls_services (calls : List ServiceCall) : serviceCalls (calls.map .service) = calls := by
  induction calls with
  | nil => rfl
  | cons call calls ih => exact congrArg (call :: ·) ih

structure Daemon where
  config : DaemonConfig
  services : ServiceRegistry
  running : Bool
  log : List DaemonAction

/-- What a start finds: whether the process goes into the background, which files can be opened, which services start, and
whether there is a thread. -/
structure StartEnv where
  daemonizes : Bool
  opens : Bytes → Bool
  starts : Nat → Bool
  threads : Bool

/-- What a stop finds: which services stop, and which files can be unlinked. -/
structure StopEnv where
  stops : Nat → Bool
  unlinks : Bytes → Bool

namespace Daemon

def construct (config : DaemonConfig) (services : ServiceRegistry) : Daemon := ⟨config, services, false, []⟩

def act (d : Daemon) (done : List DaemonAction) : Daemon := { d with log := d.log ++ done }

def writePidFile (d : Daemon) (e : StartEnv) : Bool × Daemon :=
  if ¬ e.opens d.config.pidFile then (false, d) else (true, d.act [.writePid d.config.pidFile])

def removePidFile (d : Daemon) (e : StopEnv) : Bool × Daemon :=
  (e.unlinks d.config.pidFile, d.act [.unlinkPid d.config.pidFile (e.unlinks d.config.pidFile)])

def start (d : Daemon) (e : StartEnv) : Option Bool × Daemon :=
  if d.running then (some false, d)
  else if d.config.daemonize ∧ ¬ e.daemonizes then (some false, d)
  else
    let (wrote, d) := d.writePidFile e
    if ¬ wrote then (some false, d)
    else
      let (started, calls) := startAll d.services e.starts
      let d := d.act (calls.map .service)
      if ¬ started then (some false, d)
      else
        let d := { d with running := true }
        -- the thread's constructor throws
        if ¬ e.threads then (none, d) else (some true, d)

def stop (d : Daemon) (e : StopEnv) : Bool × Daemon :=
  if ¬ d.running then (false, d)
  else
    let d := { d with running := false }
    let (_, calls) := stopAll d.services e.stops
    let (_, d) := (d.act (calls.map .service)).removePidFile e
    (true, d)

variable {config : DaemonConfig} {services : ServiceRegistry} {d d' : Daemon} {e : StartEnv}

/-- What a start has done once it has called every service. -/
def startActions (d : Daemon) (starts : Nat → Bool) : List DaemonAction :=
  .writePid d.config.pidFile :: (d.services.values.map fun s => ServiceCall.start s (starts s)).map .service

/-- A start gets to the services. -/
def Reaches (d : Daemon) (e : StartEnv) : Prop :=
  (d.config.daemonize = true → e.daemonizes = true) ∧ e.opens d.config.pidFile = true

def AllStart (d : Daemon) (e : StartEnv) : Prop := ∀ s ∈ d.services.values, e.starts s = true

/-- A start fails before it writes the PID file, or it does not fail. -/
def Goes (d : Daemon) (e : StartEnv) : Prop := d.Reaches e → d.AllStart e

theorem start_running (h : d.running = true) : d.start e = (some false, d) := by simp [start, h]

theorem start_not_reaches (h : ¬ d.Reaches e) : d.start e = (some false, d) := by
  unfold start
  by_cases hrunning : d.running = true
  · rw [if_pos hrunning]
  by_cases hdaemonize : d.config.daemonize = true ∧ ¬ e.daemonizes = true
  · rw [if_neg hrunning, if_pos hdaemonize]
  · have hopens : ¬ e.opens d.config.pidFile = true := by
      intro hopens
      refine h ⟨fun hd => ?_, hopens⟩
      by_contra he
      exact hdaemonize ⟨hd, he⟩
    rw [if_neg hrunning, if_neg hdaemonize, writePidFile, if_pos hopens]
    rfl

/-- Once it reaches the services a start calls all of them, and what they answer decides. -/
theorem start_reaches (hrunning : d.running = false) (h : d.Reaches e) : d.start e =
    if d.services.values.all e.starts then
      (if e.threads then some true else none, { d.act (d.startActions e.starts) with running := true })
    else (some false, d.act (d.startActions e.starts)) := by
  have hdaemonize : ¬ (d.config.daemonize = true ∧ ¬ e.daemonizes = true) := fun hd => hd.2 (h.1 hd.1)
  have hact : (d.act [.writePid d.config.pidFile]).act
      ((d.services.values.map fun s => ServiceCall.start s (e.starts s)).map .service) = d.act (d.startActions e.starts) := by
    simp [act, startActions]
  unfold start
  rw [if_neg (by simp [hrunning]), if_neg hdaemonize, writePidFile, if_neg (not_not.mpr h.2)]
  dsimp only
  rw [show (d.act [.writePid d.config.pidFile]).services = d.services from rfl, startAll_eq]
  dsimp only
  rw [hact]
  cases d.services.values.all e.starts <;> cases e.threads <;> rfl

theorem all_iff : d.services.values.all e.starts = true ↔ d.AllStart e := List.all_eq_true

/-- How a start ends. -/
theorem start_cases (d : Daemon) (e : StartEnv) :
    ((d.running = true ∨ ¬ d.Reaches e) ∧ d.start e = (some false, d)) ∨
    (d.running = false ∧ d.Reaches e ∧ ¬ d.AllStart e ∧ d.start e = (some false, d.act (d.startActions e.starts))) ∨
    (d.running = false ∧ d.Reaches e ∧ d.AllStart e ∧ d.start e =
      (if e.threads then some true else none, { d.act (d.startActions e.starts) with running := true })) := by
  by_cases hrunning : d.running = true
  · exact .inl ⟨.inl hrunning, start_running hrunning⟩
  by_cases hreaches : d.Reaches e
  · have hrunning := Bool.eq_false_iff.mpr hrunning
    have hstart := start_reaches hrunning hreaches
    right
    by_cases hall : d.AllStart e
    · rw [if_pos (all_iff.mpr hall)] at hstart
      exact .inr ⟨hrunning, hreaches, hall, hstart⟩
    · rw [if_neg fun h => hall (all_iff.mp h)] at hstart
      exact .inl ⟨hrunning, hreaches, hall, hstart⟩
  · exact .inl ⟨.inr hreaches, start_not_reaches hreaches⟩

/-- What a stop of a running daemon has done. -/
def stopActions (d : Daemon) (e : StopEnv) : List DaemonAction :=
  (d.services.values.map fun s => ServiceCall.stop s (e.stops s)).map .service ++
    [.unlinkPid d.config.pidFile (e.unlinks d.config.pidFile)]

theorem stop_idle (e : StopEnv) (h : d.running = false) : d.stop e = (false, d) := by simp [stop, h]

theorem stop_running (e : StopEnv) (h : d.running = true) :
    d.stop e = (true, { d.act (d.stopActions e) with running := false }) := by
  unfold stop removePidFile
  rw [if_neg (not_not.mpr h)]
  dsimp only
  rw [stopAll_eq]
  simp [act, stopActions]

def active (d : Daemon) (s : Nat) : Bool := activeFrom s false (serviceCalls d.log)

/-- Whether the PID file that the daemon wrote is there. -/
def pidPresent (d : Daemon) : Bool := present d.config.pidFile false d.log

theorem active_act (done : List DaemonAction) (s : Nat) :
    (d.act done).active s = activeFrom s (d.active s) (serviceCalls done) := by
  simp [active, act, activeFrom_append]

theorem pidPresent_act (done : List DaemonAction) : (d.act done).pidPresent = present d.config.pidFile d.pidPresent done :=
  present_append d.config.pidFile false d.log done

theorem serviceCalls_startActions (starts : Nat → Bool) :
    serviceCalls (d.startActions starts) = d.services.values.map fun s => .start s (starts s) :=
  serviceCalls_services _

theorem serviceCalls_stopActions (e : StopEnv) :
    serviceCalls (d.stopActions e) = d.services.values.map fun s => .stop s (e.stops s) := by
  rw [stopActions, serviceCalls_append, serviceCalls_services]
  exact List.append_nil _

/-- A start that has called the services has written the PID file and has not removed it. -/
theorem present_startActions (starts : Nat → Bool) (was : Bool) :
    present d.config.pidFile was (d.startActions starts) = true := by
  unfold startActions present
  rw [List.foldl_cons]
  simp only [presentAfter, if_true]
  exact present_services d.config.pidFile true _

theorem present_stopActions (e : StopEnv) (was : Bool) (h : e.unlinks d.config.pidFile = true) :
    present d.config.pidFile was (d.stopActions e) = false := by
  rw [stopActions, present_append, h]
  simp [present, presentAfter]

/-- The PID file written here is removed after, and every service that started here is then told to stop. -/
def CleansUp (pidFile : Bytes) (done : List DaemonAction) : Prop :=
  (∀ before after, done = before ++ .writePid pidFile :: after → .unlinkPid pidFile true ∈ after) ∧
  ∀ before after s, done = before ++ .service (.start s true) :: after → ∃ ok, .service (.stop s ok) ∈ after

/-- If a start of a daemon that does not run returns false, it has cleaned up. -/
def FailedStartCleans (d : Daemon) (e : StartEnv) : Prop :=
  d.running = false → (d.start e).1 = some false →
    ∃ done, (d.start e).2.log = d.log ++ done ∧ CleansUp d.config.pidFile done

/-- A daemon that does not run has left no service active and no PID file. -/
def Clean (d : Daemon) : Prop := d.running = false → (∀ s, d.active s = false) ∧ d.pidPresent = false

theorem cleansUp_nil (pidFile : Bytes) : CleansUp pidFile [] := by
  constructor
  · intro before after h
    simp at h
  · intro before after s h
    simp at h

theorem failedStartCleans_iff (d : Daemon) (e : StartEnv) : FailedStartCleans d e ↔ (d.running = false → d.Goes e) := by
  constructor
  · intro h hrunning hreaches
    by_contra hall
    rcases start_cases d e with ⟨hbefore, -⟩ | ⟨-, -, -, hstart⟩ | ⟨-, -, hall', -⟩
    · rcases hbefore with hon | hnot
      · rw [hrunning] at hon
        cases hon
      · exact hnot hreaches
    · have hcleans := h hrunning
      rw [hstart] at hcleans
      obtain ⟨done, hdone, hpid, -⟩ := hcleans rfl
      have hdone : d.startActions e.starts = done := List.append_cancel_left hdone
      have hmem := hpid [] _ hdone.symm
      simp at hmem
    · exact hall hall'
  · intro h hrunning hfalse
    rcases start_cases d e with ⟨-, hstart⟩ | ⟨-, hreaches, hall, -⟩ | ⟨-, -, -, hstart⟩
    · refine ⟨[], ?_, cleansUp_nil d.config.pidFile⟩
      rw [hstart, List.append_nil]
    · exact absurd (h hrunning hreaches) hall
    · rw [hstart] at hfalse
      cases hthreads : e.threads <;> simp [hthreads] at hfalse

/-- The calls of a daemon. -/
inductive Event
  | start (e : StartEnv)
  | stop (e : StopEnv)

def step (d : Daemon) : Event → Option Daemon
  | .start e => some (d.start e).2
  | .stop e => some (d.stop e).2

/-- The registered services stop and the PID file can be unlinked. -/
def Obliging (d : Daemon) : Event → Prop
  | .start _ => True
  | .stop e => (∀ s ∈ d.services.values, e.stops s = true) ∧ e.unlinks d.config.pidFile = true

/-- A start of a daemon that does not run goes. -/
def Safe (d : Daemon) : Event → Prop
  | .start e => d.running = false → d.Goes e
  | .stop _ => True

/-- What runs is registered, and nothing is left where the daemon does not run. -/
structure Inv (d : Daemon) : Prop where
  registered : ∀ s, d.active s = true → s ∈ d.services.values
  clean : d.Clean

theorem inv_construct (config : DaemonConfig) (services : ServiceRegistry) : (construct config services).Inv :=
  ⟨nofun, fun _ => ⟨fun _ => rfl, rfl⟩⟩

theorem inv_start (h : d.Inv) (e : StartEnv) (hgoes : d.running = false → d.Goes e) : (d.start e).2.Inv := by
  rcases start_cases d e with ⟨-, hstart⟩ | ⟨hrunning, hreaches, hall, -⟩ | ⟨-, -, -, hstart⟩
  · rw [hstart]
    exact h
  · exact absurd (hgoes hrunning hreaches) hall
  · rw [hstart]
    refine ⟨fun s hs => ?_, nofun⟩
    have hs : (d.act (d.startActions e.starts)).active s = true := hs
    rw [active_act, serviceCalls_startActions] at hs
    rcases active_of_starts hs with hwas | hmem
    · exact h.registered s hwas
    · exact hmem

theorem inv_stop (h : d.Inv) (e : StopEnv) (hobliging : d.Obliging (.stop e)) : (d.stop e).2.Inv := by
  cases hrunning : d.running with
  | false =>
    rw [stop_idle e hrunning]
    exact h
  | true =>
    have hactive : ∀ s, (d.act (d.stopActions e)).active s = false := by
      intro s
      by_contra hs
      have hs := Bool.eq_true_of_not_eq_false hs
      rw [active_act, serviceCalls_stopActions] at hs
      obtain ⟨hwas, hnot⟩ := active_of_stops hobliging.1 hs
      exact hnot (h.registered s hwas)
    have hpid : (d.act (d.stopActions e)).pidPresent = false := by
      rw [pidPresent_act]
      exact present_stopActions e d.pidPresent hobliging.2
    rw [stop_running e hrunning]
    refine ⟨fun s hs => ?_, fun _ => ⟨hactive, hpid⟩⟩
    have hs : (d.act (d.stopActions e)).active s = true := hs
    rw [hactive s] at hs
    cases hs

/-- A start that does not go leaves the PID file. -/
theorem goes_of_clean (h : (d.start e).2.Clean) (hrunning : d.running = false) : d.Goes e := by
  intro hreaches
  by_contra hall
  have hstart := start_reaches hrunning hreaches
  rw [if_neg fun h => hall (all_iff.mp h)] at hstart
  rw [hstart] at h
  have hpid := (h hrunning).2
  rw [pidPresent_act, present_startActions] at hpid
  cases hpid

theorem step_inv {ev : Event} (h : d.Inv) (hsafe : d.Safe ev) (hobliging : d.Obliging ev) (hstep : d.step ev = some d') :
    d'.Inv := by
  cases ev with
  | start e =>
    obtain rfl := Option.some.inj hstep
    exact inv_start h e hsafe
  | stop e =>
    obtain rfl := Option.some.inj hstep
    exact inv_stop h e hobliging

theorem safe_of_clean {ev : Event} (hstep : d.step ev = some d') (h : d'.Clean) : d.Safe ev := by
  cases ev with
  | start e =>
    obtain rfl := Option.some.inj hstep
    exact goes_of_clean h
  | stop e => trivial

theorem runs_isSome (evs : List Event) (d : Daemon) : ∃ d', runs step d evs = some d' := by
  induction evs generalizing d with
  | nil => exact ⟨d, rfl⟩
  | cons ev evs ih => cases ev <;> exact ih _

instance Obliging.decidable (d : Daemon) : (ev : Event) → Decidable (d.Obliging ev)
  | .start _ => isTrue trivial
  | .stop e => inferInstanceAs (Decidable ((∀ s ∈ d.services.values, e.stops s = true) ∧ e.unlinks d.config.pidFile = true))

instance Safe.decidable (d : Daemon) : (ev : Event) → Decidable (d.Safe ev)
  | .start e => inferInstanceAs (Decidable (d.running = false →
      (d.config.daemonize = true → e.daemonizes = true) ∧ e.opens d.config.pidFile = true →
        ∀ s ∈ d.services.values, e.starts s = true))
  | .stop _ => isTrue trivial

/-- A start that fails cleans up exactly when it goes; and in a run whose stops succeed every state is clean exactly when
every start goes. -/
theorem failed_start_cleans (config : DaemonConfig) (services : ServiceRegistry) (evs : List Event) :
    (∀ d e, FailedStartCleans d e ↔ (d.running = false → d.Goes e)) ∧
    (Along step Obliging (construct config services) evs →
      ((∀ evs₁ evs₂ d, evs = evs₁ ++ evs₂ → runs step (construct config services) evs₁ = some d → d.Clean) ↔
        Along step Safe (construct config services) evs)) := by
  refine ⟨failedStartCleans_iff, fun hobliging => ?_⟩
  constructor
  · intro hall
    obtain ⟨d, hrun⟩ := runs_isSome evs (construct config services)
    exact Along.of_good (fun _ _ _ hstep => safe_of_clean hstep) hrun hall
  · rintro hsafe evs₁ evs₂ d rfl hrun
    have hallowed := (hsafe.append hrun).1.and (hobliging.append hrun).1
    exact (runs_invariant (fun _ _ _ h hC => step_inv h hC.1 hC.2) (inv_construct config services) hallowed hrun).clean

def twoServices : ServiceRegistry := ((∅ : ServiceRegistry).insert (ascii "a") 0).insert (ascii "b") 1

/-- A daemon is started and stopped, and the next start cannot open the PID file. -/
def startedTwice : List Event := [.start ⟨true, fun _ => true, fun _ => true, true⟩, .stop ⟨fun _ => true, fun _ => true⟩,
  .start ⟨true, fun _ => false, fun _ => false, true⟩]

theorem failed_start_cleans_again : (runs step (construct ⟨ascii "/tmp/d.pid", false⟩ twoServices) startedTwice).isSome = true ∧
    ∀ evs₁ evs₂ d, startedTwice = evs₁ ++ evs₂ →
      runs step (construct ⟨ascii "/tmp/d.pid", false⟩ twoServices) evs₁ = some d → d.Clean := by
  refine ⟨rfl, ?_⟩
  have hcleans := (failed_start_cleans ⟨ascii "/tmp/d.pid", false⟩ twoServices startedTwice).2
  exact (hcleans (by decide +kernel)).mpr (by decide +kernel)

/-- The second service does not start: the first is left active, and the PID file is left too; a stop does nothing. -/
theorem failed_start_cleans_refused : ∃ d e d', d = construct ⟨ascii "/tmp/d.pid", false⟩ twoServices ∧
    (d.start e).1 = some false ∧ ¬ FailedStartCleans d e ∧
    runs step d [.start e, .stop ⟨fun _ => true, fun _ => true⟩] = some d' ∧
    d'.running = false ∧ d'.active 0 = true ∧ d'.pidPresent = true := by
  refine ⟨_, ⟨true, fun _ => true, fun s => s == 0, true⟩, _, rfl, by decide +kernel, fun h => ?_, rfl, ?_⟩
  · have hgoes := (failedStartCleans_iff _ _).mp h rfl ⟨nofun, rfl⟩ 1 (by decide +kernel)
    cases hgoes
  · decide +kernel

end Daemon

end Passdoq
