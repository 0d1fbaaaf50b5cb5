import Passdoq.Lib.Run
import Passdoq.Daemon.Services

/-!
# The service registry

`ServiceRegistry` in `services.cpp` over runs of its calls, up to its destruction. The log is what the registry does with the
services: it calls them, and it destroys them.

* `registryStep_cases` : what one call does;
* `held` : the service that was registered first under a name and is not unregistered yet;
* `owed` : whether the last successful start of a service is not followed by a stop;
* `NoneDropped` : no service is destroyed while it is owed a stop.
-/

namespace Passdoq.Services

/-! ## The registry -/

inductive ServiceStatus
  | stopped | starting | running | stopping | failed
  deriving DecidableEq

inductive RegistryAction
  | call (call : ServiceCall)
  | destroyed (s : Nat)
  deriving DecidableEq

/-- A registry, the services that were handed over to it, and what it has done with them. -/
structure Registry where
  services : ServiceRegistry
  handed : List Nat
  log : List RegistryAction

namespace Registry

def new : Registry := ⟨∅, [], []⟩

def act (r : Registry) (done : List RegistryAction) : Registry := { r with log := r.log ++ done }

/-- A service is an object and its name, or null. A rejected one is destroyed with the argument that holds it. -/
def registerService (r : Registry) : Option (Nat × Bytes) → Bool × Registry
  | none => (false, r)
  | some (s, name) =>
    let r := { r with handed := s :: r.handed }
    if (r.services.find? name).isSome then (false, r.act [.destroyed s])
    else (true, { r with services := r.services.insert name s })

def unregisterService (r : Registry) (name : Bytes) (status : ServiceStatus) (ok : Bool) : Bool × Registry :=
  match r.services.find? name with
  | none => (false, r)
  | some s =>
    -- stop service if running
    let r := if status = .running then r.act [.call (.stop s ok)] else r
    (true, { r with services := r.services.erase name }.act [.destroyed s])

def startService (r : Registry) (name : Bytes) (ok : Bool) : Bool × Registry :=
  match r.services.find? name with
  | none => (false, r)
  | some s => (ok, r.act [.call (.start s ok)])

def stopService (r : Registry) (name : Bytes) (ok : Bool) : Bool × Registry :=
  match r.services.find? name with
  | none => (false, r)
  | some s => (ok, r.act [.call (.stop s ok)])

def restartService (r : Registry) (name : Bytes) (stops starts : Bool) : Bool × Registry :=
  let (stopped, r) := r.stopService name stops
  if ¬ stopped then (false, r) else r.startService name starts

def startAll (r : Registry) (starts : Nat → Bool) : Bool × Registry :=
  let (allStarted, calls) := Services.startAll r.services starts
  (allStarted, r.act (calls.map .call))

def stopAll (r : Registry) (stops : Nat → Bool) : Bool × Registry :=
  let (allStopped, calls) := Services.stopAll r.services stops
  (allStopped, r.act (calls.map .call))

/-- `~ServiceRegistry`, and then the end of the map and of the services in it. -/
def destroy (r : Registry) (stops : Nat → Bool) : Registry :=
  let r := (r.stopAll stops).2
  { r with services := ∅ }.act (r.services.values.map .destroyed)

end Registry

/-! ## Runs -/

/-- A call of the registry, with what the services answer. -/
inductive RegistryEvent
  | register (service : Option (Nat × Bytes))
  | unregister (name : Bytes) (status : ServiceStatus) (ok : Bool)
  | start (name : Bytes) (ok : Bool)
  | stop (name : Bytes) (ok : Bool)
  | restart (name : Bytes) (stops starts : Bool)
  | startAll (starts : Nat → Bool)
  | stopAll (stops : Nat → Bool)

/-- One call; a service is an object of its own, so none is handed over twice. -/
def registryStep (r : Registry) : RegistryEvent → Option Registry
  | .register service => if ∀ x ∈ service, x.1 ∉ r.handed then some (r.registerService service).2 else none
  | .unregister name status ok => some (r.unregisterService name status ok).2
  | .start name ok => some (r.startService name ok).2
  | .stop name ok => some (r.stopService name ok).2
  | .restart name stops starts => some (r.restartService name stops starts).2
  | .startAll starts => some (r.startAll starts).2
  | .stopAll stops => some (r.stopAll stops).2

def RegistryEvent.registers (name : Bytes) : RegistryEvent → Option Nat
  | .register (some (s, n)) => if n = name then some s else none
  | _ => none

/-- Whether the event unregisters the name. -/
def RegistryEvent.unregisters (name : Bytes) : RegistryEvent → Bool
  | .unregister n _ _ => n = name
  | _ => false

@[simp] theorem registers_register (name n : Bytes) (s : Nat) :
    RegistryEvent.registers name (.register (some (s, n))) = if n = name then some s else none := rfl

@[simp] theorem unregisters_register (name : Bytes) (service : Option (Nat × Bytes)) :
    RegistryEvent.unregisters name (.register service) = false := rfl

@[simp] theorem registers_unregister (name n : Bytes) (status : ServiceStatus) (ok : Bool) :
    RegistryEvent.registers name (.unregister n status ok) = none := rfl

@[simp] theorem unregisters_unregister (name n : Bytes) (status : ServiceStatus) (ok : Bool) :
    RegistryEvent.unregisters name (.unregister n status ok) = decide (n = name) := rfl

/-- The first service registered under the name since the name was last unregistered. -/
def held (name : Bytes) (evs : List RegistryEvent) : Option Nat :=
  (evs.rtakeWhile fun ev => !ev.unregisters name).findSome? (·.registers name)

/-- Whether a service is owed a stop after an action, when `was` says whether it was before. -/
def owedAfter (s : Nat) (was : Bool) : RegistryAction → Bool
  | .call (.start s' true) => if s' = s then true else was
  | .call (.stop s' _) => if s' = s then false else was
  | _ => was

/-- Whether the last successful start of the service is not followed by a stop. -/
def owed (s : Nat) (log : List RegistryAction) : Bool := log.foldl (owedAfter s) false

/-- No service is destroyed while it is owed a stop. -/
def NoneDropped (log : List RegistryAction) : Prop :=
  ∀ before s after, log = before ++ .destroyed s :: after → owed s before = false

/-- Unregistering finds the service running, or it is owed no stop. -/
def FindsRunning (r : Registry) : RegistryEvent → Prop
  | .unregister name status _ => ∀ s ∈ r.services.find? name, status = .running ∨ owed s r.log = false
  | _ => True

instance findsRunningDecidable (r : Registry) : (ev : RegistryEvent) → Decidable (FindsRunning r ev)
  | .unregister name status _ =>
    inferInstanceAs (Decidable (∀ s ∈ r.services.find? name, status = .running ∨ owed s r.log = false))
  | .register _ | .start _ _ | .stop _ _ | .restart _ _ _ | .startAll _ | .stopAll _ => isTrue trivial

variable {r r' : Registry} {ev : RegistryEvent} {evs : List RegistryEvent} {s : Nat} {log log' : List RegistryAction}
  {calls : List ServiceCall} {name : Bytes}

theorem owed_snoc (s : Nat) (log : List RegistryAction) (a : RegistryAction) :
    owed s (log ++ [a]) = owedAfter s (owed s log) a := by
  unfold owed
  rw [List.foldl_append]
  rfl

/-- The service a call is made on. -/
def ServiceCall.on : ServiceCall → Nat
  | .start s _ => s
  | .stop s _ => s

/-- Calls of other services change nothing for this one. -/
theorem owed_calls (h : ∀ call ∈ calls, call.on ≠ s) : owed s (log ++ calls.map .call) = owed s log := by
  induction calls using List.reverseRecOn with
  | nil => simp
  | append_singleton calls call ih =>
    have hlast : call.on ≠ s := h call (by simp)
    have hcall : owedAfter s (owed s log) (.call call) = owed s log := by
      cases call with
      | start s' ok => cases ok <;> simp [owedAfter, show s' ≠ s from hlast]
      | stop s' ok => simp [owedAfter, show s' ≠ s from hlast]
    rw [List.map_append, ← List.append_assoc, List.map_singleton, owed_snoc,
      ih fun call hmem => h call (List.mem_append_left _ hmem), hcall]

/-- Destroying services changes nothing for what others are owed. -/
theorem owed_destroyed (ids : List Nat) : owed s (log ++ ids.map .destroyed) = owed s log := by
  induction ids using List.reverseRecOn with
  | nil => simp
  | append_singleton ids id ih =>
    rw [List.map_append, ← List.append_assoc, List.map_singleton, owed_snoc, ih]
    rfl

/-- A service that is told to stop, and is not told to start again, is owed nothing. -/
theorem owed_stops (stops : Nat → Bool) {ids : List Nat} (h : s ∈ ids) :
    owed s (log ++ (ids.map fun s => ServiceCall.stop s (stops s)).map .call) = false := by
  induction ids using List.reverseRecOn with
  | nil => cases h
  | append_singleton ids id ih =>
    rw [List.map_append, List.map_append, ← List.append_assoc, List.map_singleton, List.map_singleton, owed_snoc]
    by_cases hid : id = s
    · simp [owedAfter, hid]
    · have hmem : s ∈ ids := (List.mem_append.mp h).resolve_right fun hlast => hid (List.mem_singleton.mp hlast).symm
      rw [ih hmem]
      simp [owedAfter, hid]

theorem NoneDropped.left (h : NoneDropped (log ++ log')) : NoneDropped log := by
  rintro before s after rfl
  exact h before s (after ++ log') (by simp)

theorem noneDropped_snoc (a : RegistryAction) :
    NoneDropped (log ++ [a]) ↔ NoneDropped log ∧ ∀ s, a = .destroyed s → owed s log = false := by
  constructor
  · intro h
    refine ⟨h.left, ?_⟩
    rintro s rfl
    exact h log s [] rfl
  · rintro ⟨h, hlast⟩ before s after hsplit
    rcases List.eq_nil_or_concat after with rfl | ⟨after, b, rfl⟩
    · obtain ⟨rfl, ha⟩ := List.append_inj' hsplit rfl
      exact hlast s (List.singleton_inj.mp ha)
    · have hsplit : log ++ [a] = (before ++ .destroyed s :: after) ++ [b] := by simpa using hsplit
      exact h before s after (List.append_inj' hsplit rfl).1

theorem noneDropped_calls (h : NoneDropped log) : NoneDropped (log ++ calls.map .call) := by
  induction calls using List.reverseRecOn with
  | nil => simpa using h
  | append_singleton calls call ih =>
    rw [List.map_append, ← List.append_assoc, List.map_singleton, noneDropped_snoc]
    exact ⟨ih, nofun⟩

theorem noneDropped_destroyed (h : NoneDropped log) {ids : List Nat} (hids : ∀ s ∈ ids, owed s log = false) :
    NoneDropped (log ++ ids.map .destroyed) := by
  induction ids using List.reverseRecOn with
  | nil => simpa using h
  | append_singleton ids id ih =>
    rw [List.map_append, ← List.append_assoc, List.map_singleton, noneDropped_snoc]
    refine ⟨ih fun s hs => hids s (List.mem_append_left _ hs), ?_⟩
    intro s hs
    obtain rfl := RegistryAction.destroyed.inj hs
    rw [owed_destroyed]
    exact hids id (by simp)

/-! ## What one call does -/

namespace Registry

/-- The second registry is the first after calls of its services. -/
def Calls (r r' : Registry) : Prop :=
  ∃ calls : List ServiceCall, (∀ call ∈ calls, call.on ∈ r.services.values) ∧ r' = r.act (calls.map .call)

theorem act_nil (r : Registry) : r.act [] = r := by simp [act]

theorem act_act (r : Registry) (done done' : List RegistryAction) : (r.act done).act done' = r.act (done ++ done') := by
  simp [act]

theorem Calls.refl (r : Registry) : Calls r r := ⟨[], nofun, (act_nil r).symm⟩

theorem Calls.trans {r'' : Registry} (h : Calls r r') (h' : Calls r' r'') : Calls r r'' := by
  obtain ⟨calls, hcalls, rfl⟩ := h
  obtain ⟨calls', hcalls', rfl⟩ := h'
  refine ⟨calls ++ calls', fun call hcall => ?_, by rw [act_act, List.map_append]⟩
  rcases List.mem_append.mp hcall with hmem | hmem
  · exact hcalls call hmem
  · exact hcalls' call hmem

theorem Calls.one (hfind : r.services.find? name = some s) {call : ServiceCall} (hon : call.on = s) :
    Calls r (r.act [.call call]) := by
  refine ⟨[call], fun c hc => ?_, rfl⟩
  rw [List.mem_singleton.mp hc, hon]
  exact OrdMap.mem_values.mpr ⟨name, hfind⟩

theorem calls_startService (r : Registry) (name : Bytes) (ok : Bool) : Calls r (r.startService name ok).2 := by
  unfold startService
  cases hfind : r.services.find? name with
  | none => exact Calls.refl r
  | some s => exact Calls.one hfind rfl

theorem calls_stopService (r : Registry) (name : Bytes) (ok : Bool) : Calls r (r.stopService name ok).2 := by
  unfold stopService
  cases hfind : r.services.find? name with
  | none => exact Calls.refl r
  | some s => exact Calls.one hfind rfl

theorem calls_restartService (r : Registry) (name : Bytes) (stops starts : Bool) :
    Calls r (r.restartService name stops starts).2 := by
  unfold restartService
  dsimp only
  split_ifs
  · exact (calls_stopService r name stops).trans (calls_startService _ name starts)
  · exact calls_stopService r name stops

theorem calls_startAll (r : Registry) (starts : Nat → Bool) : Calls r (r.startAll starts).2 := by
  unfold startAll
  rw [startAll_eq]
  refine ⟨_, fun call hcall => ?_, rfl⟩
  obtain ⟨s, hs, rfl⟩ := List.mem_map.mp hcall
  exact hs

theorem calls_stopAll (r : Registry) (stops : Nat → Bool) : Calls r (r.stopAll stops).2 := by
  unfold stopAll
  rw [stopAll_eq]
  refine ⟨_, fun call hcall => ?_, rfl⟩
  obtain ⟨s, hs, rfl⟩ := List.mem_map.mp hcall
  exact hs

end Registry

open Registry

/-- What one call does: it calls services that are registered, or a new service is registered or rejected, or a registered
one is unregistered. -/
theorem registryStep_cases (h : registryStep r ev = some r') :
    (Calls r r' ∧ (∀ name, ev.registers name = none) ∧ ∀ name, ev.unregisters name = true → r.services.find? name = none) ∨
    (∃ s name, ev = .register (some (s, name)) ∧ s ∉ r.handed ∧ r.services.find? name = none ∧
      r' = { r with services := r.services.insert name s, handed := s :: r.handed }) ∨
    (∃ s name, ev = .register (some (s, name)) ∧ s ∉ r.handed ∧ (r.services.find? name).isSome = true ∧
      r' = { r with handed := s :: r.handed }.act [.destroyed s]) ∨
    ∃ s name status ok, ev = .unregister name status ok ∧ r.services.find? name = some s ∧
      r' = ({ r with services := r.services.erase name }.act
        (if status = ServiceStatus.running then [.call (.stop s ok)] else [])).act [.destroyed s] := by
  cases ev with
  | register service =>
    simp only [registryStep] at h
    split_ifs at h with hnew
    obtain rfl := Option.some.inj h
    cases service with
    | none => exact .inl ⟨Calls.refl r, fun _ => rfl, nofun⟩
    | some x =>
      obtain ⟨s, name⟩ := x
      have hnew : s ∉ r.handed := hnew _ rfl
      cases hfind : r.services.find? name with
      | none =>
        refine .inr (.inl ⟨s, name, rfl, hnew, hfind, ?_⟩)
        simp [registerService, hfind]
      | some s' =>
        refine .inr (.inr (.inl ⟨s, name, rfl, hnew, by simp [hfind], ?_⟩))
        simp [registerService, hfind]
  | unregister name status ok =>
    obtain rfl := Option.some.inj h
    unfold unregisterService
    cases hfind : r.services.find? name with
    | none =>
      refine .inl ⟨Calls.refl r, fun _ => rfl, fun name' hname => ?_⟩
      rw [← of_decide_eq_true hname]
      exact hfind
    | some s =>
      refine .inr (.inr (.inr ⟨s, name, status, ok, rfl, hfind, ?_⟩))
      by_cases hstatus : status = .running <;> simp [hstatus, act]
  | start name ok =>
    obtain rfl := Option.some.inj h
    exact .inl ⟨calls_startService r name ok, fun _ => rfl, nofun⟩
  | stop name ok =>
    obtain rfl := Option.some.inj h
    exact .inl ⟨calls_stopService r name ok, fun _ => rfl, nofun⟩
  | restart name stops starts =>
    obtain rfl := Option.some.inj h
    exact .inl ⟨calls_restartService r name stops starts, fun _ => rfl, nofun⟩
  | startAll starts =>
    obtain rfl := Option.some.inj h
    exact .inl ⟨calls_startAll r starts, fun _ => rfl, nofun⟩
  | stopAll stops =>
    obtain rfl := Option.some.inj h
    exact .inl ⟨calls_stopAll r stops, fun _ => rfl, nofun⟩

/-! ## Which service has a name -/

theorem held_snoc (name : Bytes) (evs : List RegistryEvent) (ev : RegistryEvent) :
    held name (evs ++ [ev]) = if ev.unregisters name then none else (held name evs).or (ev.registers name) := by
  unfold held
  rw [List.rtakeWhile_concat]
  cases hun : ev.unregisters name with
  | true => rfl
  | false =>
    rw [if_pos (by rfl), if_neg Bool.false_ne_true, List.findSome?_append]
    simp

/-- Each name leads to the service registered first under it among those not unregistered. -/
theorem services_held (hrun : runs registryStep .new evs = some r) (name : Bytes) :
    r.services.find? name = held name evs := by
  induction evs using List.reverseRecOn generalizing r name with
  | nil =>
    obtain rfl := Option.some.inj hrun
    rfl
  | append_singleton evs ev ih =>
    obtain ⟨before, hbefore, hstep⟩ := runs_snoc.mp hrun
    have ih := ih hbefore
    rw [held_snoc, ← ih]
    rcases registryStep_cases hstep with ⟨⟨calls, -, rfl⟩, hregisters, hunregisters⟩ | ⟨s, n, rfl, -, hfind, rfl⟩ |
      ⟨s, n, rfl, -, hfind, rfl⟩ | ⟨s, n, status, ok, rfl, hfind, rfl⟩
    · show before.services.find? name = _
      rw [hregisters name, Option.or_none]
      split_ifs with hun
      · exact hunregisters name hun
      · rfl
    · show (before.services.insert n s).find? name = _
      rw [OrdMap.find?_insert, unregisters_register, if_neg Bool.false_ne_true, registers_register]
      by_cases hname : n = name
      · rw [if_pos hname, if_pos hname, ← hname, hfind]
        rfl
      · rw [if_neg hname, if_neg hname, Option.or_none]
    · show before.services.find? name = _
      rw [unregisters_register, if_neg Bool.false_ne_true, registers_register]
      by_cases hname : n = name
      · obtain ⟨s', hs'⟩ := Option.isSome_iff_exists.mp hfind
        rw [← hname, hs']
        rfl
      · rw [if_neg hname, Option.or_none]
    · show (before.services.erase n).find? name = _
      rw [OrdMap.find?_erase, unregisters_unregister, registers_unregister, Option.or_none]
      by_cases hname : n = name <;> simp [hname]

/-! ## No service is dropped -/

/-- The registry has seen the services it holds and those that are owed a stop, and it has dropped none. -/
structure Accounted (r : Registry) : Prop where
  known : ∀ s ∈ r.services.values, s ∈ r.handed
  started : ∀ s, owed s r.log = true → s ∈ r.handed
  noneDropped : NoneDropped r.log

theorem Accounted.new : Accounted .new where
  known := nofun
  started := nofun
  noneDropped := by
    intro before s after h
    simp [Registry.new] at h

theorem Accounted.after_calls (h : Accounted r) (hcalls : Calls r r') : Accounted r' := by
  obtain ⟨calls, hon, rfl⟩ := hcalls
  refine ⟨h.known, fun s hs => ?_, noneDropped_calls h.noneDropped⟩
  by_cases hcall : ∃ call ∈ calls, call.on = s
  · obtain ⟨call, hmem, rfl⟩ := hcall
    exact h.known _ (hon call hmem)
  · have hsame : owed s (r.log ++ calls.map .call) = owed s r.log :=
      owed_calls fun call hmem he => hcall ⟨call, hmem, he⟩
    exact h.started s (hsame ▸ hs)

theorem Accounted.step (h : Accounted r) (hfinds : FindsRunning r ev) (hstep : registryStep r ev = some r') :
    Accounted r' := by
  rcases registryStep_cases hstep with ⟨hcalls, -, -⟩ | ⟨s, n, rfl, -, hfind, rfl⟩ | ⟨s, n, rfl, hnew, -, rfl⟩ |
    ⟨s, n, status, ok, rfl, hfind, rfl⟩
  · exact h.after_calls hcalls
  · refine ⟨fun s' hs' => ?_, fun s' hs' => List.mem_cons_of_mem s (h.started s' hs'), h.noneDropped⟩
    have hmem := (OrdMap.values_insert_of_find?_none hfind s).mem_iff.mp hs'
    rcases List.mem_cons.mp hmem with rfl | hmem
    · exact List.mem_cons_self
    · exact List.mem_cons_of_mem s (h.known s' hmem)
  · refine ⟨fun s' hs' => List.mem_cons_of_mem s (h.known s' hs'), fun s' hs' => ?_, ?_⟩
    · have hsame : owed s' (r.log ++ [.destroyed s]) = owed s' r.log := owed_destroyed [s]
      exact List.mem_cons_of_mem s (h.started s' (hsame ▸ hs'))
    · refine (noneDropped_snoc _).mpr ⟨h.noneDropped, fun s' hs' => ?_⟩
      obtain rfl := RegistryAction.destroyed.inj hs'
      exact Bool.eq_false_iff.mpr fun howed => hnew (h.started s howed)
  · -- the service that leaves is known, and it is told to stop or owed nothing
    have hknown : s ∈ r.handed := h.known s (OrdMap.mem_values.mpr ⟨n, hfind⟩)
    have hmiddle : ∃ calls : List ServiceCall, (if status = .running then [RegistryAction.call (.stop s ok)] else []) =
        calls.map .call ∧ (∀ call ∈ calls, call.on = s) ∧ owed s (r.log ++ calls.map .call) = false := by
      by_cases hstatus : status = ServiceStatus.running
      · refine ⟨[.stop s ok], if_pos hstatus, fun call hcall => by rw [List.mem_singleton.mp hcall]; rfl, ?_⟩
        exact owed_stops (fun _ => ok) (List.mem_singleton_self s)
      · refine ⟨[], if_neg hstatus, nofun, ?_⟩
        rw [List.map_nil, List.append_nil]
        exact (hfinds s hfind).resolve_left hstatus
    obtain ⟨calls, hcalls, hon, howed⟩ := hmiddle
    rw [hcalls]
    refine ⟨fun s' hs' => ?_, fun s' hs' => ?_, ?_⟩
    · obtain ⟨n', hn'⟩ := OrdMap.mem_values.mp hs'
      have hn' : (r.services.erase n).find? n' = some s' := hn'
      rw [OrdMap.find?_erase] at hn'
      split_ifs at hn' with hname
      exact h.known s' (OrdMap.mem_values.mpr ⟨n', hn'⟩)
    · have hs' : owed s' ((r.log ++ calls.map .call) ++ [.destroyed s]) = true := hs'
      rw [show [RegistryAction.destroyed s] = [s].map .destroyed from rfl, owed_destroyed] at hs'
      by_cases hsame : s = s'
      · exact hsame ▸ hknown
      · rw [owed_calls fun call hcall => by rw [hon call hcall]; exact hsame] at hs'
        exact h.started s' hs'
    · refine (noneDropped_snoc _).mpr ⟨noneDropped_calls h.noneDropped, fun s' hs' => ?_⟩
      obtain rfl := RegistryAction.destroyed.inj hs'
      exact howed

/-- The destruction tells every service to stop before it goes. -/
theorem Accounted.destroy (h : Accounted r) (stops : Nat → Bool) : NoneDropped (r.destroy stops).log := by
  unfold Registry.destroy Registry.stopAll
  rw [stopAll_eq]
  exact noneDropped_destroyed (noneDropped_calls h.noneDropped) fun s hs => owed_stops stops hs

/-- A call that drops no service finds the service it unregisters running, or owed nothing. -/
theorem findsRunning_of_noneDropped (hstep : registryStep r ev = some r') (h : NoneDropped r'.log) : FindsRunning r ev := by
  rcases registryStep_cases hstep with ⟨-, -, hunregisters⟩ | ⟨s, n, rfl, -⟩ | ⟨s, n, rfl, -⟩ |
    ⟨s, n, status, ok, rfl, hfind, rfl⟩
  · cases ev with
    | unregister n status ok =>
      intro s hfind
      rw [hunregisters n (decide_eq_true rfl)] at hfind
      cases hfind
    | _ => trivial
  · trivial
  · trivial
  · intro s' hs'
    obtain rfl := Option.some.inj (hfind.symm.trans hs')
    by_cases hstatus : status = .running
    · exact .inl hstatus
    · rw [if_neg hstatus, act_nil] at h
      exact .inr (((noneDropped_snoc _).mp h).2 s rfl)

/-- The log only grows. -/
theorem log_prefix_step (hstep : registryStep r ev = some r') : r.log <+: r'.log := by
  rcases registryStep_cases hstep with ⟨⟨calls, -, rfl⟩, -⟩ | ⟨s, n, -, -, -, rfl⟩ | ⟨s, n, -, -, -, rfl⟩ |
    ⟨s, n, status, ok, -, -, rfl⟩
  · exact List.prefix_append _ _
  · exact List.prefix_refl _
  · exact List.prefix_append _ _
  · exact (List.prefix_append _ _).trans (List.prefix_append _ _)

theorem log_prefix (hrun : runs registryStep r evs = some r') : r.log <+: r'.log :=
  runs_preserves (fun _ _ _ h hstep => List.IsPrefix.trans h (log_prefix_step hstep)) (I := fun r' => r.log <+: r'.log)
    (List.prefix_refl r.log) hrun

/-- At every point of the run each name leads to the service registered first under it, and up to the end of the registry no
service is dropped. -/
def KeepsServices (evs : List RegistryEvent) (r : Registry) (stops : Nat → Bool) : Prop :=
  (∀ evs₁ evs₂ r₁, evs = evs₁ ++ evs₂ → runs registryStep .new evs₁ = some r₁ →
    ∀ name, r₁.services.find? name = held name evs₁) ∧ NoneDropped (r.destroy stops).log

/-- A run that ends with the destruction keeps the services exactly when every service that is unregistered is found running
or is owed no stop. -/
theorem keepsServices_iff (hrun : runs registryStep .new evs = some r) (stops : Nat → Bool) :
    KeepsServices evs r stops ↔ Along registryStep FindsRunning .new evs := by
  constructor
  · rintro ⟨-, hnone⟩
    have hlast : NoneDropped r.log := by
      unfold Registry.destroy Registry.stopAll at hnone
      rw [stopAll_eq] at hnone
      exact hnone.left.left
    refine Along.of_good (fun _ _ _ hstep => findsRunning_of_noneDropped hstep) hrun ?_
    rintro evs₁ evs₂ r₁ rfl hrun₁
    obtain ⟨r₂, hr₂, hrest⟩ := runs_append.mp hrun
    obtain rfl := Option.some.inj (hrun₁.symm.trans hr₂)
    obtain ⟨more, hmore⟩ := log_prefix hrest
    rw [← hmore] at hlast
    exact hlast.left
  · intro hfinds
    refine ⟨fun evs₁ evs₂ r₁ _ hrun₁ => services_held hrun₁, ?_⟩
    have haccounted := runs_invariant (fun _ _ _ h hC hstep => Accounted.step h hC hstep) Accounted.new hfinds hrun
    exact haccounted.destroy stops

/-- Two services; a third one is rejected for its name, and one is unregistered while it starts, after it was told to stop. -/
def stoppedFirst : List RegistryEvent :=
  [.register (some (0, ascii "web")), .register (some (1, ascii "rpc")), .register (some (2, ascii "web")),
    .start (ascii "web") true, .startAll fun s => s == 1, .stop (ascii "web") false, .unregister (ascii "web") .starting true, .register none]

theorem stoppedFirst_keeps : ∃ r, runs registryStep .new stoppedFirst = some r ∧
    ∀ stops, KeepsServices stoppedFirst r stops := by
  obtain ⟨r, hrun⟩ : ∃ r, runs registryStep .new stoppedFirst = some r := Option.isSome_iff_exists.mp (by decide +kernel)
  have hfinds : Along registryStep FindsRunning .new stoppedFirst := by decide +kernel
  exact ⟨r, hrun, fun stops => (keepsServices_iff hrun stops).mpr hfinds⟩

/-- A started service that still reports `STARTING` when it is unregistered is destroyed and never told to stop. -/
theorem not_keepsServices : ¬ ∀ evs r stops, runs registryStep .new evs = some r → KeepsServices evs r stops := by
  intro h
  have hkeeps := h [.register (some (0, ascii "web")), .start (ascii "web") true, .unregister (ascii "web") .starting true] _
    (fun _ => true) rfl
  have howed : owed 0 [.call (.start 0 true)] = false := hkeeps.2 [.call (.start 0 true)] 0 [] rfl
  cases howed

end Passdoq.Services
