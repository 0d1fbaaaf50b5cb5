import Passdoq.Lib.Bytes
import Passdoq.Lib.OrdMap

/-!
# Services

`start_all` and `stop_all` of `ServiceRegistry` in `services.cpp`. A service is an object that answers each call; the calls
are kept with their answers.

* `startAll_eq`, `stopAll_eq` : every service is called once, whatever the others answer;
* `active` : whether a service runs after some calls.
-/

namespace Passdoq.Services

/-- A call of `start` or `stop` on the service `s`, and what it returned. -/
inductive ServiceCall
  | start (s : Nat) (ok : Bool)
  | stop (s : Nat) (ok : Bool)
  deriving DecidableEq

/-- The services, which are objects with an identity, by their names. -/
abbrev ServiceRegistry := OrdMap Bytes Nat

def startAll (services : ServiceRegistry) (starts : Nat → Bool) : Bool × List ServiceCall :=
  services.values.foldl (fun x s => (if ¬ starts s then false else x.1, x.2 ++ [.start s (starts s)])) (true, [])

def stopAll (services : ServiceRegistry) (stops : Nat → Bool) : Bool × List ServiceCall :=
  services.values.foldl (fun x s => (if ¬ stops s then false else x.1, x.2 ++ [.stop s (stops s)])) (true, [])

/-- A loop that calls every service and remembers whether one failed. -/
theorem foldl_calls (call : Nat → ServiceCall) (ok : Nat → Bool) (ids : List Nat) (b : Bool) (calls : List ServiceCall) :
    ids.foldl (fun x s => (if ¬ ok s then false else x.1, x.2 ++ [call s])) (b, calls) =
      (b && ids.all ok, calls ++ ids.map call) := by
  induction ids generalizing b calls with
  | nil => simp
  | cons s ids ih =>
    rw [List.foldl_cons, ih]
    cases hs : ok s <;> simp [hs]

theorem startAll_eq (services : ServiceRegistry) (starts : Nat → Bool) : startAll services starts =
    (services.values.all starts, services.values.map fun s => .start s (starts s)) := by
  unfold startAll
  rw [foldl_calls (fun s => .start s (starts s)) starts]
  simp

theorem stopAll_eq (services : ServiceRegistry) (stops : Nat → Bool) : stopAll services stops =
    (services.values.all stops, services.values.map fun s => .stop s (stops s)) := by
  unfold stopAll
  rw [foldl_calls (fun s => .stop s (stops s)) stops]
  simp

/-- Whether the service `s` runs after a call, when `was` says whether it ran before. -/
def runsAfter (s : Nat) (was : Bool) : ServiceCall → Bool
  | .start s' true => if s' = s then true else was
  | .stop s' true => if s' = s then false else was
  | _ => was

/-- Whether the service `s` runs after these calls. -/
def activeFrom (s : Nat) (was : Bool) (calls : List ServiceCall) : Bool := calls.foldl (runsAfter s) was

variable {s : Nat} {was : Bool} {calls : List ServiceCall} {ids : List Nat}

theorem activeFrom_append (s : Nat) (was : Bool) (calls calls' : List ServiceCall) :
    activeFrom s was (calls ++ calls') = activeFrom s (activeFrom s was calls) calls' := List.foldl_append

/-- Starting services makes only these active. -/
theorem active_of_starts {starts : Nat → Bool} (h : activeFrom s was (ids.map fun s => .start s (starts s)) = true) :
    was = true ∨ s ∈ ids := by
  induction ids generalizing was with
  | nil => exact .inl h
  | cons s' ids ih =>
    have hrest : activeFrom s (runsAfter s was (.start s' (starts s'))) (ids.map fun s => .start s (starts s)) = true := h
    rcases ih hrest with hfirst | hmem
    · by_cases hs : s' = s
      · exact .inr (hs ▸ List.mem_cons_self)
      · left
        cases hok : starts s' <;> simpa [runsAfter, hok, hs] using hfirst
    · exact .inr (List.mem_cons_of_mem s' hmem)

/-- Services that stop are not active, and nothing else becomes so. -/
theorem active_of_stops {stops : Nat → Bool} (hstops : ∀ s ∈ ids, stops s = true)
    (h : activeFrom s was (ids.map fun s => .stop s (stops s)) = true) : was = true ∧ s ∉ ids := by
  induction ids generalizing was with
  | nil => exact ⟨h, List.not_mem_nil⟩
  | cons s' ids ih =>
    have hrest : activeFrom s (runsAfter s was (.stop s' (stops s'))) (ids.map fun s => .stop s (stops s)) = true := h
    obtain ⟨hfirst, hmem⟩ := ih (fun s hs => hstops s (List.mem_cons_of_mem s' hs)) hrest
    rw [hstops s' List.mem_cons_self, runsAfter] at hfirst
    split_ifs at hfirst with hs
    exact ⟨hfirst, by simp [Ne.symm hs, hmem]⟩

/-- Whatever services answer when they are told to stop, none becomes active. -/
theorem active_of_told {stops : Nat → Bool} (h : activeFrom s was (ids.map fun s => .stop s (stops s)) = true) :
    was = true := by
  induction ids generalizing was with
  | nil => exact h
  | cons s' ids ih =>
    have hfirst : runsAfter s was (.stop s' (stops s')) = true := ih h
    cases hok : stops s' with
    | false =>
      rw [hok] at hfirst
      exact hfirst
    | true =>
      rw [hok, runsAfter] at hfirst
      split_ifs at hfirst
      exact hfirst

end Passdoq.Services
