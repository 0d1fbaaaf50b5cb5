import Passdoq.Lib.Run
import Passdoq.Vault.Entry

/-!
# Events of addons

`init_addon`, `addon.on` and `trigger_event` in `lua.cpp`. A handler is a Lua function, kept by its identity; the calls of
handlers are recorded with what they are called with.

* `HandlerTable.length` : the length of a Lua table; `Sequence hs t` : the table holds exactly `hs` at 1, 2, ...;
* `callHandlers` : the loop of a trigger, which an error of a handler leaves;
* `Registered evs engine` : after a run the table of every event holds the handlers registered for it;
* `ReachesAll` : a trigger calls every handler registered for its event.
-/

namespace Passdoq.Lua

/-! ## Tables -/

/-- A Lua table from integers to functions. -/
abbrev HandlerTable := OrdMap Nat Nat

/-- `#t`: a number `n` with nothing at `n + 1`. -/
def HandlerTable.length (t : HandlerTable) : Nat :=
  ((List.range (t.size + 1)).find? fun n => (t.find? (n + 1)).isNone).getD 0

/-- The pairs of the sequence `hs`: its first element at 1. -/
def numbered (hs : List Nat) : List (Nat × Nat) := (List.range' 1 hs.length).zip hs

/-- The table holds exactly the elements of `hs`, in order from 1 on. -/
def Sequence (hs : List Nat) (t : HandlerTable) : Prop := t.toList = numbered hs

variable {hs : List Nat} {t : HandlerTable}

theorem keys_numbered (hs : List Nat) : (numbered hs).map Prod.fst = List.range' 1 hs.length :=
  List.map_fst_zip (by simp)

theorem values_numbered (hs : List Nat) : (numbered hs).map Prod.snd = hs :=
  List.map_snd_zip (by simp)

theorem numbered_append (hs : List Nat) (h : Nat) : numbered (hs ++ [h]) = numbered hs ++ [(hs.length + 1, h)] := by
  unfold numbered
  rw [List.length_append, List.length_singleton, List.range'_1_concat, List.zip_append (by simp), Nat.add_comm 1]
  rfl

theorem Sequence.find?_isNone (h : Sequence hs t) (n : Nat) : (t.find? (n + 1)).isNone = decide (hs.length ≤ n) := by
  have hkeys : (∀ p ∈ t.toList, p.1 ≠ n + 1) ↔ n + 1 ∉ t.toList.map Prod.fst := by
    simp only [List.mem_map, not_exists, not_and]
  have hnone : t.find? (n + 1) = none ↔ hs.length ≤ n := by
    rw [OrdMap.find?_eq_none, hkeys, h, keys_numbered, List.mem_range'_1]
    omega
  rw [Bool.eq_iff_iff, Option.isNone_iff_eq_none, hnone, decide_eq_true_eq]

theorem Sequence.length_eq (h : Sequence hs t) : t.length = hs.length := by
  have hsize : t.size = hs.length := by
    have hlen := congrArg List.length (keys_numbered hs)
    rw [← h, List.length_map, List.length_range'] at hlen
    exact hlen
  have hfind : ((List.range (t.size + 1)).find? fun n => (t.find? (n + 1)).isNone) = some hs.length := by
    rw [List.find?_range_eq_some]
    refine ⟨?_, ?_, fun n hn => ?_⟩
    · rw [h.find?_isNone, decide_eq_true_eq]
    · rw [List.mem_range, hsize]
      exact Nat.lt_succ_self _
    · rw [h.find?_isNone, decide_eq_false (Nat.not_le.mpr hn)]
      rfl
  unfold HandlerTable.length
  rw [hfind]
  rfl

/-- `t[#t + 1] = h` puts `h` at the end of a sequence. -/
theorem Sequence.push (h : Sequence hs t) (handler : Nat) : Sequence (hs ++ [handler]) (t.insert (t.length + 1) handler) := by
  have hlt : ∀ p ∈ t.toList, p.1 < t.length + 1 := by
    intro p hp
    have hkey : p.1 ∈ List.range' 1 hs.length := by
      rw [← keys_numbered, ← h]
      exact List.mem_map_of_mem hp
    rw [List.mem_range'_1] at hkey
    rw [h.length_eq]
    omega
  show OrdMap.insertList (t.length + 1) handler t.toList = _
  rw [OrdMap.insertList_of_forall_lt hlt, h.length_eq, h, numbered_append]

/-! ## The engine -/

structure AddonInfo where
  name : Bytes
  author : Bytes
  maintainer : Bytes
  version : Bytes
  deriving DecidableEq

/-- The table given to `init_addon`: the fields that are strings. -/
structure AddonTable where
  name : Option Bytes
  author : Option Bytes
  maintainer : Option Bytes
  version : Option Bytes

/-- The table that a handler gets for an entry. -/
structure EntryTable where
  id : Bytes
  name : Bytes
  username : Bytes
  deriving DecidableEq

def entryTable (entry : Entry) : EntryTable where
  id := entry.id
  name := entry.name
  username := entry.username

structure HandlerCall where
  handler : Nat
  arg : Option EntryTable
  deriving DecidableEq

/-- What the engine reads of a Lua state: the global `_passdoq_events`. -/
structure LuaState where
  events : Option (OrdMap Bytes HandlerTable)

structure LuaEngine where
  lua : Option LuaState
  addons : List AddonInfo
  calls : List HandlerCall

def LuaEngine.new : LuaEngine := ⟨none, [], []⟩

def LuaEngine.init (engine : LuaEngine) : LuaEngine := { engine with lua := some ⟨none⟩ }

namespace LuaEngine

/-- `lpassdoq.init_addon`. -/
def initAddon (engine : LuaEngine) (info : AddonTable) : LuaEngine :=
  let addon : AddonInfo := {
    name := info.name.getD (ascii "Unknown")
    author := info.author.getD (ascii "Unknown")
    maintainer := info.maintainer.getD (ascii "Unknown")
    version := info.version.getD (ascii "1.0.0") }
  { engine with addons := engine.addons ++ [addon] }

/-- `addon.on`. -/
def on (engine : LuaEngine) (eventName : Bytes) (handler : Nat) : LuaEngine :=
  match engine.lua with
  | none => engine
  | some lua =>
    let events := lua.events.getD ∅
    let handlers := (events.find? eventName).getD ∅
    let handlers := handlers.insert (handlers.length + 1) handler
    { engine with lua := some ⟨some (events.insert eventName handlers)⟩ }

/-- The calls of the loop over a table; `raises i` says that the handler at `i` ends with an error, and that ends the loop. -/
def callHandlers (arg : Option EntryTable) (raises : Nat → Bool) : List (Nat × Nat) → List HandlerCall
  | [] => []
  | (i, handler) :: pairs => ⟨handler, arg⟩ :: if raises i then [] else callHandlers arg raises pairs

/-- What both forms of `trigger_event` do with the argument that the handlers get. -/
def trigger (engine : LuaEngine) (eventName : Bytes) (arg : Option EntryTable) (raises : Nat → Bool) : LuaEngine :=
  match engine.lua with
  | none => engine
  | some lua =>
    match lua.events with
    | none => engine
    | some events =>
      match events.find? eventName with
      | none => engine
      | some handlers => { engine with calls := engine.calls ++ callHandlers arg raises handlers.toList }

/-- `trigger_event(event_name)`. -/
def triggerEvent (engine : LuaEngine) (eventName : Bytes) (raises : Nat → Bool) : LuaEngine :=
  engine.trigger eventName none raises

/-- `trigger_event(event_name, entry)`. -/
def triggerEventEntry (engine : LuaEngine) (eventName : Bytes) (entry : Entry) (raises : Nat → Bool) : LuaEngine :=
  engine.trigger eventName (some (entryTable entry)) raises

end LuaEngine

/-! ## Runs -/

/-- What addons and the program do with an engine. -/
inductive LuaEvent
  | initAddon (info : AddonTable)
  | on (addon : Nat) (eventName : Bytes) (handler : Nat)
  | triggerEvent (eventName : Bytes) (entry : Option Entry) (raises : Nat → Bool)

/-- A trigger with or without an entry. -/
def LuaEngine.fire (engine : LuaEngine) (eventName : Bytes) (entry : Option Entry) (raises : Nat → Bool) : LuaEngine :=
  match entry with
  | none => engine.triggerEvent eventName raises
  | some entry => engine.triggerEventEntry eventName entry raises

/-- One step; only an addon that `init_addon` has made can register a handler. -/
def luaStep (engine : LuaEngine) : LuaEvent → Option LuaEngine
  | .initAddon info => some (engine.initAddon info)
  | .on addon eventName handler => if addon < engine.addons.length then some (engine.on eventName handler) else none
  | .triggerEvent eventName entry raises => some (engine.fire eventName entry raises)

/-- The handlers registered for an event, in order. -/
def registered (eventName : Bytes) (evs : List LuaEvent) : List Nat :=
  evs.filterMap fun
    | .on _ name handler => if name = eventName then some handler else none
    | _ => none

/-- The table that an engine keeps for an event. -/
def LuaEngine.handlers (engine : LuaEngine) (eventName : Bytes) : HandlerTable :=
  ((engine.lua.bind LuaState.events).bind (·.find? eventName)).getD ∅

/-- The engine has a Lua state whose tables hold the handlers registered for their events. -/
structure Registered (evs : List LuaEvent) (engine : LuaEngine) : Prop where
  started : engine.lua.isSome = true
  tables : ∀ eventName, Sequence (registered eventName evs) (engine.handlers eventName)

variable {evs : List LuaEvent} {engine engine' : LuaEngine} {eventName : Bytes}

theorem handlers_on (hlua : engine.lua.isSome = true) (eventName name : Bytes) (handler : Nat) :
    (engine.on eventName handler).handlers name = if eventName = name
      then (engine.handlers eventName).insert ((engine.handlers eventName).length + 1) handler
      else engine.handlers name := by
  obtain ⟨lua, hlua⟩ := Option.isSome_iff_exists.mp hlua
  have hold : ∀ name, engine.handlers name = ((lua.events.getD ∅).find? name).getD ∅ := by
    intro name
    unfold LuaEngine.handlers
    rw [hlua, Option.bind_some]
    cases lua.events <;> rfl
  have hnew : (engine.on eventName handler).handlers name = (((lua.events.getD ∅).insert eventName
      ((engine.handlers eventName).insert ((engine.handlers eventName).length + 1) handler)).find? name).getD ∅ := by
    rw [hold eventName]
    unfold LuaEngine.on LuaEngine.handlers
    rw [hlua]
    rfl
  rw [hnew, OrdMap.find?_insert]
  split_ifs with hname
  · rfl
  · exact (hold name).symm

theorem trigger_calls (hlua : engine.lua.isSome = true) (eventName : Bytes) (arg : Option EntryTable) (raises : Nat → Bool) :
    (engine.trigger eventName arg raises).calls =
      engine.calls ++ LuaEngine.callHandlers arg raises (engine.handlers eventName).toList := by
  obtain ⟨lua, hlua⟩ := Option.isSome_iff_exists.mp hlua
  unfold LuaEngine.trigger LuaEngine.handlers
  cases hevents : lua.events with
  | none => simp [hlua, hevents, LuaEngine.callHandlers]
  | some events => cases hfind : events.find? eventName <;> simp [hlua, hevents, hfind, LuaEngine.callHandlers]

/-- A trigger leaves the tables as they are. -/
theorem trigger_lua (engine : LuaEngine) (eventName : Bytes) (arg : Option EntryTable) (raises : Nat → Bool) :
    (engine.trigger eventName arg raises).lua = engine.lua := by
  unfold LuaEngine.trigger
  split
  · rfl
  · split
    · rfl
    · split <;> rfl

theorem fire_eq (engine : LuaEngine) (eventName : Bytes) (entry : Option Entry) (raises : Nat → Bool) :
    engine.fire eventName entry raises = engine.trigger eventName (entry.map entryTable) raises := by
  cases entry <;> rfl

def LuaEngine.started : LuaEngine := LuaEngine.new.init

theorem registered_append (eventName : Bytes) (evs evs' : List LuaEvent) :
    registered eventName (evs ++ evs') = registered eventName evs ++ registered eventName evs' := List.filterMap_append

theorem Registered.initial : Registered [] LuaEngine.started where
  started := rfl
  tables _ := rfl

theorem Registered.step {ev : LuaEvent} (h : Registered evs engine) (hstep : luaStep engine ev = some engine') :
    Registered (evs ++ [ev]) engine' := by
  cases ev with
  | initAddon info =>
    obtain rfl := Option.some.inj hstep
    refine ⟨h.started, fun name => ?_⟩
    rw [registered_append]
    show Sequence (registered name evs ++ []) (engine.handlers name)
    rw [List.append_nil]
    exact h.tables name
  | on addon eventName handler =>
    simp only [luaStep] at hstep
    split_ifs at hstep with haddon
    obtain rfl := Option.some.inj hstep
    refine ⟨?_, fun name => ?_⟩
    · obtain ⟨lua, hlua⟩ := Option.isSome_iff_exists.mp h.started
      simp [LuaEngine.on, hlua]
    · rw [registered_append, handlers_on h.started]
      by_cases hname : eventName = name
      · subst hname
        have hnew : registered eventName [.on addon eventName handler] = [handler] := by simp [registered]
        rw [if_pos rfl, hnew]
        exact (h.tables eventName).push handler
      · have hnew : registered name [.on addon eventName handler] = [] := by simp [registered, hname]
        rw [if_neg hname, hnew, List.append_nil]
        exact h.tables name
  | triggerEvent eventName entry raises =>
    obtain rfl := Option.some.inj hstep
    have hlua : (engine.fire eventName entry raises).lua = engine.lua := by
      rw [fire_eq]
      exact trigger_lua engine eventName _ raises
    refine ⟨by rw [hlua]; exact h.started, fun name => ?_⟩
    have hnew : registered name [.triggerEvent eventName entry raises] = [] := rfl
    rw [registered_append, hnew, List.append_nil]
    unfold LuaEngine.handlers
    rw [hlua]
    exact h.tables name

theorem Registered.run (hrun : runs luaStep LuaEngine.started evs = some engine) : Registered evs engine := by
  induction evs using List.reverseRecOn generalizing engine with
  | nil =>
    obtain rfl := Option.some.inj hrun
    exact Registered.initial
  | append_singleton evs ev ih =>
    obtain ⟨before, hbefore, hstep⟩ := runs_snoc.mp hrun
    exact (ih hbefore).step hstep

/-! ## What a trigger calls -/

open LuaEngine

/-- Every handler is called if and only if none before the last raises an error. -/
theorem callHandlers_all (arg : Option EntryTable) (raises : Nat → Bool) (pairs : List (Nat × Nat)) :
    callHandlers arg raises pairs = pairs.map (fun p => ⟨p.2, arg⟩) ↔
      ∀ i ∈ (pairs.map Prod.fst).dropLast, raises i = false := by
  induction pairs with
  | nil => simp [callHandlers]
  | cons p pairs ih =>
    rw [callHandlers, List.map_cons, List.cons.injEq, and_iff_right rfl]
    cases pairs with
    | nil => simp [callHandlers]
    | cons q pairs =>
      show _ ↔ ∀ i ∈ p.1 :: ((q :: pairs).map Prod.fst).dropLast, raises i = false
      rw [List.forall_mem_cons, ← ih]
      cases hraises : raises p.1 with
      | true => simp
      | false => simp

/-- What the trigger of an event after a run is to call: every handler registered for it, once and in order. -/
def ReachesAll (evs : List LuaEvent) (engine : LuaEngine) (eventName : Bytes) (entry : Option Entry)
    (raises : Nat → Bool) : Prop :=
  (engine.fire eventName entry raises).calls =
    engine.calls ++ (registered eventName evs).map fun handler => ⟨handler, entry.map entryTable⟩

theorem fire_calls (h : Registered evs engine) (eventName : Bytes) (entry : Option Entry) (raises : Nat → Bool) :
    (engine.fire eventName entry raises).calls =
      engine.calls ++ callHandlers (entry.map entryTable) raises (numbered (registered eventName evs)) := by
  rw [fire_eq, trigger_calls h.started, h.tables eventName]

theorem calls_numbered (arg : Option EntryTable) (hs : List Nat) :
    (numbered hs).map (fun p => ⟨p.2, arg⟩) = hs.map fun handler => (⟨handler, arg⟩ : HandlerCall) := by
  nth_rewrite 2 [← values_numbered hs]
  rw [List.map_map]
  rfl

/-- After every run a trigger calls every handler registered for its event exactly when no handler but the last one, by the
order of registration, raises an error. -/
theorem reachesAll_iff (hrun : runs luaStep LuaEngine.started evs = some engine) (eventName : Bytes) (entry : Option Entry)
    (raises : Nat → Bool) : ReachesAll evs engine eventName entry raises ↔
      ∀ i, 1 ≤ i → i < (registered eventName evs).length → raises i = false := by
  unfold ReachesAll
  rw [fire_calls (Registered.run hrun), List.append_cancel_left_eq, ← calls_numbered, callHandlers_all, keys_numbered]
  have hkeys : ∀ i n, i ∈ (List.range' 1 n).dropLast ↔ 1 ≤ i ∧ i < n := by
    intro i n
    cases n with
    | zero => simp
    | succ n =>
      rw [List.range'_1_concat, List.dropLast_concat, List.mem_range'_1]
      omega
  constructor
  · intro h i hi hlt
    exact h i ((hkeys i _).mpr ⟨hi, hlt⟩)
  · intro h i hi
    obtain ⟨hpos, hlt⟩ := (hkeys i _).mp hi
    exact h i hpos hlt

/-- Two handlers of one event and a handler of another one. -/
def twoHandlers : List LuaEvent :=
  [.initAddon ⟨some (ascii "A"), none, none, none⟩, .on 0 (ascii "saved") 7, .on 0 (ascii "other") 8,
    .initAddon ⟨none, none, none, none⟩, .on 1 (ascii "saved") 9]

theorem reachesAll_twoHandlers : ∃ engine, runs luaStep LuaEngine.started twoHandlers = some engine ∧
    (ReachesAll twoHandlers engine (ascii "saved") (some .blank) (fun i => i == 2) ↔
      ∀ i, 1 ≤ i → i < (registered (ascii "saved") twoHandlers).length → (i == 2) = false) := by
  obtain ⟨engine, hrun⟩ : ∃ engine, runs luaStep LuaEngine.started twoHandlers = some engine :=
    Option.isSome_iff_exists.mp (by decide +kernel)
  exact ⟨engine, hrun, reachesAll_iff hrun (ascii "saved") (some .blank) fun i => i == 2⟩

/-- A handler that raises an error keeps the handlers after it from being called. -/
theorem not_reachesAll : ¬ ∀ evs engine eventName entry raises, runs luaStep LuaEngine.started evs = some engine →
    ReachesAll evs engine eventName entry raises := by
  intro h
  obtain ⟨engine, hrun⟩ : ∃ engine, runs luaStep LuaEngine.started twoHandlers = some engine :=
    Option.isSome_iff_exists.mp (by decide +kernel)
  have hall := h twoHandlers engine (ascii "saved") none (fun i => i == 1) hrun
  have hcalls : (runs luaStep LuaEngine.started twoHandlers).all (fun s =>
      (s.fire (ascii "saved") none fun i => i == 1).calls ≠
        s.calls ++ (registered (ascii "saved") twoHandlers).map fun handler => ⟨handler, none⟩) = true := by
    decide +kernel
  rw [hrun, Option.all_some, decide_eq_true_eq] at hcalls
  exact hcalls hall

end Passdoq.Lua
