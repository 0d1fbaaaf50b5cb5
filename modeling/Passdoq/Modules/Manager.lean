import Passdoq.Modules.Ltdl

/-!
# The module manager

`ModuleHandle` and `ModuleManager` of `modules.cpp`. What a library does when it is loaded (whether it opens, has the entry
point, what that returns, what the `init` hook returns) is a `Loading`.

* `release` : the destructor of a `ModuleHandle`;
* `loadModule`, `unloadModule`, `unloadAll`, `initLtdl`, `cleanupLtdl` : under their names in the source;
* `loadModule_cases` : all that `loadModule` can do.
-/

namespace Passdoq.Modules

/-- `passdoq_module_t`: the name, and whether the pointers `init` and `deinit` are set. -/
structure Descriptor where
  name : Bytes
  init : Bool
  deinit : Bool

/-- A `ModuleHandle`; `opening` is the number of successful `lt_dlopen` calls before the one that it comes from. -/
structure ModuleHandle where
  handle : Nat
  module : Descriptor
  opening : Nat

/-- The calls that load and release the library of opening `n`, and its entry into `modules_`. -/
inductive Trace
  | dlopen (n : Nat)
  | init (n : Nat) (ok : Bool)
  | store (n : Nat)
  | deinit (n : Nat)
  | dlclose (n : Nat)
  deriving DecidableEq

def Trace.opening : Trace → Nat
  | .dlopen n | .init n _ | .store n | .deinit n | .dlclose n => n

def Trace.isOpening : Trace → Bool
  | .dlopen _ => true
  | _ => false

def Trace.isClosing : Trace → Bool
  | .dlclose _ => true
  | _ => false

def openings (log : List Trace) : Nat := log.countP Trace.isOpening

def closings (log : List Trace) : Nat := log.countP Trace.isClosing

/-- What the managers of a process share. -/
structure Process where
  ltdlInitialized : Bool
  ltdl : Ltdl
  log : List Trace

/-- The `modules_` of a manager. -/
abbrev ModuleManager := OrdMap Bytes ModuleHandle

structure Loading where
  file : Bytes → Option (Bytes × Bool)
  symbol : Bool
  entry : Option Descriptor
  /-- what the `init` hook returns, and the name and `deinit` that it leaves in the descriptor -/
  hook : Int
  renamed : Bytes
  deinit : Bool

/-- The descriptor when the module is stored. -/
def Loading.settle (io : Loading) (module : Descriptor) : Descriptor :=
  if module.init then { module with name := io.renamed, deinit := io.deinit } else module

namespace Process

def start : Process := ⟨false, .start, []⟩

def emit (p : Process) (t : Trace) : Process := { p with log := p.log ++ [t] }

def close (p : Process) (handle n : Nat) : Process :=
  { p with ltdl := p.ltdl.lt_dlclose handle, log := p.log ++ [.dlclose n] }

end Process

def initLtdl (errors : Nat) (p : Process) : Bool × Process :=
  if ¬ p.ltdlInitialized then
    let (failed, ltdl) := p.ltdl.lt_dlinit errors
    if failed ≠ 0 then (false, { p with ltdl := ltdl })
    else (true, { p with ltdl := ltdl, ltdlInitialized := true })
  else (true, p)

def cleanupLtdl (p : Process) : Process :=
  if p.ltdlInitialized then { p with ltdl := p.ltdl.lt_dlexit, ltdlInitialized := false } else p

/-- `~ModuleHandle`; none where it goes to the descriptor in a library that is no longer in memory. -/
def release (h : ModuleHandle) (p : Process) : Option Process :=
  if p.ltdl.isOpen h.handle then
    some ((if h.module.deinit then p.emit (.deinit h.opening) else p).close h.handle h.opening)
  else none

/-- `modules_[module->name] = std::make_unique<ModuleHandle>(handle, module)`, which destroys what was stored there. -/
def storeModule (h : ModuleHandle) (m : ModuleManager) (p : Process) : Option (Bool × ModuleManager × Process) :=
  let stored := m.insert h.module.name h
  match m.find? h.module.name with
  | none => some (true, stored, p.emit (.store h.opening))
  | some old => (release old (p.emit (.store h.opening))).map fun p => (true, stored, p)

def loadModule (path : Bytes) (io : Loading) (m : ModuleManager) (p : Process) : Option (Bool × ModuleManager × Process) :=
  if ¬ p.ltdlInitialized then some (false, m, p)
  else match p.ltdl.lt_dlopen (io.file path) with
  | (none, ltdl) => some (false, m, { p with ltdl := ltdl })
  | (some handle, ltdl) =>
    let n := openings p.log
    let p := { p with ltdl := ltdl, log := p.log ++ [.dlopen n] }
    if ¬ io.symbol then some (false, m, p.close handle n)
    else match io.entry with
    | none => some (false, m, p.close handle n)
    | some module =>
      if (m.find? module.name).isSome then some (false, m, p.close handle n)
      else if module.init ∧ io.hook ≠ 0 then some (false, m, (p.emit (.init n false)).close handle n)
      else storeModule ⟨handle, io.settle module, n⟩ m (if module.init then p.emit (.init n true) else p)

def unloadModule (name : Bytes) (m : ModuleManager) (p : Process) : Option (Bool × ModuleManager × Process) :=
  match m.find? name with
  | none => some (false, m, p)
  | some h => (release h p).map fun p => (true, m.erase name, p)

/-- `modules_.clear()`, in the order of the names. -/
def unloadAll (m : ModuleManager) (p : Process) : Option (ModuleManager × Process) :=
  (m.values.foldlM (fun p h => release h p) p).map fun p => (∅, p)

/-! ## What a call does -/

/-- The calls that load a module which is stored. -/
def loading (h : ModuleHandle) : List Trace :=
  .dlopen h.opening :: ((if h.module.init then [.init h.opening true] else []) ++ [.store h.opening])

/-- The calls that release it. -/
def unloading (h : ModuleHandle) : List Trace :=
  (if h.module.deinit then [.deinit h.opening] else []) ++ [.dlclose h.opening]

/-- The calls for a library that is not kept. -/
def Refusal (n : Nat) (l : List Trace) : Prop := l = [.dlopen n, .dlclose n] ∨ l = [.dlopen n, .init n false, .dlclose n]

variable {path : Bytes} {io : Loading} {m : ModuleManager} {p p' : Process} {h : ModuleHandle}

/-- What `~ModuleHandle` leaves. -/
def released (h : ModuleHandle) (p : Process) : Process :=
  { p with ltdl := p.ltdl.lt_dlclose h.handle, log := p.log ++ unloading h }

theorem release_open (hopen : p.ltdl.isOpen h.handle = true) : release h p = some (released h p) := by
  unfold release released unloading
  rw [if_pos hopen]
  cases h.module.deinit <;> simp [Process.emit, Process.close]

/-- What a load leaves of the process when the module is stored. -/
def loaded (ltdl : Ltdl) (h : ModuleHandle) (p : Process) : Process := { p with ltdl := ltdl, log := p.log ++ loading h }

theorem storeModule_cases (hp : p.emit (.store h.opening) = p') :
    (m.find? h.module.name = none ∧ storeModule h m p = some (true, m.insert h.module.name h, p')) ∨
    ∃ old, m.find? h.module.name = some old ∧
      storeModule h m p = (release old p').map fun p => (true, m.insert h.module.name h, p) := by
  unfold storeModule
  rw [hp]
  cases m.find? h.module.name with
  | none => exact .inl ⟨rfl, rfl⟩
  | some old => exact .inr ⟨old, rfl, rfl⟩

/-- All that `loadModule` can do: nothing, open and close a library, or store it, and then maybe destroy what was stored
under the name. -/
theorem loadModule_cases (path : Bytes) (io : Loading) (m : ModuleManager) (p : Process) :
    loadModule path io m p = some (false, m, p) ∨
    (∃ handle ltdl l, p.ltdl.lt_dlopen (io.file path) = (some handle, ltdl) ∧ Refusal (openings p.log) l ∧
      loadModule path io m p = some (false, m, { p with ltdl := ltdl.lt_dlclose handle, log := p.log ++ l })) ∨
    (∃ handle ltdl h, p.ltdl.lt_dlopen (io.file path) = (some handle, ltdl) ∧ h.handle = handle ∧
      h.opening = openings p.log ∧
      ((m.find? h.module.name = none ∧ loadModule path io m p = some (true, m.insert h.module.name h, loaded ltdl h p)) ∨
       ∃ old, m.find? h.module.name = some old ∧
        loadModule path io m p = (release old (loaded ltdl h p)).map fun p => (true, m.insert h.module.name h, p))) := by
  unfold loadModule
  by_cases hflag : p.ltdlInitialized = true
  · rw [if_neg (not_not.mpr hflag)]
    rcases hopen : p.ltdl.lt_dlopen (io.file path) with ⟨_ | handle, ltdl⟩
    · left
      rw [Ltdl.lt_dlopen_none hopen]
    · right
      dsimp only
      by_cases hsymbol : io.symbol = true
      · rw [if_neg (not_not.mpr hsymbol)]
        cases hentry : io.entry with
        | none => exact .inl ⟨handle, ltdl, _, rfl, .inl rfl, by simp [Process.close]⟩
        | some module =>
          dsimp only
          by_cases hloaded : (m.find? module.name).isSome = true
          · rw [if_pos hloaded]
            exact .inl ⟨handle, ltdl, _, rfl, .inl rfl, by simp [Process.close]⟩
          · rw [if_neg hloaded]
            by_cases hhook : module.init = true ∧ io.hook ≠ 0
            · rw [if_pos hhook]
              exact .inl ⟨handle, ltdl, _, rfl, .inr rfl, by simp [Process.close, Process.emit]⟩
            · rw [if_neg hhook]
              refine .inr ⟨handle, ltdl, ⟨handle, io.settle module, openings p.log⟩, rfl, rfl, rfl, storeModule_cases ?_⟩
              unfold loaded loading Loading.settle
              cases hinit : module.init <;> simp [Process.emit, hinit]
      · rw [if_pos hsymbol]
        exact .inl ⟨handle, ltdl, _, rfl, .inl rfl, by simp [Process.close]⟩
  · rw [if_pos hflag]
    exact .inl rfl

end Passdoq.Modules
