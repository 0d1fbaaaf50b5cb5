import Passdoq.Lib.Heap
import Passdoq.Lib.Run
import Passdoq.Vault.Basic

/-!
# Delivering secrets

`delivery.cpp`: methods that hand a secret to the clipboard, to a file, to the standard output or to a block of memory, and
the manager that picks a method by its name.

* `DeliveryMethod`, `DeliveryManager` : the methods with their streams and their memory, any of them a null pointer;
* `Outlets` : what they are for; a memory outlet holds the last secret;
* `Misused` : a call that comes to a null pointer, or whose allocation fails at a method that holds a secret;
* `delivery_safe` : up to its destruction a manager does what the outlets do, exactly when no call is misused.
-/

namespace Passdoq.Delivery
open Vault

/-! ## The methods -/

/-- Where secrets go, but for the memory. -/
structure Sinks where
  files : FS
  cout : Bytes
  cerr : Bytes

def Sinks.print (w : Sinks) (b : Bytes) : Sinks := { w with cout := w.cout ++ b }

def Sinks.report (w : Sinks) (b : Bytes) : Sinks := { w with cerr := w.cerr ++ b }

/-- What the world supplies to one delivery: whether there is memory, and how a file is written. -/
structure Supply where
  alloc : Bool
  write : WriteIO

inductive BadAlloc
  | badAlloc
  deriving DecidableEq

abbrev Result := Except BadAlloc Bool

def ClipboardDelivery.deliver (w : Sinks) : Bool × Sinks :=
  (true, w.print (ascii "[Clipboard] Secret copied to clipboard\n"))

def ClipboardDelivery.clearClipboard (w : Sinks) : Sinks := w.print (ascii "[Clipboard] Clipboard cleared\n")

def FileDelivery.deliver (path : Bytes) (e : Supply) (secret : Bytes) (w : Sinks) : Bool × Sinks :=
  match writeFile w.files path e.write secret with
  | (none, files) => (false, { w with files := files }.report (ascii "Failed to open file: " ++ path ++ ascii "\n"))
  | (some false, files) => (false, { w with files := files }.report (ascii "Failed to write to file: " ++ path ++ ascii "\n"))
  | (some true, files) => (true, { w with files := files }.print (ascii "[File] Secret written to: " ++ path ++ ascii "\n"))

def StdoutDelivery.deliver (secret : Bytes) (w : Sinks) : Bool × Sinks := (true, (w.print secret).print (ascii "\n"))

structure World where
  heap : Heap UInt8
  sinks : Sinks

/-- `data` is the pointer, `none` for a null pointer. -/
structure MemoryDelivery where
  data : Option Nat
  size : Nat

namespace MemoryDelivery

/-- The data is zeroed and deleted; the pointer is left as it is. -/
def clear (m : MemoryDelivery) (heap : Heap UInt8) : Option (Heap UInt8) :=
  match m.data with
  | some a => heap.wipe a m.size 0
  | none => some heap

def deliver (e : Supply) (secret : Bytes) (m : MemoryDelivery) (w : World) : Option (Result × MemoryDelivery × World) :=
  (m.clear w.heap).map fun heap =>
    if e.alloc then
      (.ok true, ⟨some heap.next, secret.length⟩,
        ⟨heap.alloc secret, w.sinks.print (ascii "[Memory] Secret stored in secure memory\n")⟩)
    -- `size_` is assigned before `new` throws
    else (.error .badAlloc, ⟨m.data, secret.length⟩, ⟨heap, w.sinks⟩)

/-- The caller copies the `size()` bytes at `data()`. -/
def copy (m : MemoryDelivery) (heap : Heap UInt8) : Option Bytes :=
  match m.data with
  | some a => heap.read a m.size
  | none => if m.size = 0 then some [] else none

end MemoryDelivery

inductive DeliveryMethod
  | clipboard
  | file (path : Bytes)
  | stdout
  | memory (m : MemoryDelivery)

namespace DeliveryMethod

def name : DeliveryMethod → Bytes
  | .clipboard => ascii "clipboard"
  | .file _ => ascii "file"
  | .stdout => ascii "stdout"
  | .memory _ => ascii "memory"

def deliver (e : Supply) (secret : Bytes) (w : World) : DeliveryMethod → Option (Result × DeliveryMethod × World)
  | .clipboard =>
    let (b, sinks) := ClipboardDelivery.deliver w.sinks
    some (.ok b, .clipboard, { w with sinks := sinks })
  | .file path =>
    let (b, sinks) := FileDelivery.deliver path e secret w.sinks
    some (.ok b, .file path, { w with sinks := sinks })
  | .stdout =>
    let (b, sinks) := StdoutDelivery.deliver secret w.sinks
    some (.ok b, .stdout, { w with sinks := sinks })
  | .memory m => (m.deliver e secret w).map fun r => (r.1, .memory r.2.1, r.2.2)

/-- The destructors. -/
def destroy (w : World) : DeliveryMethod → Option World
  | .clipboard => some { w with sinks := ClipboardDelivery.clearClipboard w.sinks }
  | .memory m => (m.clear w.heap).map fun heap => { w with heap := heap }
  | _ => some w

end DeliveryMethod

/-! ## The manager -/

/-- The loop that looks for a name, with the place where it ends; `none` where it comes to a null pointer. -/
def firstNamed {α : Type} (nameOf : α → Bytes) (name : Bytes) : List (Option α) → Option (Option (Nat × α))
  | [] => some none
  | none :: _ => none
  | some a :: l =>
    if nameOf a = name then some (some (0, a))
    else (firstNamed nameOf name l).map fun r => r.map fun x => (x.1 + 1, x.2)

/-- What the caller of a manager has got. -/
inductive Output
  | delivered (r : Result)
  | names (l : List Bytes)
  | copied (b : Bytes)

structure DeliveryManager where
  methods : List (Option DeliveryMethod)
  world : World
  outputs : List Output

/-- The constructors of the methods. -/
inductive Kind
  | clipboard
  | file (path : Bytes)
  | stdout
  | memory

def Kind.new : Kind → DeliveryMethod
  | .clipboard => .clipboard
  | .file path => .file path
  | .stdout => .stdout
  | .memory => .memory ⟨none, 0⟩

/-- `copy i` reads the method registered as the `i`-th, a memory method. -/
inductive Event
  | registerMethod (kind : Option Kind)
  | deliver (methodName secret : Bytes) (e : Supply)
  | listMethods
  | copy (i : Nat)

def notFound (methodName : Bytes) : Bytes := ascii "Delivery method not found: " ++ methodName ++ ascii "\n"

namespace DeliveryManager

def start (files : FS) : DeliveryManager := ⟨[], ⟨.empty, ⟨files, [], []⟩⟩, []⟩

def registerMethod (s : DeliveryManager) (method : Option DeliveryMethod) : DeliveryManager :=
  { s with methods := s.methods ++ [method] }

def deliver (s : DeliveryManager) (methodName secret : Bytes) (e : Supply) : Option DeliveryManager :=
  match firstNamed DeliveryMethod.name methodName s.methods with
  | some (some (i, m)) => (m.deliver e secret s.world).map fun r =>
    ⟨s.methods.set i (some r.2.1), r.2.2, s.outputs ++ [.delivered r.1]⟩
  | some none => some { s with
      world := { s.world with sinks := s.world.sinks.report (notFound methodName) }
      outputs := s.outputs ++ [.delivered (.ok false)] }
  | none => none

def listMethods (s : DeliveryManager) : Option (List Bytes) := s.methods.mapM (Option.map DeliveryMethod.name)

/-- The caller goes on after an exception. -/
def step (s : DeliveryManager) : Event → Option DeliveryManager
  | .registerMethod kind => some (s.registerMethod (kind.map Kind.new))
  | .deliver methodName secret e => s.deliver methodName secret e
  | .listMethods => s.listMethods.map fun l => { s with outputs := s.outputs ++ [.names l] }
  | .copy i => match s.methods[i]? with
    | some (some (.memory m)) => (m.copy s.world.heap).map fun b => { s with outputs := s.outputs ++ [.copied b] }
    | _ => some s

/-- The methods are destroyed in their order. -/
def destroy (s : DeliveryManager) : Option World := s.methods.reduceOption.foldlM DeliveryMethod.destroy s.world

/-- A call comes to a null pointer (that of a method, or `data()` where an allocation has failed after `size()` was set), or
leaves a method with a pointer to memory that is deleted. -/
def Misused (s : DeliveryManager) : Event → Bool
  | .registerMethod _ => false
  | .deliver methodName _ e => match firstNamed DeliveryMethod.name methodName s.methods with
    | some (some (_, .memory m)) => !e.alloc && m.data.isSome
    | some _ => false
    | none => true
  | .listMethods => s.methods.any Option.isNone
  | .copy i => match s.methods[i]? with
    | some (some (.memory m)) => m.data.isNone && m.size ≠ 0
    | _ => false

end DeliveryManager

/-! ## What they are for -/

/-- A memory outlet holds the last secret. -/
inductive Outlet
  | clipboard
  | file (path : Bytes)
  | stdout
  | memory (held : Option Bytes)

namespace Outlet

def name : Outlet → Bytes
  | .clipboard => ascii "clipboard"
  | .file _ => ascii "file"
  | .stdout => ascii "stdout"
  | .memory _ => ascii "memory"

def deliver (e : Supply) (secret : Bytes) (w : Sinks) : Outlet → Result × Outlet × Sinks
  | .clipboard => (.ok true, .clipboard, (ClipboardDelivery.deliver w).2)
  | .file path => (.ok (FileDelivery.deliver path e secret w).1, .file path, (FileDelivery.deliver path e secret w).2)
  | .stdout => (.ok true, .stdout, (StdoutDelivery.deliver secret w).2)
  | .memory _ =>
    if e.alloc then (.ok true, .memory (some secret), w.print (ascii "[Memory] Secret stored in secure memory\n"))
    else (.error .badAlloc, .memory none, w)

def close (w : Sinks) : Outlet → Sinks
  | .clipboard => ClipboardDelivery.clearClipboard w
  | _ => w

end Outlet

def Kind.outlet : Kind → Outlet
  | .clipboard => .clipboard
  | .file path => .file path
  | .stdout => .stdout
  | .memory => .memory none

structure Outlets where
  outlets : List (Option Outlet)
  sinks : Sinks
  outputs : List Output

namespace Outlets

def start (files : FS) : Outlets := ⟨[], ⟨files, [], []⟩, []⟩

def listMethods (t : Outlets) : Option (List Bytes) := t.outlets.mapM (Option.map Outlet.name)

def step (t : Outlets) : Event → Option Outlets
  | .registerMethod kind => some { t with outlets := t.outlets ++ [kind.map Kind.outlet] }
  | .deliver methodName secret e => (firstNamed Outlet.name methodName t.outlets).map fun r => match r with
    | some (i, o) =>
      let r := o.deliver e secret t.sinks
      ⟨t.outlets.set i (some r.2.1), r.2.2, t.outputs ++ [.delivered r.1]⟩
    | none => { t with sinks := t.sinks.report (notFound methodName), outputs := t.outputs ++ [.delivered (.ok false)] }
  | .listMethods => t.listMethods.map fun l => { t with outputs := t.outputs ++ [.names l] }
  | .copy i => match t.outlets[i]? with
    | some (some (.memory held)) => some { t with outputs := t.outputs ++ [.copied (held.getD [])] }
    | _ => some t

def close (t : Outlets) : Sinks := t.outlets.reduceOption.foldl Outlet.close t.sinks

end Outlets

/-! ## Methods and outlets -/

inductive Matches : DeliveryMethod → Outlet → Prop
  | clipboard : Matches .clipboard .clipboard
  | file (path : Bytes) : Matches (.file path) (.file path)
  | stdout : Matches .stdout .stdout
  | empty (size : Nat) : Matches (.memory ⟨none, size⟩) (.memory none)
  | holding (a : Nat) (c : Bytes) : Matches (.memory ⟨some a, c.length⟩) (.memory (some c))

/-- The block of a method, with the secret that its outlet holds. -/
def owned : Option DeliveryMethod → Option Outlet → Option (Nat × Bytes)
  | some (.memory ⟨some a, _⟩), some (.memory (some c)) => some (a, c)
  | _, _ => none

def owners (ms : List (Option DeliveryMethod)) (os : List (Option Outlet)) (i : Nat) : Option (Nat × Bytes) :=
  owned ms[i]?.join os[i]?.join

/-- Whatever was given back held zeros. -/
def Wiped (heap : Heap UInt8) : Prop := ∀ r ∈ heap.released, ∀ c ∈ r.2, c = 0

/-- The manager stands for the outlets, and owns the memory. -/
structure Stands (s : DeliveryManager) (t : Outlets) : Prop where
  outlets : List.Forall₂ (Option.Rel Matches) s.methods t.outlets
  sinks : s.world.sinks = t.sinks
  outputs : s.outputs = t.outputs
  owns : Heap.Owns (owners s.methods t.outlets) s.world.heap
  wiped : Wiped s.world.heap

variable {ms : List (Option DeliveryMethod)} {os : List (Option Outlet)} {m m' : DeliveryMethod} {o o' : Outlet} {i : Nat}

theorem Matches.name_eq (h : Matches m o) : m.name = o.name := by cases h <;> rfl

theorem firstNamed_getElem {α : Type} {nameOf : α → Bytes} {name : Bytes} {l : List (Option α)} {i : Nat} {a : α}
    (h : firstNamed nameOf name l = some (some (i, a))) : l[i]? = some (some a) := by
  induction l generalizing i with
  | nil => cases h
  | cons b l ih =>
    cases b with
    | none => cases h
    | some b =>
      rw [firstNamed] at h
      split_ifs at h
      · obtain ⟨rfl, rfl⟩ := Prod.mk.inj (Option.some.inj (Option.some.inj h))
        rfl
      · obtain ⟨r, hr, heq⟩ := Option.map_eq_some_iff.mp h
        obtain ⟨⟨j, c⟩, rfl, heq⟩ := Option.map_eq_some_iff.mp heq
        obtain ⟨rfl, rfl⟩ := Prod.mk.inj (Option.some.inj heq)
        exact ih hr

theorem names_eq (h : List.Forall₂ (Option.Rel Matches) ms os) :
    ms.mapM (Option.map DeliveryMethod.name) = os.mapM (Option.map Outlet.name) := by
  induction h with
  | nil => rfl
  | cons hmo _ ih =>
    rw [List.mapM_cons, List.mapM_cons, ih]
    cases hmo with
    | none => rfl
    | some hmo => rw [Option.map_some, Option.map_some, hmo.name_eq]

theorem names_none : ms.mapM (Option.map DeliveryMethod.name) = none ↔ ms.any Option.isNone = true := by
  induction ms with
  | nil => simp
  | cons m ms ih =>
    rw [List.mapM_cons, List.any_cons]
    cases m with
    | none => simp
    | some m => cases hms : ms.mapM (Option.map DeliveryMethod.name) <;> simp [hms] at ih ⊢ <;> exact ih

theorem firstNamed_matches (h : List.Forall₂ (Option.Rel Matches) ms os) (name : Bytes) :
    (firstNamed DeliveryMethod.name name ms = none ∧ firstNamed Outlet.name name os = none) ∨
    (firstNamed DeliveryMethod.name name ms = some none ∧ firstNamed Outlet.name name os = some none) ∨
    ∃ i m o, firstNamed DeliveryMethod.name name ms = some (some (i, m)) ∧
      firstNamed Outlet.name name os = some (some (i, o)) ∧ Matches m o ∧ ms[i]? = some (some m) ∧ os[i]? = some (some o) := by
  induction h with
  | nil => exact .inr (.inl ⟨rfl, rfl⟩)
  | @cons m o ms os hmo _ ih =>
    cases hmo with
    | none => exact .inl ⟨rfl, rfl⟩
    | @some m o hmo =>
      rw [firstNamed, firstNamed, ← hmo.name_eq]
      by_cases hname : m.name = name
      · rw [if_pos hname, if_pos hname]
        exact .inr (.inr ⟨0, m, o, rfl, rfl, hmo, rfl, rfl⟩)
      · rw [if_neg hname, if_neg hname]
        rcases ih with ⟨hm, ho⟩ | ⟨hm, ho⟩ | ⟨i, m', o', hm, ho, hmatch, hmi, hoi⟩
        · rw [hm, ho]
          exact .inl ⟨rfl, rfl⟩
        · rw [hm, ho]
          exact .inr (.inl ⟨rfl, rfl⟩)
        · rw [hm, ho]
          exact .inr (.inr ⟨i + 1, m', o', rfl, rfl, hmatch, hmi, hoi⟩)

theorem forall₂_set {α β : Type} {R : α → β → Prop} {l : List α} {k : List β} (h : List.Forall₂ R l k) {a : α} {b : β}
    (hab : R a b) (i : Nat) : List.Forall₂ R (l.set i a) (k.set i b) := by
  induction h generalizing i with
  | nil => exact .nil
  | cons hxy hrest ih =>
    cases i with
    | zero => exact .cons hab hrest
    | succ i => exact .cons hxy (ih i)

theorem forall₂_getElem? {α β : Type} {R : α → β → Prop} {l : List α} {k : List β} (h : List.Forall₂ R l k) (i : Nat) :
    Option.Rel R l[i]? k[i]? := by
  induction h generalizing i with
  | nil => exact .none
  | cons hxy hrest ih =>
    cases i with
    | zero => exact .some hxy
    | succ i => exact ih i

theorem owners_set (hm : ms[i]? = some (some m)) (ho : os[i]? = some (some o)) :
    owners (ms.set i (some m')) (os.set i (some o')) =
      Function.update (owners ms os) i (owned (some m') (some o')) := by
  funext j
  obtain ⟨hmi, -⟩ := List.getElem?_eq_some_iff.mp hm
  obtain ⟨hoi, -⟩ := List.getElem?_eq_some_iff.mp ho
  by_cases hj : j = i
  · rw [hj, Function.update_self, owners, List.getElem?_set_self hmi, List.getElem?_set_self hoi]
    rfl
  · rw [Function.update_of_ne hj, owners, List.getElem?_set_ne (Ne.symm hj), List.getElem?_set_ne (Ne.symm hj), owners]

theorem owners_register (h : List.Forall₂ (Option.Rel Matches) ms os) (kind : Option Kind) :
    owners (ms ++ [kind.map Kind.new]) (os ++ [kind.map Kind.outlet]) = owners ms os := by
  funext j
  have hlength := h.length_eq
  unfold owners
  by_cases hj : j < ms.length
  · rw [List.getElem?_append_left hj, List.getElem?_append_left (hlength ▸ hj)]
  · rw [List.getElem?_append_right (by omega), List.getElem?_append_right (by omega), hlength,
      List.getElem?_eq_none (l := ms) (by omega)]
    cases j - os.length with
    | zero => rcases kind with _ | (_ | _ | _ | _) <;> rfl
    | succ n => rfl

theorem Kind.matches (kind : Kind) : Matches kind.new kind.outlet := by
  cases kind with
  | clipboard => exact .clipboard
  | file path => exact .file path
  | stdout => exact .stdout
  | memory => exact .empty 0

theorem register_matches (kind : Option Kind) : Option.Rel Matches (kind.map Kind.new) (kind.map Kind.outlet) := by
  cases kind with
  | none => exact .none
  | some kind => exact .some kind.matches

/-! ## Memory -/

variable {own : Nat → Option (Nat × Bytes)} {heap : Heap UInt8} {mem : MemoryDelivery} {e : Supply} {secret : Bytes}
  {w : World}

theorem clear_owned {held : Option Bytes} (hmatch : Matches (.memory mem) (.memory held)) (ho : Heap.Owns own heap)
    (hi : own i = owned (some (.memory mem)) (some (.memory held))) (hw : Wiped heap) :
    ∃ heap', mem.clear heap = some heap' ∧ Heap.Owns (Function.update own i none) heap' ∧ Wiped heap' := by
  cases hmatch with
  | empty size =>
    have hsame : Function.update own i none = own := Function.update_eq_self_iff.mpr hi.symm
    rw [hsame]
    exact ⟨heap, rfl, ho, hw⟩
  | holding a c =>
    obtain ⟨heap', hwipe, -, hblocks, hreleased⟩ := Heap.wipe_live (ho.live i a c hi) 0
    refine ⟨heap', hwipe, ho.drop hi hblocks, fun r hr => ?_⟩
    rw [hreleased] at hr
    rcases List.mem_append.mp hr with hr | hr
    · exact hw r hr
    · rw [List.mem_singleton.mp hr]
      exact fun c hc => List.eq_of_mem_replicate hc

/-- Where the pointer is not null, or nothing was to be stored, the bytes are the secret that the outlet holds. -/
theorem copy_owned {held : Option Bytes} (hmatch : Matches (.memory mem) (.memory held)) (ho : Heap.Owns own heap)
    (hi : own i = owned (some (.memory mem)) (some (.memory held))) (hsize : (mem.data.isNone && mem.size ≠ 0) = false) :
    mem.copy heap = some (held.getD []) := by
  cases hmatch with
  | empty size =>
    have hzero : size = 0 := by simpa using hsize
    exact if_pos hzero
  | holding a c => exact Heap.read_live (ho.live i a c hi)

theorem clear_released {heap' : Heap UInt8} (h : mem.clear heap = some heap') :
    ∃ more, heap'.released = heap.released ++ more := by
  unfold MemoryDelivery.clear at h
  cases hdata : mem.data with
  | none =>
    rw [hdata] at h
    obtain rfl := Option.some.inj h
    exact ⟨[], (List.append_nil _).symm⟩
  | some a =>
    rw [hdata] at h
    obtain ⟨c, hc⟩ := Heap.wipe_released h
    exact ⟨[(a, c)], hc⟩

/-! ## One delivery -/

variable (secret) in
/-- Unless it leaves a pointer to memory that is deleted, a delivery is what the outlet does. -/
theorem deliver_outlet (hmatch : Matches m o) (ho : Heap.Owns own w.heap) (hi : own i = owned (some m) (some o))
    (hw : Wiped w.heap) (halloc : e.alloc = true ∨ ∀ mem, m = .memory mem → mem.data = none) :
    ∃ m' w', m.deliver e secret w = some ((o.deliver e secret w.sinks).1, m', w') ∧
      Matches m' (o.deliver e secret w.sinks).2.1 ∧ w'.sinks = (o.deliver e secret w.sinks).2.2 ∧
      Heap.Owns (Function.update own i (owned (some m') (some (o.deliver e secret w.sinks).2.1))) w'.heap ∧
      Wiped w'.heap := by
  -- the other methods have no memory
  have hother : owned (some m) (some o) = none → Function.update own i none = own :=
    fun hnone => Function.update_eq_self_iff.mpr (hi.trans hnone).symm
  have hmemory : ∀ mem held, m = .memory mem → o = .memory held → ∃ m' w',
      m.deliver e secret w = some ((o.deliver e secret w.sinks).1, m', w') ∧
      Matches m' (o.deliver e secret w.sinks).2.1 ∧ w'.sinks = (o.deliver e secret w.sinks).2.2 ∧
      Heap.Owns (Function.update own i (owned (some m') (some (o.deliver e secret w.sinks).2.1))) w'.heap ∧
      Wiped w'.heap := by
    rintro mem held rfl rfl
    obtain ⟨heap, hclear, howns, hwiped⟩ := clear_owned hmatch ho hi hw
    by_cases ha : e.alloc = true
    · refine ⟨.memory ⟨some heap.next, secret.length⟩, ⟨heap.alloc secret, _⟩, ?_, ?_, rfl, ?_, hwiped⟩
      · simp only [DeliveryMethod.deliver, MemoryDelivery.deliver, hclear, Option.map_some, Outlet.deliver, if_pos ha]
      · rw [Outlet.deliver, if_pos ha]
        exact .holding heap.next secret
      · rw [Outlet.deliver, if_pos ha]
        have hnew := howns.alloc (i := i) (Function.update_self ..) secret
        rwa [Function.update_idem] at hnew
    · have hdata : mem.data = none := (halloc.resolve_left ha) mem rfl
      refine ⟨.memory ⟨mem.data, secret.length⟩, ⟨heap, w.sinks⟩, ?_, ?_, ?_, ?_, hwiped⟩
      · simp only [DeliveryMethod.deliver, MemoryDelivery.deliver, hclear, Option.map_some, Outlet.deliver, if_neg ha]
      · rw [Outlet.deliver, if_neg ha, hdata]
        exact .empty secret.length
      · rw [Outlet.deliver, if_neg ha]
      · rw [Outlet.deliver, if_neg ha, hdata]
        exact howns
  cases hmatch with
  | clipboard =>
    refine ⟨.clipboard, _, rfl, .clipboard, rfl, ?_, hw⟩
    exact (hother rfl).symm ▸ ho
  | file path =>
    refine ⟨.file path, _, rfl, .file path, rfl, ?_, hw⟩
    exact (hother rfl).symm ▸ ho
  | stdout =>
    refine ⟨.stdout, _, rfl, .stdout, rfl, ?_, hw⟩
    exact (hother rfl).symm ▸ ho
  | empty size => exact hmemory _ _ rfl rfl
  | holding a c => exact hmemory _ _ rfl rfl

/-! ## Runs -/

variable {s s' : DeliveryManager} {t : Outlets} {ev : Event} {evs : List Event}

variable (secret e) in
theorem deliver_found {name : Bytes} (hm : firstNamed DeliveryMethod.name name s.methods = some (some (i, m))) :
    s.step (.deliver name secret e) = (m.deliver e secret s.world).map fun r =>
      ⟨s.methods.set i (some r.2.1), r.2.2, s.outputs ++ [.delivered r.1]⟩ := by
  rw [DeliveryManager.step, DeliveryManager.deliver, hm]

theorem deliver_notFound {name : Bytes} (hm : firstNamed DeliveryMethod.name name s.methods = some none) :
    s.step (.deliver name secret e) = some ⟨s.methods, ⟨s.world.heap, s.world.sinks.report (notFound name)⟩,
      s.outputs ++ [.delivered (.ok false)]⟩ := by
  rw [DeliveryManager.step, DeliveryManager.deliver, hm]

theorem deliver_null {name : Bytes} (hm : firstNamed DeliveryMethod.name name s.methods = none) :
    s.step (.deliver name secret e) = none := by
  rw [DeliveryManager.step, DeliveryManager.deliver, hm]

theorem outlets_found {name : Bytes} (ho : firstNamed Outlet.name name t.outlets = some (some (i, o))) :
    t.step (.deliver name secret e) = some ⟨t.outlets.set i (some (o.deliver e secret t.sinks).2.1),
      (o.deliver e secret t.sinks).2.2, t.outputs ++ [.delivered (o.deliver e secret t.sinks).1]⟩ := by
  rw [Outlets.step, ho]
  rfl

theorem outlets_notFound {name : Bytes} (ho : firstNamed Outlet.name name t.outlets = some none) :
    t.step (.deliver name secret e) =
      some ⟨t.outlets, t.sinks.report (notFound name), t.outputs ++ [.delivered (.ok false)]⟩ := by
  rw [Outlets.step, ho]
  rfl

theorem copy_memory {mem : MemoryDelivery} (hm : s.methods[i]? = some (some (.memory mem))) :
    s.step (.copy i) = (mem.copy s.world.heap).map fun b => { s with outputs := s.outputs ++ [.copied b] } := by
  rw [DeliveryManager.step, hm]

theorem Stands.start (files : FS) : Stands (.start files) (.start files) := by
  refine ⟨.nil, rfl, rfl, ?_, nofun⟩
  exact Heap.Owns.start

theorem Stands.output (h : Stands s t) (x : Output) :
    Stands { s with outputs := s.outputs ++ [x] } { t with outputs := t.outputs ++ [x] } :=
  ⟨h.outlets, h.sinks, congrArg (· ++ [x]) h.outputs, h.owns, h.wiped⟩

theorem Stands.deliver {methodName secret : Bytes} {e : Supply} (h : Stands s t)
    (hd : s.Misused (.deliver methodName secret e) = false) :
    ∃ s' t', s.step (.deliver methodName secret e) = some s' ∧ t.step (.deliver methodName secret e) = some t' ∧
      Stands s' t' := by
  rcases firstNamed_matches h.outlets methodName with ⟨hm, -⟩ | ⟨hm, ho⟩ | ⟨i, m, o, hm, ho, hmatch, hmi, hoi⟩
  · simp [DeliveryManager.Misused, hm] at hd
  · refine ⟨_, _, deliver_notFound hm, outlets_notFound ho, h.outlets, ?_, ?_, h.owns, h.wiped⟩
    · exact congrArg (Sinks.report · (notFound methodName)) h.sinks
    · exact congrArg (· ++ [.delivered (.ok false)]) h.outputs
  · have halloc : e.alloc = true ∨ ∀ mem, m = DeliveryMethod.memory mem → mem.data = none := by
      by_cases ha : e.alloc = true
      · exact .inl ha
      · refine .inr ?_
        rintro mem rfl
        simpa [DeliveryManager.Misused, hm, ha] using hd
    have hi : owners s.methods t.outlets i = owned (some m) (some o) := by
      rw [owners, hmi, hoi]
      rfl
    obtain ⟨m', w', hdeliver, hmatch', hsinks, howns, hwiped⟩ :=
      deliver_outlet secret hmatch h.owns hi h.wiped halloc
    have hstep := deliver_found e secret hm
    rw [hdeliver] at hstep
    rw [h.sinks] at hstep hmatch' hsinks howns
    refine ⟨_, _, hstep, outlets_found ho, forall₂_set h.outlets (.some hmatch') i, hsinks, ?_, ?_, hwiped⟩
    · exact congrArg (· ++ [_]) h.outputs
    · change Heap.Owns (owners (s.methods.set i (some m')) (t.outlets.set i (some _))) w'.heap
      rw [owners_set hmi hoi]
      exact howns

theorem Stands.copy (h : Stands s t) (hd : s.Misused (.copy i) = false) :
    ∃ s' t', s.step (.copy i) = some s' ∧ t.step (.copy i) = some t' ∧ Stands s' t' := by
  have hmemory : ∀ mem held, Matches (.memory mem) (.memory held) → s.methods[i]? = some (some (.memory mem)) →
      t.outlets[i]? = some (some (.memory held)) →
      ∃ s' t', s.step (.copy i) = some s' ∧ t.step (.copy i) = some t' ∧ Stands s' t' := by
    intro mem held hmatch hm ho
    have hi : owners s.methods t.outlets i = owned (some (.memory mem)) (some (.memory held)) := by
      rw [owners, hm, ho]
      rfl
    have hsize : (mem.data.isNone && mem.size ≠ 0) = false := by
      rw [DeliveryManager.Misused, hm] at hd
      exact hd
    refine ⟨_, _, ?_, ?_, h.output (.copied (held.getD []))⟩
    · rw [copy_memory hm, copy_owned hmatch h.owns hi hsize, Option.map_some]
    · rw [Outlets.step, ho]
  have hrel := forall₂_getElem? h.outlets i
  generalize hm : s.methods[i]? = m, ho : t.outlets[i]? = o at hrel
  cases hrel with
  | none => exact ⟨s, t, by rw [DeliveryManager.step, hm], by rw [Outlets.step, ho], h⟩
  | some hrel =>
    cases hrel with
    | none => exact ⟨s, t, by rw [DeliveryManager.step, hm], by rw [Outlets.step, ho], h⟩
    | some hmatch =>
      cases hmatch with
      | empty size => exact hmemory _ _ (.empty size) hm ho
      | holding a c => exact hmemory _ _ (.holding a c) hm ho
      | _ => exact ⟨s, t, by rw [DeliveryManager.step, hm], by rw [Outlets.step, ho], h⟩

/-- The manager goes on with the outlets, unless a call is misused. -/
theorem Stands.step (h : Stands s t) (hd : s.Misused ev = false) :
    ∃ s' t', s.step ev = some s' ∧ t.step ev = some t' ∧ Stands s' t' := by
  cases ev with
  | registerMethod kind =>
    refine ⟨_, _, rfl, rfl, ?_, h.sinks, h.outputs, ?_, h.wiped⟩
    · exact List.rel_append h.outlets (.cons (register_matches kind) .nil)
    · change Heap.Owns (owners (s.methods ++ [kind.map Kind.new]) (t.outlets ++ [kind.map Kind.outlet])) _
      rw [owners_register h.outlets]
      exact h.owns
  | deliver methodName secret e => exact h.deliver hd
  | listMethods =>
    have hnames : s.listMethods = t.listMethods := names_eq h.outlets
    cases hlist : s.listMethods with
    | none =>
      rw [DeliveryManager.Misused, names_none.mp hlist] at hd
      cases hd
    | some l =>
      refine ⟨_, _, ?_, ?_, h.output (.names l)⟩
      · rw [DeliveryManager.step, hlist, Option.map_some]
      · rw [Outlets.step, ← hnames, hlist, Option.map_some]
  | copy i => exact h.copy hd

/-- A method has a pointer to memory that was deleted. -/
def Broken (s : DeliveryManager) : Prop :=
  ∃ i a n : Nat, s.methods[i]? = some (some (.memory ⟨some a, n⟩)) ∧ s.world.heap.Dead a

/-- A call that is misused, and has an end, leaves such a pointer. -/
theorem Misused.broken (hd : s.Misused ev = true) (hs : s.step ev = some s') : Broken s' := by
  cases ev with
  | registerMethod kind => cases hd
  | deliver methodName secret e =>
    unfold DeliveryManager.Misused at hd
    dsimp only at hd
    split at hd
    case h_1 i mem hm =>
      obtain ⟨halloc, hholds⟩ := Bool.and_eq_true_iff.mp hd
      obtain ⟨a, ha⟩ := Option.isSome_iff_exists.mp hholds
      obtain ⟨hlt, -⟩ := List.getElem?_eq_some_iff.mp (firstNamed_getElem hm)
      rw [deliver_found _ _ hm] at hs
      obtain ⟨r, hr, rfl⟩ := Option.map_eq_some_iff.mp hs
      obtain ⟨r', hr', rfl⟩ := Option.map_eq_some_iff.mp hr
      obtain ⟨heap, hclear, rfl⟩ := Option.map_eq_some_iff.mp hr'
      rw [MemoryDelivery.clear, ha] at hclear
      obtain ⟨c, hc⟩ := Heap.wipe_released hclear
      rw [Bool.not_eq_true'] at halloc
      simp only [halloc, Bool.false_eq_true, if_false, ha]
      refine ⟨i, a, secret.length, List.getElem?_set_self hlt, ?_⟩
      change a ∈ heap.released.map Prod.fst
      rw [hc, List.map_append]
      exact List.mem_append_right _ List.mem_cons_self
    case h_2 => cases hd
    case h_3 hnull =>
      rw [deliver_null hnull] at hs
      cases hs
  | listMethods =>
    have hnone : s.listMethods = none := names_none.mpr hd
    rw [DeliveryManager.step, hnone] at hs
    cases hs
  | copy i =>
    unfold DeliveryManager.Misused at hd
    dsimp only at hd
    split at hd
    case h_1 mem hm =>
      have hnull : mem.data = none ∧ mem.size ≠ 0 := by simpa using hd
      rw [copy_memory hm, MemoryDelivery.copy, hnull.1] at hs
      dsimp only at hs
      rw [if_neg hnull.2] at hs
      cases hs
    case h_2 => cases hd

theorem clear_dead {a n : Nat} (hd : heap.Dead a) : MemoryDelivery.clear ⟨some a, n⟩ heap = none := hd.wipe n 0

theorem deliver_dead {a : Nat} {r : Result × DeliveryMethod × World} (hr : m.deliver e secret w = some r)
    (hd : w.heap.Dead a) : r.2.2.heap.Dead a := by
  cases m with
  | memory mem =>
    obtain ⟨r', hr', rfl⟩ := Option.map_eq_some_iff.mp hr
    obtain ⟨heap, hclear, rfl⟩ := Option.map_eq_some_iff.mp hr'
    obtain ⟨more, hmore⟩ := clear_released hclear
    have hdead : heap.Dead a := hd.of_released hmore
    by_cases ha : e.alloc = true
    · simp only [ha, if_true]
      exact hdead
    · simp only [ha]
      exact hdead
  | _ =>
    obtain rfl := Option.some.inj hr
    exact hd

theorem destroy_dead {a : Nat} {w' : World} (hr : m.destroy w = some w') (hd : w.heap.Dead a) : w'.heap.Dead a := by
  cases m with
  | memory mem =>
    obtain ⟨heap, hclear, rfl⟩ := Option.map_eq_some_iff.mp hr
    obtain ⟨more, hmore⟩ := clear_released hclear
    exact hd.of_released hmore
  | _ =>
    obtain rfl := Option.some.inj hr
    exact hd

/-- Outputs and readings leave the methods and the memory. -/
theorem Broken.step (h : Broken s) (hs : s.step ev = some s') : Broken s' := by
  obtain ⟨i, a, n, hi, hdead⟩ := h
  obtain ⟨hlt, -⟩ := List.getElem?_eq_some_iff.mp hi
  cases ev with
  | registerMethod kind =>
    obtain rfl := Option.some.inj hs
    exact ⟨i, a, n, (List.getElem?_append_left hlt).trans hi, hdead⟩
  | deliver methodName secret e =>
    rcases hm : firstNamed DeliveryMethod.name methodName s.methods with _ | _ | ⟨j, m⟩
    · rw [deliver_null hm] at hs
      cases hs
    · rw [deliver_notFound hm] at hs
      obtain rfl := Option.some.inj hs
      exact ⟨i, a, n, hi, hdead⟩
    · rw [deliver_found _ _ hm] at hs
      obtain ⟨r, hr, rfl⟩ := Option.map_eq_some_iff.mp hs
      by_cases hj : j = i
      · -- the method would delete its memory once more
        obtain rfl := Option.some.inj (Option.some.inj ((firstNamed_getElem hm).symm.trans (hj ▸ hi)))
        rw [DeliveryMethod.deliver, MemoryDelivery.deliver, clear_dead hdead] at hr
        cases hr
      · exact ⟨i, a, n, (List.getElem?_set_ne hj).trans hi, deliver_dead hr hdead⟩
  | listMethods =>
    obtain ⟨l, -, rfl⟩ := Option.map_eq_some_iff.mp hs
    exact ⟨i, a, n, hi, hdead⟩
  | copy j =>
    rw [DeliveryManager.step] at hs
    split at hs
    case h_1 =>
      obtain ⟨b, -, rfl⟩ := Option.map_eq_some_iff.mp hs
      exact ⟨i, a, n, hi, hdead⟩
    case h_2 =>
      obtain rfl := Option.some.inj hs
      exact ⟨i, a, n, hi, hdead⟩

/-- So would its destructor. -/
theorem Broken.destroy (h : Broken s) : s.destroy = none := by
  obtain ⟨i, a, n, hi, hdead⟩ := h
  have hmem : DeliveryMethod.memory ⟨some a, n⟩ ∈ s.methods.reduceOption :=
    List.reduceOption_mem_iff.mpr (List.mem_of_getElem? hi)
  have hall : ∀ (ms : List DeliveryMethod) (w : World), .memory ⟨some a, n⟩ ∈ ms → w.heap.Dead a →
      ms.foldlM DeliveryMethod.destroy w = none := by
    intro ms
    induction ms with
    | nil => exact nofun
    | cons m ms ih =>
      intro w hms hw
      rw [List.foldlM_cons]
      cases hm : DeliveryMethod.destroy w m with
      | none => rfl
      | some w' =>
        rcases List.mem_cons.mp hms with rfl | hms
        · rw [DeliveryMethod.destroy, clear_dead hw] at hm
          cases hm
        · exact ih w' hms (destroy_dead hm hw)
  exact hall s.methods.reduceOption s.world hmem hdead

theorem destroy_outlet (hmatch : Matches m o) (ho : Heap.Owns own w.heap) (hi : own i = owned (some m) (some o))
    (hw : Wiped w.heap) : ∃ w', m.destroy w = some w' ∧ w'.sinks = o.close w.sinks ∧ Wiped w'.heap ∧
      Heap.Owns (Function.update own i none) w'.heap := by
  have hother : owned (some m) (some o) = none → Heap.Owns (Function.update own i none) w.heap := by
    intro hnone
    rwa [Function.update_eq_self_iff.mpr (hi.trans hnone).symm]
  have hmemory : ∀ mem held, m = .memory mem → o = .memory held → ∃ w', m.destroy w = some w' ∧
      w'.sinks = o.close w.sinks ∧ Wiped w'.heap ∧ Heap.Owns (Function.update own i none) w'.heap := by
    rintro mem held rfl rfl
    obtain ⟨heap, hclear, howns, hwiped⟩ := clear_owned hmatch ho hi hw
    refine ⟨⟨heap, w.sinks⟩, ?_, rfl, hwiped, howns⟩
    rw [DeliveryMethod.destroy, hclear, Option.map_some]
  cases hmatch with
  | clipboard => exact ⟨_, rfl, rfl, hw, hother rfl⟩
  | file path => exact ⟨_, rfl, rfl, hw, hother rfl⟩
  | stdout => exact ⟨_, rfl, rfl, hw, hother rfl⟩
  | empty size => exact hmemory _ _ rfl rfl
  | holding a c => exact hmemory _ _ rfl rfl

theorem owners_tail {m : Option DeliveryMethod} {o : Option Outlet} {heap : Heap UInt8}
    (ho : Heap.Owns (Function.update (owners (m :: ms) (o :: os)) 0 none) heap) : Heap.Owns (owners ms os) heap := by
  refine ho.rename (f := Nat.succ) Nat.succ_injective fun i x hi => ?_
  cases i with
  | zero => cases hi
  | succ i => exact ⟨i, rfl⟩

/-- The destructors zero all memory that there is and delete it. -/
theorem destroy_wipes (h : List.Forall₂ (Option.Rel Matches) ms os) (ho : Heap.Owns (owners ms os) w.heap)
    (hw : Wiped w.heap) : ∃ w', ms.reduceOption.foldlM DeliveryMethod.destroy w = some w' ∧
      w'.sinks = os.reduceOption.foldl Outlet.close w.sinks ∧ Wiped w'.heap ∧ ∀ a, w'.heap.blocks a = none := by
  induction h generalizing w with
  | nil => exact ⟨w, rfl, rfl, hw, fun a => (ho.none_left (fun _ => rfl) a).1⟩
  | @cons m o ms os hmatch hrest ih =>
    cases hmatch with
    | none =>
      rw [List.reduceOption_cons_of_none, List.reduceOption_cons_of_none]
      have hsame : Function.update (owners (none :: ms) (none :: os)) 0 none = owners (none :: ms) (none :: os) :=
        Function.update_eq_self_iff.mpr rfl
      exact ih (owners_tail (hsame.symm ▸ ho)) hw
    | @some m o hmatch =>
      obtain ⟨w₁, hw₁, hsinks, hwiped, howns⟩ := destroy_outlet (i := 0) hmatch ho rfl hw
      obtain ⟨w', hw', hsinks', hdone⟩ := ih (owners_tail howns) hwiped
      refine ⟨w', ?_, ?_, hdone⟩
      · rw [List.reduceOption_cons_of_some, List.foldlM_cons, hw₁]
        exact hw'
      · rw [hsinks', hsinks, List.reduceOption_cons_of_some, List.foldl_cons]

/-! ## Up to the destruction -/

theorem Stands.run (h : Stands s t) (hc : Along DeliveryManager.step (fun s ev => s.Misused ev = false) s evs) :
    ∃ s' t', runs DeliveryManager.step s evs = some s' ∧ runs Outlets.step t evs = some t' ∧ Stands s' t' := by
  induction evs generalizing s t with
  | nil => exact ⟨s, t, rfl, rfl, h⟩
  | cons ev evs ih =>
    obtain ⟨s₁, t₁, hs₁, ht₁, h₁⟩ := h.step hc.1
    obtain ⟨s', t', hs', ht', h'⟩ := ih h₁ (hc.2 s₁ hs₁)
    exact ⟨s', t', runs_cons.mpr ⟨s₁, hs₁, hs'⟩, runs_cons.mpr ⟨t₁, ht₁, ht'⟩, h'⟩

/-- Where the destruction is reached, no call was misused. -/
theorem Stands.along (h : Stands s t) (hr : runs DeliveryManager.step s evs = some s') (hd : s'.destroy.isSome) :
    Along DeliveryManager.step (fun s ev => s.Misused ev = false) s evs := by
  induction evs generalizing s t with
  | nil => trivial
  | cons ev evs ih =>
    obtain ⟨s₁, hs₁, hr⟩ := runs_cons.mp hr
    have hev : s.Misused ev = false := by
      by_contra hev
      have hbroken : Broken s' := runs_preserves (fun _ _ _ hb hs => Broken.step hb hs)
        (Misused.broken (Bool.eq_true_of_not_eq_false hev) hs₁) hr
      rw [hbroken.destroy] at hd
      cases hd
    obtain ⟨s₂, t₂, hs₂, ht₂, h₂⟩ := h.step hev
    obtain rfl : s₁ = s₂ := Option.some.inj (hs₁.symm.trans hs₂)
    refine ⟨hev, fun s₃ hs₃ => ?_⟩
    obtain rfl : s₁ = s₃ := Option.some.inj (hs₁.symm.trans hs₃)
    exact ih h₂ hr

/-- A run of a manager that ends with its destruction makes no invalid access exactly when no call is misused. Then it gives
and writes what the outlets do, and all its memory was zeroed and deleted once. -/
theorem delivery_safe (files : FS) (evs : List Event) :
    (((runs DeliveryManager.step (.start files) evs).bind DeliveryManager.destroy).isSome ↔
      Along DeliveryManager.step (fun s ev => s.Misused ev = false) (.start files) evs) ∧
    ∀ s w, runs DeliveryManager.step (.start files) evs = some s → s.destroy = some w →
      ∃ t, runs Outlets.step (.start files) evs = some t ∧ s.outputs = t.outputs ∧
        s.listMethods = t.listMethods ∧ w.sinks = t.close ∧ Wiped w.heap ∧ ∀ a, w.heap.blocks a = none := by
  have hdone : ∀ {s w}, runs DeliveryManager.step (.start files) evs = some s → s.destroy = some w →
      Along DeliveryManager.step (fun s ev => s.Misused ev = false) (.start files) evs := by
    intro s w hs hw
    refine (Stands.start files).along hs ?_
    rw [hw]
    rfl
  refine ⟨⟨fun hsome => ?_, fun halong => ?_⟩, fun s w hs hw => ?_⟩
  · obtain ⟨w, hw⟩ := Option.isSome_iff_exists.mp hsome
    obtain ⟨s, hs, hw⟩ := Option.bind_eq_some_iff.mp hw
    exact hdone hs hw
  · obtain ⟨s, t, hs, -, hst⟩ := (Stands.start files).run halong
    obtain ⟨w, hw, -⟩ := destroy_wipes hst.outlets hst.owns hst.wiped
    rw [hs, Option.bind_some, DeliveryManager.destroy, hw]
    rfl
  · obtain ⟨s', t, hs', ht, hst⟩ := (Stands.start files).run (hdone hs hw)
    obtain rfl : s = s' := Option.some.inj (hs.symm.trans hs')
    obtain ⟨w', hw', hsinks, hwiped, hnone⟩ := destroy_wipes hst.outlets hst.owns hst.wiped
    obtain rfl : w = w' := Option.some.inj (hw.symm.trans hw')
    refine ⟨t, ht, hst.outputs, ?_, ?_, hwiped, hnone⟩
    · exact names_eq hst.outlets
    · rw [hsinks, hst.sinks, Outlets.close]

/-- The memory is deleted at the second delivery, and would be deleted again by the destructor. -/
example : ((runs DeliveryManager.step (.start fun _ => none) [
    .registerMethod (some .memory), .deliver (ascii "memory") (ascii "first") ⟨true, .full true⟩,
    .deliver (ascii "memory") (ascii "second") ⟨false, .full true⟩]).map fun s => s.destroy.isSome) = some false := by
  decide

end Passdoq.Delivery
