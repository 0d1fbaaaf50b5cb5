import Passdoq.Lib.Heap
import Passdoq.Memory.TimeLimited

/-!
# Secure buffers in memory

The `SecureBuffer` objects of a program with their storage: it is locked into memory when a buffer is made, moves with the
buffer, and is zeroed, unlocked and freed at its end. The kernel locks and unlocks whole pages, and does not count.

* `Vector`, `Arena`, `Arena.step` : the objects, the heap and the locked pages; `place` is where the allocator puts a block;
* `Contents`, `Contents.step` : the same objects as values;
* `Stands`, `Stands.step` : every applicable call goes through, and does to the memory what it does to the values;
* `KeepsLocked` : a new buffer is locked or lies on locked pages, and the end of one unlocks no page of another;
* `buffers_secure` : no run leaks or leaves a secret in freed memory; when all buffers are locked throughout.
-/

namespace Passdoq.Memory

/-! ## Pages -/

def PAGE_SIZE : Nat := 4096

/-- Whether the page has a byte of the `n` bytes at an address. -/
def touches (address n page : Nat) : Bool := address / PAGE_SIZE ≤ page && page ≤ (address + n - 1) / PAGE_SIZE && 0 < n

/-- `mlock`, where it succeeds. -/
def mlock (address n : Nat) (locked : Nat → Bool) : Nat → Bool := fun page => touches address n page || locked page

def munlock (address n : Nat) (locked : Nat → Bool) : Nat → Bool := fun page => !touches address n page && locked page

/-! ## The objects -/

/-- A `std::vector<uint8_t>`: its storage, `none` where it has none, and its size. -/
structure Vector where
  storage : Option Nat
  size : Nat
  deriving DecidableEq

structure Arena (ι : Type) where
  heap : Heap UInt8
  locked : Nat → Bool
  buffers : ι → Option Vector

inductive Call (ι : Type)
  | construct (x : ι) (size : Nat) (alloc locks : Bool)
  | moveConstruct (x y : ι)
  | moveAssign (x y : ι)
  | write (x : ι) (i : Nat) (c : UInt8)
  | zero (x : ι)
  | destroy (x : ι)

variable {ι : Type} [DecidableEq ι]

namespace Arena

def start : Arena ι := ⟨.empty, fun _ => false, fun _ => none⟩

variable (place : Nat → Nat) (s : Arena ι)

/-- `zero()`. -/
def zero (v : Vector) : Option (Arena ι) :=
  match v.storage with
  | some a => (s.heap.fill a v.size 0).map fun heap => { s with heap := heap }
  | none => some s

/-- The storage is zeroed, unlocked and freed. -/
def letGo (v : Vector) : Option (Arena ι) :=
  match v.storage with
  | some a => (s.heap.wipe a v.size 0).map fun heap =>
    { s with heap := heap, locked := munlock (place a) v.size s.locked }
  | none => some s

/-- A call within the lifetimes of its buffers; `none` where it is not, and where it makes an invalid access. -/
def step : Call ι → Option (Arena ι)
  | .construct x size alloc locks =>
    match s.buffers x with
    | some _ => none
    | none =>
      if size = 0 then some { s with buffers := Function.update s.buffers x (some ⟨none, 0⟩) }
      -- the exception leaves no object
      else if ¬ alloc then some s
      else some {
        heap := s.heap.alloc (List.replicate size 0)
        locked := if locks then mlock (place s.heap.next) size s.locked else s.locked
        buffers := Function.update s.buffers x (some ⟨some s.heap.next, size⟩) }
  | .moveConstruct x y =>
    match s.buffers x, s.buffers y with
    | none, some v => some { s with buffers := Function.update (Function.update s.buffers y (some ⟨none, 0⟩)) x (some v) }
    | _, _ => none
  | .moveAssign x y =>
    match s.buffers x, s.buffers y with
    | some v, some v' =>
      if x = y then some s
      else (s.letGo place v).map fun s =>
        { s with buffers := Function.update (Function.update s.buffers y (some ⟨none, 0⟩)) x (some v') }
    | _, _ => none
  | .write x i c =>
    match s.buffers x with
    | some ⟨some a, size⟩ =>
      if i < size then (s.heap.blocks a).bind fun b => (s.heap.store a (b.set i c)).map fun heap => { s with heap := heap }
      else none
    | _ => none
  | .zero x => (s.buffers x).bind s.zero
  | .destroy x => (s.buffers x).bind fun v => (s.letGo place v).map fun s =>
    { s with buffers := Function.update s.buffers x none }

end Arena

/-! ## The objects as values -/

abbrev Contents (ι : Type) := ι → Option SecureBuffer

/-- A moved buffer is empty. -/
def Contents.step (t : Contents ι) : Call ι → Option (Contents ι)
  | .construct x size alloc _ =>
    match t x with
    | some _ => none
    | none => if size ≠ 0 ∧ ¬ alloc then some t else some (Function.update t x (some (SecureBuffer.new size)))
  | .moveConstruct x y =>
    match t x, t y with
    | none, some b => some (Function.update (Function.update t y (some ⟨[]⟩)) x (some b))
    | _, _ => none
  | .moveAssign x y =>
    match t x, t y with
    | some _, some b => if x = y then some t else some (Function.update (Function.update t y (some ⟨[]⟩)) x (some b))
    | _, _ => none
  | .write x i c =>
    match t x with
    | some b => if i < b.buffer.length then some (Function.update t x (some ⟨b.buffer.set i c⟩)) else none
    | none => none
  | .zero x => (t x).map fun b => Function.update t x (some b.zero)
  | .destroy x => (t x).map fun _ => Function.update t x none

/-! ## Memory and values -/

inductive Agree : Option Vector → Option SecureBuffer → Prop
  | none : Agree none none
  | empty : Agree (some ⟨none, 0⟩) (some ⟨[]⟩)
  | held (a : Nat) (b : Bytes) (hb : b ≠ []) : Agree (some ⟨some a, b.length⟩) (some ⟨b⟩)

/-- The block of a buffer, with what it holds. -/
def owned : Option Vector → Option SecureBuffer → Option (Nat × Bytes)
  | some ⟨some a, _⟩, some b => some (a, b.buffer)
  | _, _ => none

/-- The buffers hold the values, and own the memory; what was freed held zeros. -/
structure Stands (s : Arena ι) (t : Contents ι) : Prop where
  agree : ∀ x, Agree (s.buffers x) (t x)
  owns : Heap.Owns (fun x => owned (s.buffers x) (t x)) s.heap
  wiped : ∀ r ∈ s.heap.released, ∀ c ∈ r.2, c = 0

/-! ## Locked pages -/

def PagesLocked (place : Nat → Nat) (locked : Nat → Bool) (v : Option Vector) : Prop :=
  ∀ a n, v = some ⟨some a, n⟩ → ∀ page, touches (place a) n page = true → locked page = true

/-- All pages of the storage of every buffer are locked. -/
def AllLocked (place : Nat → Nat) (s : Arena ι) : Prop := ∀ x, PagesLocked place s.locked (s.buffers x)

/-- No page has bytes of both. -/
def NoneShared (place : Nat → Nat) (v w : Option Vector) : Prop :=
  ∀ a m b n, v = some ⟨some a, m⟩ → w = some ⟨some b, n⟩ → ∀ page, touches (place a) m page = true →
    touches (place b) n page = false

def Apart (place : Nat → Nat) (s : Arena ι) (x : ι) : Prop := ∀ y, y ≠ x → NoneShared place (s.buffers x) (s.buffers y)

/-- A new buffer is locked, or lies on locked pages; a buffer whose storage is let go shares no page with another. -/
def KeepsLocked (place : Nat → Nat) (s : Arena ι) : Call ι → Prop
  | .construct _ size alloc locks => alloc = true → locks = true ∨
    ∀ page, touches (place s.heap.next) size page = true → s.locked page = true
  | .moveAssign x y => x = y ∨ Apart place s x
  | .destroy x => Apart place s x
  | _ => True

/-! ## Every call goes through -/

variable {place : Nat → Nat} {s s' : Arena ι} {t t' : Contents ι} {x y : ι} {v : Vector} {b : SecureBuffer}

theorem owned_update {B : ι → Option Vector} {T : Contents ι} (x : ι) (v : Option Vector) (b : Option SecureBuffer) :
    (fun z => owned (Function.update B x v z) (Function.update T x b z)) =
      Function.update (fun z => owned (B z) (T z)) x (owned v b) := by
  funext z
  by_cases hz : z = x
  · rw [hz, Function.update_self, Function.update_self, Function.update_self]
  · rw [Function.update_of_ne hz, Function.update_of_ne hz, Function.update_of_ne hz]

theorem agree_update {B : ι → Option Vector} {T : Contents ι} (h : ∀ z, Agree (B z) (T z)) {v : Option Vector}
    {b : Option SecureBuffer} (hv : Agree v b) (x z : ι) : Agree (Function.update B x v z) (Function.update T x b z) := by
  by_cases hz : z = x
  · rw [hz, Function.update_self, Function.update_self]
    exact hv
  · rw [Function.update_of_ne hz, Function.update_of_ne hz]
    exact h z

omit [DecidableEq ι] in
/-- Both have the object or neither. -/
theorem Stands.cases (h : Stands s t) (x : ι) : (s.buffers x = none ∧ t x = none) ∨
    ∃ v b, s.buffers x = some v ∧ t x = some b ∧ Agree (some v) (some b) := by
  have hx := h.agree x
  cases hv : s.buffers x with
  | none =>
    rw [hv] at hx
    cases hb : t x with
    | none => exact .inl ⟨rfl, rfl⟩
    | some b =>
      rw [hb] at hx
      cases hx
  | some v =>
    rw [hv] at hx
    cases hb : t x with
    | none =>
      rw [hb] at hx
      cases hx
    | some b =>
      rw [hb] at hx
      exact .inr ⟨v, b, rfl, rfl, hx⟩

omit [DecidableEq ι] in
theorem Stands.start : Stands (Arena.start : Arena ι) (fun _ => none) where
  agree _ := .none
  owns := Heap.Owns.start
  wiped := nofun

variable (place) in
/-- The end of a buffer: its storage goes, zeroed. -/
theorem Stands.letGo (h : Stands s t) (hv : s.buffers x = some v) (hb : t x = some b) (hvb : Agree (some v) (some b)) :
    ∃ heap locked, s.letGo place v = some ⟨heap, locked, s.buffers⟩ ∧
      Heap.Owns (Function.update (fun z => owned (s.buffers z) (t z)) x none) heap ∧
      ∀ r ∈ heap.released, ∀ c ∈ r.2, c = 0 := by
  have hx : owned (s.buffers x) (t x) = owned (some v) (some b) := by rw [hv, hb]
  cases hvb with
  | empty =>
    refine ⟨s.heap, s.locked, rfl, ?_, h.wiped⟩
    rw [Function.update_eq_self_iff.mpr hx.symm]
    exact h.owns
  | held a c hc =>
    obtain ⟨heap, hwipe, -, hblocks, hreleased⟩ := Heap.wipe_live (h.owns.live x a c hx) 0
    refine ⟨heap, munlock (place a) c.length s.locked, ?_, h.owns.drop hx hblocks, fun r hr => ?_⟩
    · change (s.heap.wipe a c.length 0).map _ = _
      rw [hwipe]
      rfl
    · rw [hreleased] at hr
      rcases List.mem_append.mp hr with hr | hr
      · exact h.wiped r hr
      · rw [List.mem_singleton.mp hr]
        exact fun c hc => List.eq_of_mem_replicate hc

/-- The owner writes its whole storage. -/
theorem Stands.write (h : Stands s t) {a : Nat} {c c' : Bytes} (hv : s.buffers x = some ⟨some a, c.length⟩)
    (hb : t x = some ⟨c⟩) (hc : c ≠ []) (hlength : c'.length = c.length) :
    ∃ heap, s.heap.store a c' = some heap ∧ Stands { s with heap := heap } (Function.update t x (some ⟨c'⟩)) := by
  have hx : owned (s.buffers x) (t x) = some (a, c) := by rw [hv, hb, owned]
  obtain ⟨heap, hstore, -, hblocks, hreleased⟩ := Heap.store_live (h.owns.live x a c hx) (le_of_eq hlength)
  have hwhole : c' ++ c.drop c'.length = c' := by
    rw [hlength, List.drop_length, List.append_nil]
  rw [hwhole] at hblocks
  have hsame : Function.update s.buffers x (some ⟨some a, c'.length⟩) = s.buffers := by
    rw [hlength]
    exact Function.update_eq_self_iff.mpr hv.symm
  have hc' : c' ≠ [] := by
    intro hnil
    rw [hnil] at hlength
    exact hc (List.length_eq_zero_iff.mp hlength.symm)
  refine ⟨heap, hstore, ?_, ?_, ?_⟩
  · rw [← hsame]
    exact agree_update h.agree (.held a c' hc') x
  · rw [← hsame]
    have howns := h.owns.write hx hblocks
    rwa [owned_update]
  · change ∀ r ∈ heap.released, _
    rw [hreleased]
    exact h.wiped

/-- A buffer that is moved leaves an empty one. -/
theorem Stands.move (h : Stands s t) (hxy : x ≠ y) (hx : owned (s.buffers x) (t x) = none)
    (hv : s.buffers y = some v) (hb : t y = some b) (hvb : Agree (some v) (some b)) :
    Stands { s with buffers := Function.update (Function.update s.buffers y (some ⟨none, 0⟩)) x (some v) }
      (Function.update (Function.update t y (some ⟨[]⟩)) x (some b)) := by
  refine ⟨agree_update (agree_update h.agree .empty y) hvb x, ?_, h.wiped⟩
  rw [owned_update, owned_update]
  have hmove := h.owns.move (Ne.symm hxy) hx
  rwa [hv, hb] at hmove

/-- The call goes through for the memory and for the values, and they stay together, or for neither. -/
def Together (place : Nat → Nat) (s : Arena ι) (t : Contents ι) (c : Call ι) : Prop :=
  (s.step place c = none ∧ t.step c = none) ∨ ∃ s' t', s.step place c = some s' ∧ t.step c = some t' ∧ Stands s' t'

section Calls

variable (place)

theorem Stands.construct (h : Stands s t) (x : ι) (size : Nat) (alloc locks : Bool) :
    Together place s t (.construct x size alloc locks) := by
  rcases h.cases x with ⟨hv, hb⟩ | ⟨v, b, hv, hb, -⟩
  · have hx : owned (s.buffers x) (t x) = none := by rw [hv, hb]; rfl
    unfold Together
    rw [Arena.step, Contents.step, hv, hb]
    dsimp only
    by_cases hsize : size = 0
    · have hnew : SecureBuffer.new size = ⟨[]⟩ := by rw [hsize]; rfl
      rw [if_pos hsize, if_neg (show ¬(size ≠ 0 ∧ ¬alloc = true) from fun hne => hne.1 hsize), hnew]
      refine .inr ⟨_, _, rfl, rfl, agree_update h.agree .empty x, ?_, h.wiped⟩
      rw [owned_update]
      change Heap.Owns (Function.update _ x none) _
      rw [Function.update_eq_self_iff.mpr hx.symm]
      exact h.owns
    · rw [if_neg hsize]
      by_cases halloc : alloc = true
      · rw [if_neg (not_not_intro halloc), if_neg (show ¬(size ≠ 0 ∧ ¬alloc = true) from fun hne => hne.2 halloc)]
        refine .inr ⟨_, _, rfl, rfl, ?_, ?_, h.wiped⟩
        · have hheld : Agree (some ⟨some s.heap.next, (List.replicate size (0 : UInt8)).length⟩)
              (some ⟨List.replicate size 0⟩) := .held _ _ (by simp [hsize])
          rw [List.length_replicate] at hheld
          exact agree_update h.agree hheld x
        · rw [owned_update]
          exact h.owns.alloc hx _
      · rw [if_pos halloc, if_pos ⟨hsize, halloc⟩]
        exact .inr ⟨s, t, rfl, rfl, h⟩
  · left
    rw [Arena.step, Contents.step, hv, hb]
    exact ⟨rfl, rfl⟩

theorem Stands.moveConstruct (h : Stands s t) (x y : ι) : Together place s t (.moveConstruct x y) := by
  unfold Together
  rw [Arena.step, Contents.step]
  rcases h.cases x with ⟨hv, hb⟩ | ⟨v, b, hv, hb, -⟩ <;> rcases h.cases y with ⟨hv', hb'⟩ | ⟨v', b', hv', hb', hvb'⟩ <;>
    rw [hv, hb, hv', hb']
  · exact .inl ⟨rfl, rfl⟩
  · refine .inr ⟨_, _, rfl, rfl, h.move ?_ ?_ hv' hb' hvb'⟩
    · rintro rfl
      cases hv.symm.trans hv'
    · rw [hv, hb]
      rfl
  · exact .inl ⟨rfl, rfl⟩
  · exact .inl ⟨rfl, rfl⟩

/-- The storage of the target goes first; the rest is a move into an object without storage. -/
theorem Stands.moveOver (h : Stands s t) (hxy : x ≠ y) {b b' : SecureBuffer} {v' : Vector} (hv : s.buffers x = some v)
    (hb : t x = some b) (hvb : Agree (some v) (some b)) (hv' : s.buffers y = some v') (hb' : t y = some b')
    (hvb' : Agree (some v') (some b')) :
    ∃ heap locked, s.letGo place v = some ⟨heap, locked, s.buffers⟩ ∧
      Stands ⟨heap, locked, Function.update (Function.update s.buffers y (some ⟨none, 0⟩)) x (some v')⟩
        (Function.update (Function.update t y (some ⟨[]⟩)) x (some b')) := by
  obtain ⟨heap, locked, hgo, howns, hwiped⟩ := h.letGo place hv hb hvb
  have hbare : Stands ⟨heap, locked, Function.update s.buffers x none⟩ (Function.update t x none) :=
    ⟨agree_update h.agree .none x, by rw [owned_update]; exact howns, hwiped⟩
  have hnone : owned (Function.update s.buffers x none x) (Function.update t x none x) = none := by
    rw [Function.update_self, Function.update_self]
    rfl
  have hv₁ : Function.update s.buffers x none y = some v' := by rw [Function.update_of_ne (Ne.symm hxy), hv']
  have hb₁ : Function.update t x none y = some b' := by rw [Function.update_of_ne (Ne.symm hxy), hb']
  have hmove := hbare.move hxy hnone hv₁ hb₁ hvb'
  have hover : ∀ {β : Type} (f : ι → β) (m n o : β), Function.update (Function.update (Function.update f x m) y n) x o =
      Function.update (Function.update f y n) x o := by
    intro β f m n o
    rw [Function.update_comm hxy m n f, Function.update_idem]
  rw [hover, hover] at hmove
  exact ⟨heap, locked, hgo, hmove⟩

theorem Stands.moveAssign (h : Stands s t) (x y : ι) : Together place s t (.moveAssign x y) := by
  unfold Together
  rw [Arena.step, Contents.step]
  rcases h.cases x with ⟨hv, hb⟩ | ⟨v, b, hv, hb, hvb⟩ <;> rcases h.cases y with ⟨hv', hb'⟩ | ⟨v', b', hv', hb', hvb'⟩ <;>
    rw [hv, hb, hv', hb']
  · exact .inl ⟨rfl, rfl⟩
  · exact .inl ⟨rfl, rfl⟩
  · exact .inl ⟨rfl, rfl⟩
  · dsimp only
    by_cases hxy : x = y
    · rw [if_pos hxy, if_pos hxy]
      exact .inr ⟨s, t, rfl, rfl, h⟩
    · obtain ⟨heap, locked, hgo, hmove⟩ := h.moveOver place hxy hv hb hvb hv' hb' hvb'
      rw [if_neg hxy, if_neg hxy, hgo]
      exact .inr ⟨_, _, rfl, rfl, hmove⟩

theorem Stands.writeByte (h : Stands s t) (x : ι) (i : Nat) (c : UInt8) : Together place s t (.write x i c) := by
  unfold Together
  rcases h.cases x with ⟨hv, hb⟩ | ⟨v, b, hv, hb, hvb⟩
  · rw [Arena.step, Contents.step, hv, hb]
    exact .inl ⟨rfl, rfl⟩
  · rw [Arena.step, Contents.step, hv, hb]
    cases hvb with
    | empty => exact .inl ⟨rfl, rfl⟩
    | held a d hd =>
      dsimp only
      by_cases hi : i < d.length
      · have hblock : s.heap.blocks a = some d := h.owns.live x a d (by rw [hv, hb, owned])
        obtain ⟨heap, hstore, hstands⟩ := h.write hv hb hd (show (d.set i c).length = d.length from List.length_set ..)
        rw [if_pos hi, if_pos hi, hblock, Option.bind_some, hstore]
        exact .inr ⟨_, _, rfl, rfl, hstands⟩
      · rw [if_neg hi, if_neg hi]
        exact .inl ⟨rfl, rfl⟩

theorem Stands.zero (h : Stands s t) (x : ι) : Together place s t (.zero x) := by
  unfold Together
  rcases h.cases x with ⟨hv, hb⟩ | ⟨v, b, hv, hb, hvb⟩
  · rw [Arena.step, Contents.step, hv, hb]
    exact .inl ⟨rfl, rfl⟩
  · rw [Arena.step, Contents.step, hv, hb, Option.bind_some, Option.map_some]
    cases hvb with
    | empty =>
      refine .inr ⟨s, _, rfl, rfl, ?_⟩
      rw [Function.update_eq_self_iff.mpr hb.symm]
      exact h
    | held a d hd =>
      have hlength : (List.replicate d.length (0 : UInt8)).length = d.length := List.length_replicate
      obtain ⟨heap, hstore, hstands⟩ := h.write hv hb hd hlength
      have hzero : SecureBuffer.zero ⟨d⟩ = ⟨List.replicate d.length 0⟩ := if_pos hd
      refine .inr ⟨_, _, ?_, rfl, by rw [hzero]; exact hstands⟩
      rw [Arena.zero]
      change (s.heap.store a _).map _ = _
      rw [hstore]
      rfl

theorem Stands.destroy (h : Stands s t) (x : ι) : Together place s t (.destroy x) := by
  unfold Together
  rcases h.cases x with ⟨hv, hb⟩ | ⟨v, b, hv, hb, hvb⟩
  · rw [Arena.step, Contents.step, hv, hb]
    exact .inl ⟨rfl, rfl⟩
  · obtain ⟨heap, locked, hgo, howns, hwiped⟩ := h.letGo place hv hb hvb
    rw [Arena.step, Contents.step, hv, hb, Option.bind_some, Option.map_some, hgo]
    refine .inr ⟨_, _, rfl, rfl, agree_update h.agree .none x, ?_, hwiped⟩
    rw [owned_update]
    exact howns

/-- A call goes through for the memory when it does for the values, and they stay together. -/
theorem Stands.step (h : Stands s t) (c : Call ι) : Together place s t c := by
  cases c with
  | construct x size alloc locks => exact h.construct place x size alloc locks
  | moveConstruct x y => exact h.moveConstruct place x y
  | moveAssign x y => exact h.moveAssign place x y
  | write x i c => exact h.writeByte place x i c
  | zero x => exact h.zero place x
  | destroy x => exact h.destroy place x

end Calls

/-! ## Every buffer stays locked -/

theorem touches_zero (address page : Nat) : touches address 0 page = false := by
  unfold touches
  rw [Bool.and_eq_false_iff]
  exact .inr (decide_eq_false (Nat.lt_irrefl 0))

theorem pagesLocked_bare (locked : Nat → Bool) (n : Nat) : PagesLocked place locked (some ⟨none, n⟩) := by
  intro a m hv
  cases hv

omit [DecidableEq ι] in
/-- What is let go unlocks the pages that it shares. -/
theorem letGo_locked (hs : s.letGo place v = some s') : s'.buffers = s.buffers ∧
    ∀ w, PagesLocked place s.locked w → (PagesLocked place s'.locked w ↔ NoneShared place (some v) w) := by
  obtain ⟨storage, size⟩ := v
  cases storage with
  | none =>
    obtain rfl := Option.some.inj hs
    refine ⟨rfl, fun w hw => ⟨fun _ a m b n hv => ?_, fun _ => hw⟩⟩
    cases hv
  | some a =>
    obtain ⟨heap, -, rfl⟩ := Option.map_eq_some_iff.mp hs
    refine ⟨rfl, fun w hw => ⟨fun hlocked a' m b n hv hb page htouch => ?_, fun hshare b n hb page htouch => ?_⟩⟩
    · obtain ⟨rfl, rfl⟩ : a = a' ∧ size = m := by simpa using hv
      by_contra hboth
      have hunlocked := hlocked b n hb page (Bool.eq_true_of_not_eq_false hboth)
      change munlock (place a) size s.locked page = true at hunlocked
      rw [munlock, htouch] at hunlocked
      cases hunlocked
    · change munlock (place a) size s.locked page = true
      have hfree : touches (place a) size page = false := by
        by_contra hboth
        rw [hshare a size b n rfl hb page (Bool.eq_true_of_not_eq_false hboth)] at htouch
        cases htouch
      rw [munlock, hfree, hw b n hb page htouch]
      rfl

theorem allLocked_update {heap : Heap UInt8} {locked : Nat → Bool} {B : ι → Option Vector} {w : Option Vector} :
    AllLocked place ⟨heap, locked, Function.update B x w⟩ ↔
      PagesLocked place locked w ∧ ∀ z, z ≠ x → PagesLocked place locked (B z) := by
  constructor
  · intro h
    refine ⟨?_, fun z hz => ?_⟩
    · have hx := h x
      change PagesLocked place locked (Function.update B x w x) at hx
      rwa [Function.update_self] at hx
    · have hx := h z
      change PagesLocked place locked (Function.update B x w z) at hx
      rwa [Function.update_of_ne hz] at hx
  · rintro ⟨hw, hrest⟩ z
    change PagesLocked place locked (Function.update B x w z)
    by_cases hz : z = x
    · rw [hz, Function.update_self]
      exact hw
    · rw [Function.update_of_ne hz]
      exact hrest z hz

omit [DecidableEq ι] in
/-- The end of the storage of `x` keeps the others locked exactly when it shares no page with them. -/
theorem letGo_apart (hs : s.letGo place v = some s') (hx : s.buffers x = some v) (h : AllLocked place s) :
    (∀ z, z ≠ x → PagesLocked place s'.locked (s.buffers z)) ↔ Apart place s x := by
  refine forall₂_congr fun z _ => ?_
  rw [hx]
  exact (letGo_locked hs).2 _ (h z)

theorem locked_construct {size : Nat} {alloc locks : Bool} (hs : s.step place (.construct x size alloc locks) = some s')
    (h : AllLocked place s) : AllLocked place s' ↔ KeepsLocked place s (.construct x size alloc locks) := by
  rw [Arena.step] at hs
  split at hs
  case h_1 => cases hs
  case h_2 hx =>
    split_ifs at hs with hsize halloc hlocks <;> obtain rfl := Option.some.inj hs
    · refine iff_of_true (allLocked_update.mpr ⟨pagesLocked_bare _ 0, fun z _ => h z⟩) fun _ => .inr fun page htouch => ?_
      rw [hsize, touches_zero] at htouch
      cases htouch
    · refine iff_of_true (allLocked_update.mpr ⟨fun a n hv page htouch => ?_, fun z _ a n hv page htouch => ?_⟩)
        fun _ => .inl hlocks
      · obtain ⟨rfl, rfl⟩ : s.heap.next = a ∧ size = n := by simpa using hv
        rw [mlock, htouch]
        rfl
      · rw [mlock, h z a n hv page htouch, Bool.or_true]
    · rw [allLocked_update]
      constructor
      · rintro ⟨hnew, -⟩ -
        exact .inr (hnew s.heap.next size rfl)
      · intro hkeep
        refine ⟨fun a n hv page htouch => ?_, fun z _ => h z⟩
        obtain ⟨rfl, rfl⟩ : s.heap.next = a ∧ size = n := by simpa using hv
        exact (hkeep halloc).resolve_left hlocks page htouch
    · exact iff_of_true h fun hyes => absurd hyes halloc

/-- A buffer that has moved from `y` to `x` is as locked as it was. -/
theorem moved_locked {B : ι → Option Vector} {locked : Nat → Bool} {v : Option Vector} (hy : B y = v) (hxy : x ≠ y) :
    (PagesLocked place locked v ∧ ∀ z, z ≠ x → PagesLocked place locked (Function.update B y (some ⟨none, 0⟩) z)) ↔
      ∀ z, z ≠ x → PagesLocked place locked (B z) := by
  constructor
  · rintro ⟨hmoved, hrest⟩ z hz
    by_cases hzy : z = y
    · rw [hzy, hy]
      exact hmoved
    · have hother := hrest z hz
      rwa [Function.update_of_ne hzy] at hother
  · intro hall
    refine ⟨hy ▸ hall y (Ne.symm hxy), fun z hz => ?_⟩
    by_cases hzy : z = y
    · rw [hzy, Function.update_self]
      exact pagesLocked_bare _ 0
    · rw [Function.update_of_ne hzy]
      exact hall z hz

theorem locked_moveConstruct (hs : s.step place (.moveConstruct x y) = some s') (h : AllLocked place s) :
    AllLocked place s' := by
  rw [Arena.step] at hs
  split at hs
  case h_1 v hx hy =>
    obtain rfl := Option.some.inj hs
    have hxy : x ≠ y := by
      rintro rfl
      cases hx.symm.trans hy
    exact allLocked_update.mpr ((moved_locked hy hxy).mpr fun z _ => h z)
  case h_2 => cases hs

theorem locked_moveAssign (hs : s.step place (.moveAssign x y) = some s') (h : AllLocked place s) :
    AllLocked place s' ↔ KeepsLocked place s (.moveAssign x y) := by
  rw [Arena.step] at hs
  split at hs
  case h_1 v v' hx hy =>
    split_ifs at hs with hxy
    · obtain rfl := Option.some.inj hs
      exact iff_of_true h (.inl hxy)
    · obtain ⟨s₁, hgo, rfl⟩ := Option.map_eq_some_iff.mp hs
      rw [allLocked_update, (letGo_locked hgo).1, moved_locked hy hxy, letGo_apart hgo hx h]
      exact (or_iff_right hxy).symm
  case h_2 => cases hs

omit [DecidableEq ι] in
theorem locked_zero (hs : s.zero v = some s') (h : AllLocked place s) : AllLocked place s' := by
  rw [Arena.zero] at hs
  split at hs
  case h_1 a ha =>
    obtain ⟨heap, -, rfl⟩ := Option.map_eq_some_iff.mp hs
    exact h
  case h_2 =>
    obtain rfl := Option.some.inj hs
    exact h

theorem locked_write {i : Nat} {c : UInt8} (hs : s.step place (.write x i c) = some s') (h : AllLocked place s) :
    AllLocked place s' := by
  rw [Arena.step] at hs
  split at hs
  case h_1 a size hx =>
    split_ifs at hs
    obtain ⟨b, -, hstore⟩ := Option.bind_eq_some_iff.mp hs
    obtain ⟨heap, -, rfl⟩ := Option.map_eq_some_iff.mp hstore
    exact h
  case h_2 => cases hs

theorem locked_destroy (hs : s.step place (.destroy x) = some s') (h : AllLocked place s) :
    AllLocked place s' ↔ KeepsLocked place s (.destroy x) := by
  obtain ⟨v, hx, hd⟩ := Option.bind_eq_some_iff.mp hs
  obtain ⟨s₁, hgo, rfl⟩ := Option.map_eq_some_iff.mp hd
  rw [allLocked_update, (letGo_locked hgo).1, letGo_apart hgo hx h]
  exact and_iff_right nofun

/-- From a state in which all are locked, a call leads to such a state exactly when it keeps them locked. -/
theorem locked_step {c : Call ι} (hs : s.step place c = some s') (h : AllLocked place s) :
    AllLocked place s' ↔ KeepsLocked place s c := by
  cases c with
  | construct x size alloc locks => exact locked_construct hs h
  | moveConstruct x y => exact iff_of_true (locked_moveConstruct hs h) trivial
  | moveAssign x y => exact locked_moveAssign hs h
  | write x i c => exact iff_of_true (locked_write hs h) trivial
  | zero x =>
    obtain ⟨v, -, hz⟩ := Option.bind_eq_some_iff.mp hs
    exact iff_of_true (locked_zero hz h) trivial
  | destroy x => exact locked_destroy hs h

/-! ## Runs -/

theorem Stands.run {cs : List (Call ι)} (h : Stands s t) (hr : runs (Arena.step place) s cs = some s') :
    ∃ t', runs Contents.step t cs = some t' ∧ Stands s' t' := by
  induction cs generalizing s t with
  | nil =>
    obtain rfl := Option.some.inj hr
    exact ⟨t, rfl, h⟩
  | cons c cs ih =>
    obtain ⟨s₁, hs₁, hr⟩ := runs_cons.mp hr
    rcases h.step place c with ⟨hnone, -⟩ | ⟨s₂, t₂, hs₂, ht₂, h₂⟩
    · cases hnone.symm.trans hs₁
    · obtain rfl : s₁ = s₂ := Option.some.inj (hs₁.symm.trans hs₂)
      obtain ⟨t', ht', h'⟩ := ih h₂ hr
      exact ⟨t', runs_cons.mpr ⟨t₂, ht₂, ht'⟩, h'⟩

variable (place) in
/-- Calls that go through for the values go through for the memory. -/
theorem Stands.follow {cs : List (Call ι)} (h : Stands s t) (hr : runs Contents.step t cs = some t') :
    ∃ s', runs (Arena.step place) s cs = some s' ∧ Stands s' t' := by
  induction cs generalizing s t with
  | nil =>
    obtain rfl := Option.some.inj hr
    exact ⟨s, rfl, h⟩
  | cons c cs ih =>
    obtain ⟨t₁, ht₁, hr⟩ := runs_cons.mp hr
    rcases h.step place c with ⟨-, hnone⟩ | ⟨s₂, t₂, hs₂, ht₂, h₂⟩
    · cases hnone.symm.trans ht₁
    · obtain rfl : t₁ = t₂ := Option.some.inj (ht₁.symm.trans ht₂)
      obtain ⟨s', hs', h'⟩ := ih h₂ hr
      exact ⟨s', runs_cons.mpr ⟨s₂, hs₂, hs'⟩, h'⟩

/-- A program that uses each buffer within its lifetime, and writes no byte out of its range, makes no invalid access, wherever
the blocks are put: its buffers hold what they hold as values, have all the memory, and what was freed held zeros. All buffers
lie on locked pages throughout exactly when each new buffer was locked, or lay on pages that were, and no buffer ended that
shared a page with another. -/
theorem buffers_secure (place : Nat → Nat) (cs : List (Call ι)) :
    ((runs (Arena.step place) Arena.start cs).isSome ↔ (runs Contents.step (fun _ => none) cs).isSome) ∧
    ∀ s, runs (Arena.step place) Arena.start cs = some s →
      (∃ t, runs Contents.step (fun _ => none) cs = some t ∧ Stands s t) ∧
      ((∀ cs₁ cs₂ s₁, cs = cs₁ ++ cs₂ → runs (Arena.step place) Arena.start cs₁ = some s₁ → AllLocked place s₁) ↔
        Along (Arena.step place) (KeepsLocked place) Arena.start cs) := by
  refine ⟨⟨fun hs => ?_, fun ht => ?_⟩, fun s hs => ⟨Stands.start.run hs, fun hall => ?_, ?_⟩⟩
  · obtain ⟨s, hs⟩ := Option.isSome_iff_exists.mp hs
    obtain ⟨t, ht, -⟩ := Stands.start.run hs
    rw [ht]
    rfl
  · obtain ⟨t, ht⟩ := Option.isSome_iff_exists.mp ht
    obtain ⟨s, hs, -⟩ := Stands.start.follow place ht
    rw [hs]
    rfl
  · exact Along.of_chain (fun s c s' hlocked hstep hlocked' => (locked_step hstep hlocked).mp hlocked') hs hall
  · rintro hkeep cs₁ cs₂ s₁ rfl hs₁
    have hstart : AllLocked place (Arena.start : Arena ι) := fun _ _ _ hnone => nomatch hnone
    exact runs_invariant (fun s c s' hlocked hc hstep => (locked_step hstep hlocked).mpr hc) hstart
      (hkeep.append hs₁).1 hs₁

/-- Two keys on one page: the end of the first unlocks the page of the second. -/
example : (runs (Arena.step fun a => 64 * a) Arena.start [.construct 0 32 true true, .construct 1 32 true true,
    .destroy (0 : Nat)]).map (fun s => (s.buffers 1, s.locked 0)) = some (some ⟨some 1, 32⟩, false) := by
  decide

end Passdoq.Memory
