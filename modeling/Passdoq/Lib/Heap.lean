import Mathlib

/-!
# Blocks of memory and their owners

A heap gives out blocks and takes them back. A block has an identity that is never given out again, also when its place is,
so an access to a block that was given back is an access to no block.

* `Heap` : the blocks, with those given back and what they held then; each was given back once;
* `alloc`, `read`, `fill`, `store`, `release`, `wipe` : `none` is an access that the program must not make;
* `Owns` : every block has one owner, who has the right pointer and knows what it holds; one rule for each operation;
* `Dead` : a block that was given back stays so, and every access to it is `none`.
-/

structure Heap (β : Type) where
  next : Nat
  blocks : Nat → Option (List β)
  released : List (Nat × List β)
  once : (released.map Prod.fst).Nodup
  accounted : ∀ a, a < next ↔ (blocks a).isSome ∨ a ∈ released.map Prod.fst
  apart : ∀ a, (blocks a).isSome → a ∉ released.map Prod.fst

namespace Heap

variable {β ι : Type}

def empty : Heap β where
  next := 0
  blocks _ := none
  released := []
  once := List.nodup_nil
  accounted a := by simp
  apart a := nofun

/-! ## Operations -/

theorem blocks_next (h : Heap β) : h.blocks h.next = none := by
  by_contra hne
  exact Nat.lt_irrefl _ ((h.accounted h.next).mpr (.inl (Option.isSome_iff_ne_none.mpr hne)))

/-- A block that holds `c`, the next one. -/
def alloc (h : Heap β) (c : List β) : Heap β where
  next := h.next + 1
  blocks := Function.update h.blocks h.next (some c)
  released := h.released
  once := h.once
  accounted a := by
    by_cases ha : a = h.next
    · simp [ha]
    · have hlt : a < h.next + 1 ↔ a < h.next := by omega
      rw [hlt, Function.update_of_ne ha]
      exact h.accounted a
  apart a ha := by
    by_cases hnext : a = h.next
    · intro hmem
      have hlt := (h.accounted a).mpr (.inr hmem)
      omega
    · rw [Function.update_of_ne hnext] at ha
      exact h.apart a ha

/-- The first `n` elements of a block. -/
def read (h : Heap β) (a n : Nat) : Option (List β) :=
  match h.blocks a with
  | some b => if n ≤ b.length then some (b.take n) else none
  | none => none

/-- A block with another content. -/
def put (h : Heap β) (a : Nat) (c : List β) (ha : (h.blocks a).isSome) : Heap β where
  next := h.next
  blocks := Function.update h.blocks a (some c)
  released := h.released
  once := h.once
  accounted b := by
    by_cases hb : b = a
    · rw [hb, Function.update_self, h.accounted a]
      simp [ha]
    · rw [Function.update_of_ne hb]
      exact h.accounted b
  apart b hb := by
    by_cases hba : b = a
    · rw [hba]
      exact h.apart a ha
    · rw [Function.update_of_ne hba] at hb
      exact h.apart b hb

/-- The first elements of a block are overwritten. -/
def store (h : Heap β) (a : Nat) (c : List β) : Option (Heap β) :=
  match hb : h.blocks a with
  | some b => if c.length ≤ b.length then some (h.put a (c ++ b.drop c.length) (by rw [hb]; rfl)) else none
  | none => none

/-- The first `n` elements of a block become `x`. -/
def fill (h : Heap β) (a n : Nat) (x : β) : Option (Heap β) := h.store a (List.replicate n x)

/-- A block is given back. -/
def release (h : Heap β) (a : Nat) : Option (Heap β) :=
  match hb : h.blocks a with
  | some b => some {
      next := h.next
      blocks := Function.update h.blocks a none
      released := h.released ++ [(a, b)]
      once := by
        rw [List.map_append]
        exact List.Nodup.append h.once (List.nodup_singleton a) (List.disjoint_singleton.mpr (h.apart a (by rw [hb]; rfl)))
      accounted := fun c => by
        rw [List.map_append, List.mem_append, h.accounted c]
        by_cases hc : c = a
        · simp [hc, hb]
        · simp [hc]
      apart := fun c hc => by
        rw [List.map_append, List.mem_append, not_or]
        by_cases hca : c = a
        · rw [hca, Function.update_self] at hc
          cases hc
        · rw [Function.update_of_ne hca] at hc
          exact ⟨h.apart c hc, fun hmem => hca (List.mem_singleton.mp hmem)⟩ }
  | none => none

/-- A block is overwritten with `x`, and given back. -/
def wipe (h : Heap β) (a n : Nat) (x : β) : Option (Heap β) := (h.fill a n x).bind fun h => h.release a

variable {h h' : Heap β} {a n : Nat} {b c : List β} {x : β}

theorem read_live (hb : h.blocks a = some b) : h.read a b.length = some b := by
  rw [read, hb]
  simp

theorem store_live (hb : h.blocks a = some b) (hc : c.length ≤ b.length) : ∃ h', h.store a c = some h' ∧
    h'.next = h.next ∧ h'.blocks = Function.update h.blocks a (some (c ++ b.drop c.length)) ∧ h'.released = h.released := by
  unfold store
  split
  case h_1 b' hb' =>
    obtain rfl : b = b' := Option.some.inj (hb.symm.trans hb')
    exact ⟨_, if_pos hc, rfl, rfl, rfl⟩
  case h_2 hnone => cases hb.symm.trans hnone

theorem release_live (hb : h.blocks a = some b) : ∃ h', h.release a = some h' ∧ h'.next = h.next ∧
    h'.blocks = Function.update h.blocks a none ∧ h'.released = h.released ++ [(a, b)] := by
  unfold release
  split
  case h_1 b' hb' =>
    obtain rfl : b = b' := Option.some.inj (hb.symm.trans hb')
    exact ⟨_, rfl, rfl, rfl, rfl⟩
  case h_2 hnone => cases hb.symm.trans hnone

/-- A block is overwritten as a whole and given back. -/
theorem wipe_live (hb : h.blocks a = some b) (x : β) : ∃ h', h.wipe a b.length x = some h' ∧ h'.next = h.next ∧
    h'.blocks = Function.update h.blocks a none ∧ h'.released = h.released ++ [(a, List.replicate b.length x)] := by
  obtain ⟨h₁, hfill, hnext, hblocks, hreleased⟩ := store_live (c := List.replicate b.length x) hb (by simp)
  have hwhole : List.replicate b.length x ++ b.drop (List.replicate b.length x).length = List.replicate b.length x := by
    simp
  rw [hwhole] at hblocks
  obtain ⟨h₂, hrelease, hnext', hblocks', hreleased'⟩ :=
    release_live (h := h₁) (a := a) (b := List.replicate b.length x) (by rw [hblocks, Function.update_self])
  refine ⟨h₂, ?_, hnext'.trans hnext, ?_, ?_⟩
  · rw [wipe, fill, hfill, Option.bind_some, hrelease]
  · rw [hblocks', hblocks, Function.update_idem]
  · rw [hreleased', hreleased]

theorem wipe_released (hw : h.wipe a n x = some h') : ∃ c, h'.released = h.released ++ [(a, c)] := by
  obtain ⟨h₁, hfill, hrelease⟩ := Option.bind_eq_some_iff.mp hw
  cases hb : h.blocks a with
  | none =>
    unfold fill store at hfill
    split at hfill
    case h_1 b hb' => cases hb.symm.trans hb'
    case h_2 => cases hfill
  | some b =>
    have hn : (List.replicate n x).length ≤ b.length := by
      by_contra hlong
      unfold fill store at hfill
      split at hfill
      case h_1 b' hb' =>
        obtain rfl : b = b' := Option.some.inj (hb.symm.trans hb')
        rw [if_neg hlong] at hfill
        cases hfill
      case h_2 => cases hfill
    obtain ⟨h₁', hfill', -, hblocks, hreleased⟩ := store_live hb hn
    obtain rfl : h₁' = h₁ := Option.some.inj (hfill'.symm.trans hfill)
    obtain ⟨h₂, hrelease', -, -, hreleased'⟩ := release_live (h := h₁') (a := a) (by rw [hblocks, Function.update_self])
    obtain rfl : h₂ = h' := Option.some.inj (hrelease'.symm.trans hrelease)
    exact ⟨_, by rw [hreleased', hreleased]⟩

/-! ## Blocks that were given back -/

def Dead (h : Heap β) (a : Nat) : Prop := a ∈ h.released.map Prod.fst

theorem Dead.blocks (hd : h.Dead a) : h.blocks a = none := by
  by_contra hne
  exact h.apart a (Option.isSome_iff_ne_none.mpr hne) hd

theorem Dead.wipe (hd : h.Dead a) (n : Nat) (x : β) : h.wipe a n x = none := by
  have hfill : h.fill a n x = none := by
    unfold fill store
    split
    case h_1 b hb => cases hb.symm.trans hd.blocks
    case h_2 => rfl
  rw [Heap.wipe, hfill, Option.bind_none]

theorem Dead.read (hd : h.Dead a) (n : Nat) : h.read a n = none := by rw [Heap.read, hd.blocks]

theorem Dead.of_released (hd : h.Dead a) {more : List (Nat × List β)} (hr : h'.released = h.released ++ more) :
    h'.Dead a := by
  unfold Dead
  rw [hr, List.map_append]
  exact List.mem_append_left _ hd

/-! ## Owners -/

/-- The owners have all the blocks, each its own: `own i` is the pointer of `i`, with what it leads to. -/
structure Owns (own : ι → Option (Nat × List β)) (h : Heap β) : Prop where
  live : ∀ i a c, own i = some (a, c) → h.blocks a = some c
  alone : ∀ i j a c d, own i = some (a, c) → own j = some (a, d) → i = j
  covered : ∀ a c, h.blocks a = some c → ∃ i, own i = some (a, c)

namespace Owns

variable [DecidableEq ι] {own : ι → Option (Nat × List β)} {i j : ι}

omit [DecidableEq ι] in
theorem start : Owns (fun _ : ι => none) (empty : Heap β) := ⟨nofun, nofun, nofun⟩

omit [DecidableEq ι] in
theorem next_unowned (ho : Owns own h) (hi : own i = some (h.next, c)) : False := by
  cases (ho.live i h.next c hi).symm.trans h.blocks_next

theorem alloc (ho : Owns own h) (hi : own i = none) (c : List β) :
    Owns (Function.update own i (some (h.next, c))) (h.alloc c) where
  live j a d hj := by
    change Function.update h.blocks h.next (some c) a = some d
    by_cases hji : j = i
    · rw [hji, Function.update_self] at hj
      obtain ⟨rfl, rfl⟩ := Prod.mk.inj (Option.some.inj hj)
      exact Function.update_self ..
    · rw [Function.update_of_ne hji] at hj
      have ha : a ≠ h.next := by
        rintro rfl
        exact ho.next_unowned hj
      rw [Function.update_of_ne ha]
      exact ho.live j a d hj
  alone j k a d d' hj hk := by
    by_cases hji : j = i <;> by_cases hki : k = i
    · rw [hji, hki]
    · rw [hji, Function.update_self] at hj
      rw [Function.update_of_ne hki] at hk
      obtain ⟨rfl, -⟩ := Prod.mk.inj (Option.some.inj hj)
      exact (ho.next_unowned hk).elim
    · rw [hki, Function.update_self] at hk
      rw [Function.update_of_ne hji] at hj
      obtain ⟨rfl, -⟩ := Prod.mk.inj (Option.some.inj hk)
      exact (ho.next_unowned hj).elim
    · rw [Function.update_of_ne hji] at hj
      rw [Function.update_of_ne hki] at hk
      exact ho.alone j k a d d' hj hk
  covered a d ha := by
    change Function.update h.blocks h.next (some c) a = some d at ha
    by_cases hnext : a = h.next
    · rw [hnext, Function.update_self] at ha
      obtain rfl := Option.some.inj ha
      exact ⟨i, by rw [Function.update_self, hnext]⟩
    · rw [Function.update_of_ne hnext] at ha
      obtain ⟨j, hj⟩ := ho.covered a d ha
      have hji : j ≠ i := by
        rintro rfl
        cases hi.symm.trans hj
      exact ⟨j, by rw [Function.update_of_ne hji]; exact hj⟩

/-- The owner writes. -/
theorem write (ho : Owns own h) (hi : own i = some (a, b)) (hb : h'.blocks = Function.update h.blocks a (some c)) :
    Owns (Function.update own i (some (a, c))) h' where
  live j a' d hj := by
    rw [hb]
    by_cases hji : j = i
    · rw [hji, Function.update_self] at hj
      obtain ⟨rfl, rfl⟩ := Prod.mk.inj (Option.some.inj hj)
      exact Function.update_self ..
    · rw [Function.update_of_ne hji] at hj
      have ha : a' ≠ a := by
        rintro rfl
        exact hji (ho.alone j i a' d b hj hi)
      rw [Function.update_of_ne ha]
      exact ho.live j a' d hj
  alone j k a' d d' hj hk := by
    have hold : ∀ l e, Function.update own i (some (a, c)) l = some (a', e) → ∃ e', own l = some (a', e') := by
      intro l e hl
      by_cases hli : l = i
      · rw [hli, Function.update_self] at hl
        obtain ⟨rfl, -⟩ := Prod.mk.inj (Option.some.inj hl)
        exact ⟨b, hli ▸ hi⟩
      · rw [Function.update_of_ne hli] at hl
        exact ⟨e, hl⟩
    obtain ⟨e, hj'⟩ := hold j d hj
    obtain ⟨e', hk'⟩ := hold k d' hk
    exact ho.alone j k a' e e' hj' hk'
  covered a' d ha := by
    rw [hb] at ha
    by_cases haa : a' = a
    · rw [haa, Function.update_self] at ha
      obtain rfl := Option.some.inj ha
      exact ⟨i, by rw [Function.update_self, haa]⟩
    · rw [Function.update_of_ne haa] at ha
      obtain ⟨j, hj⟩ := ho.covered a' d ha
      have hji : j ≠ i := by
        rintro rfl
        exact haa (Prod.mk.inj (Option.some.inj (hj.symm.trans hi))).1
      exact ⟨j, by rw [Function.update_of_ne hji]; exact hj⟩

theorem drop (ho : Owns own h) (hi : own i = some (a, b)) (hb : h'.blocks = Function.update h.blocks a none) :
    Owns (Function.update own i none) h' where
  live j a' d hj := by
    by_cases hji : j = i
    · rw [hji, Function.update_self] at hj
      cases hj
    · rw [Function.update_of_ne hji] at hj
      have ha : a' ≠ a := by
        rintro rfl
        exact hji (ho.alone j i a' d b hj hi)
      rw [hb, Function.update_of_ne ha]
      exact ho.live j a' d hj
  alone j k a' d d' hj hk := by
    by_cases hji : j = i
    · rw [hji, Function.update_self] at hj
      cases hj
    · by_cases hki : k = i
      · rw [hki, Function.update_self] at hk
        cases hk
      · rw [Function.update_of_ne hji] at hj
        rw [Function.update_of_ne hki] at hk
        exact ho.alone j k a' d d' hj hk
  covered a' d ha := by
    rw [hb] at ha
    by_cases haa : a' = a
    · rw [haa, Function.update_self] at ha
      cases ha
    · rw [Function.update_of_ne haa] at ha
      obtain ⟨j, hj⟩ := ho.covered a' d ha
      have hji : j ≠ i := by
        rintro rfl
        exact haa (Prod.mk.inj (Option.some.inj (hj.symm.trans hi))).1
      exact ⟨j, by rw [Function.update_of_ne hji]; exact hj⟩

theorem move (ho : Owns own h) (hij : i ≠ j) (hj : own j = none) :
    Owns (Function.update (Function.update own i none) j (own i)) h := by
  -- who has a block afterwards had it before, or `i` had it
  have hold : ∀ k x, Function.update (Function.update own i none) j (own i) k = some x →
      (k = j ∧ own i = some x) ∨ (k ≠ i ∧ own k = some x) := by
    intro k x hk
    by_cases hkj : k = j
    · rw [hkj, Function.update_self] at hk
      exact .inl ⟨hkj, hk⟩
    · rw [Function.update_of_ne hkj] at hk
      by_cases hki : k = i
      · rw [hki, Function.update_self] at hk
        cases hk
      · rw [Function.update_of_ne hki] at hk
        exact .inr ⟨hki, hk⟩
  refine ⟨fun k a c hk => ?_, fun k l a c d hk hl => ?_, fun a c ha => ?_⟩
  · rcases hold k (a, c) hk with ⟨-, hk⟩ | ⟨-, hk⟩
    · exact ho.live i a c hk
    · exact ho.live k a c hk
  · rcases hold k (a, c) hk with ⟨hkj, hk'⟩ | ⟨hki, hk'⟩ <;> rcases hold l (a, d) hl with ⟨hlj, hl'⟩ | ⟨hli, hl'⟩
    · rw [hkj, hlj]
    · exact absurd (ho.alone l i a d c hl' hk') hli
    · exact absurd (ho.alone k i a c d hk' hl') hki
    · exact ho.alone k l a c d hk' hl'
  · obtain ⟨k, hk⟩ := ho.covered a c ha
    by_cases hki : k = i
    · exact ⟨j, by rw [Function.update_self, ← hki, hk]⟩
    · have hkj : k ≠ j := by
        rintro rfl
        cases hk.symm.trans hj
      exact ⟨k, by rw [Function.update_of_ne hkj, Function.update_of_ne hki, hk]⟩

omit [DecidableEq ι] in
theorem rename {κ : Type} (ho : Owns own h) {f : κ → ι} (hf : Function.Injective f)
    (hall : ∀ i x, own i = some x → ∃ k, f k = i) : Owns (fun k => own (f k)) h where
  live k := ho.live (f k)
  alone k l a c d hk hl := hf (ho.alone (f k) (f l) a c d hk hl)
  covered a c ha := by
    obtain ⟨i, hi⟩ := ho.covered a c ha
    obtain ⟨k, rfl⟩ := hall i (a, c) hi
    exact ⟨k, hi⟩

omit [DecidableEq ι] in
/-- Where nobody owns a block, there is none, and all have been given back. -/
theorem none_left (ho : Owns own h) (hown : ∀ i, own i = none) (a : Nat) :
    h.blocks a = none ∧ (a < h.next ↔ a ∈ h.released.map Prod.fst) := by
  have hnone : h.blocks a = none := by
    by_contra hne
    obtain ⟨c, hc⟩ := Option.ne_none_iff_exists'.mp hne
    obtain ⟨i, hi⟩ := ho.covered a c hc
    cases (hown i).symm.trans hi
  refine ⟨hnone, ?_⟩
  rw [h.accounted a, hnone]
  simp

end Owns

end Heap
