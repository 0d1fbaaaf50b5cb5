import Passdoq.Lib.Bytes
import Passdoq.Lib.OrdMap

/-!
# libltdl

What `ltdl.c` keeps of the libraries that are open, as far as a caller of `lt_dlopen` without advice can tell.

* `lt_dlinit`, `lt_dlexit`, `lt_dlopen`, `lt_dlclose` under these names;
* `Tracks l ids` : each handle in use is open, and the reference counts are the numbers of uses; every call keeps this.
-/

namespace Passdoq.Modules

/-- What an `lt_dlhandle` points to; `linked` when it is on the list `handles`. -/
structure LtHandle where
  filename : Bytes
  refCount : Int
  resident : Bool
  linked : Bool

structure Ltdl where
  initialized : Nat
  /-- the handles that are allocated, by address; an address is not used again -/
  heap : OrdMap Nat LtHandle
  next : Nat

namespace Ltdl

/-- Before the first call. -/
def start : Ltdl := ⟨0, ∅, 0⟩

/-- `errors` is what the loaders report when they are set up, which only the first call does. -/
def lt_dlinit (l : Ltdl) (errors : Nat) : Nat × Ltdl :=
  if l.initialized = 0 then
    (errors, { l with initialized := 1, heap := l.heap.mapVal fun h => { h with linked := false } })
  else (0, { l with initialized := l.initialized + 1 })

/-- The call that brings the count to zero closes what is not resident; without an initialization it is an error. -/
def lt_dlexit (l : Ltdl) : Ltdl :=
  if l.initialized = 1 then { l with initialized := 0, heap := l.heap.filterVal LtHandle.resident }
  else { l with initialized := l.initialized - 1 }

/-- `file` is the library that the path leads to, and whether it makes itself resident; none when it does not load. -/
def lt_dlopen (l : Ltdl) (file : Option (Bytes × Bool)) : Option Nat × Ltdl :=
  match file with
  | none => (none, l)
  | some (filename, resident) =>
    match l.heap.toList.find? fun p => p.2.linked && p.2.filename = filename with
    | some (id, h) => (some id, { l with heap := l.heap.insert id { h with refCount := h.refCount + 1 } })
    | none => (some l.next, { l with heap := l.heap.insert l.next ⟨filename, 1, resident, true⟩, next := l.next + 1 })

def lt_dlclose (l : Ltdl) (id : Nat) : Ltdl :=
  match l.heap.find? id with
  | none => l
  | some h =>
    if ¬ h.linked then l
    else if h.refCount - 1 ≤ 0 ∧ ¬ h.resident then { l with heap := l.heap.erase id }
    else { l with heap := l.heap.insert id { h with refCount := h.refCount - 1 } }

/-- The library is in memory. -/
def isOpen (l : Ltdl) (id : Nat) : Bool := (l.heap.find? id).isSome

/-- The handles `ids`, each listed once for each use, are open, and the counts are the numbers of uses. -/
structure Tracks (l : Ltdl) (ids : List Nat) : Prop where
  linked : ∀ id ∈ ids, ∃ h, l.heap.find? id = some h ∧ h.linked = true
  count : ∀ id h, l.heap.find? id = some h → h.linked = true → h.refCount = ids.count id
  bound : ∀ id h, l.heap.find? id = some h → id < l.next

section Tracks

variable {l l' : Ltdl} {ids ids' : List Nat} {id : Nat}

theorem tracks_start : Tracks start [] := ⟨nofun, nofun, nofun⟩

theorem Tracks.perm (h : Tracks l ids) (hp : ids.Perm ids') : Tracks l ids' where
  linked id hid := h.linked id (hp.mem_iff.mpr hid)
  count id g hg hlinked := by rw [← hp.count_eq]; exact h.count id g hg hlinked
  bound := h.bound

theorem Tracks.isOpen (h : Tracks l ids) (hid : id ∈ ids) : l.isOpen id = true := by
  obtain ⟨g, hg, -⟩ := h.linked id hid
  rw [Ltdl.isOpen, hg]
  rfl

theorem Tracks.lt_dlinit (h : Tracks l []) (errors : Nat) : Tracks (l.lt_dlinit errors).2 [] := by
  unfold Ltdl.lt_dlinit
  split_ifs
  · refine ⟨nofun, fun id g hg hlinked => ?_, fun id g hg => ?_⟩
    · -- nothing is linked now
      dsimp only at hg
      rw [OrdMap.find?_mapVal] at hg
      obtain ⟨g', -, rfl⟩ := Option.map_eq_some_iff.mp hg
      cases hlinked
    · dsimp only at hg
      rw [OrdMap.find?_mapVal] at hg
      obtain ⟨g', hg', -⟩ := Option.map_eq_some_iff.mp hg
      exact h.bound id g' hg'
  · exact ⟨nofun, h.count, h.bound⟩

theorem Tracks.lt_dlexit (h : Tracks l []) : Tracks l.lt_dlexit [] := by
  unfold Ltdl.lt_dlexit
  split_ifs
  · exact ⟨nofun, fun id g hg => h.count id g (OrdMap.find?_filterVal hg), fun id g hg => h.bound id g (OrdMap.find?_filterVal hg)⟩
  · exact ⟨nofun, h.count, h.bound⟩

/-- One handle set, and used as often as it says. -/
theorem Tracks.insert {g : LtHandle} {n : Nat} (h : Tracks l ids) (hlinked : g.linked = true) (hself : g.refCount = ids'.count id)
    (hothers : ∀ i, id ≠ i → ids'.count i = ids.count i) (hn : l.next ≤ n) (hid : id < n) :
    Tracks { l with heap := l.heap.insert id g, next := n } ids' where
  linked i hi := by
    dsimp only
    rw [OrdMap.find?_insert]
    split_ifs with hsame
    · exact ⟨g, rfl, hlinked⟩
    · rw [← List.count_pos_iff, hothers i hsame, List.count_pos_iff] at hi
      exact h.linked i hi
  count i g' hg' hlinked' := by
    dsimp only at hg'
    rw [OrdMap.find?_insert] at hg'
    split_ifs at hg' with hsame
    · obtain rfl := Option.some.inj hg'
      rw [← hsame, hself]
    · rw [hothers i hsame]
      exact h.count i g' hg' hlinked'
  bound i g' hg' := by
    dsimp only at hg' ⊢
    rw [OrdMap.find?_insert] at hg'
    split_ifs at hg' with hsame
    · exact hsame ▸ hid
    · exact lt_of_lt_of_le (h.bound i g' hg') hn

/-- A library that opens is in use once more. -/
theorem Tracks.lt_dlopen {file : Option (Bytes × Bool)} (h : Tracks l ids) (hopen : l.lt_dlopen file = (some id, l')) :
    Tracks l' (id :: ids) ∧ l'.initialized = l.initialized := by
  unfold Ltdl.lt_dlopen at hopen
  cases file with
  | none => cases hopen
  | some file =>
    obtain ⟨filename, resident⟩ := file
    dsimp only at hopen
    cases hfind : l.heap.toList.find? fun p => p.2.linked && p.2.filename = filename with
    | some p =>
      obtain ⟨id', g⟩ := p
      rw [hfind] at hopen
      obtain ⟨hid, rfl⟩ := Prod.mk.inj hopen
      obtain rfl := Option.some.inj hid
      have hg : l.heap.find? id' = some g := (l.heap.mem_iff_find? id' g).mp (List.mem_of_find?_eq_some hfind)
      have hlinked : g.linked = true := by
        have hboth := List.find?_some hfind
        simp only [Bool.and_eq_true] at hboth
        exact hboth.1
      have hcount := h.count id' g hg hlinked
      refine ⟨h.insert hlinked ?_ (fun _ hne => List.count_cons_of_ne hne) le_rfl (h.bound id' g hg), rfl⟩
      simp [hcount]
    | none =>
      rw [hfind] at hopen
      obtain ⟨hid, rfl⟩ := Prod.mk.inj hopen
      obtain rfl := Option.some.inj hid
      have hunused : l.next ∉ ids := by
        intro hmem
        obtain ⟨g, hg, -⟩ := h.linked _ hmem
        exact absurd (h.bound _ g hg) (lt_irrefl _)
      refine ⟨h.insert rfl ?_ (fun _ hne => List.count_cons_of_ne hne) (by omega) (by omega), rfl⟩
      simp [List.count_eq_zero_of_not_mem hunused]

theorem lt_dlopen_none {file : Option (Bytes × Bool)} (hopen : l.lt_dlopen file = (none, l')) : l' = l := by
  unfold lt_dlopen at hopen
  cases file with
  | none => exact (Prod.mk.inj hopen).2.symm
  | some file =>
    dsimp only at hopen
    split at hopen <;> cases hopen

/-- A library that is closed is in use once less, and goes with its last use. -/
theorem Tracks.lt_dlclose (h : Tracks l (id :: ids)) :
    Tracks (l.lt_dlclose id) ids ∧ (l.lt_dlclose id).initialized = l.initialized := by
  obtain ⟨g, hg, hlinked⟩ := h.linked id List.mem_cons_self
  have hcount := h.count id g hg hlinked
  rw [List.count_cons_self] at hcount
  unfold Ltdl.lt_dlclose
  rw [hg]
  dsimp only
  rw [if_neg (not_not.mpr hlinked)]
  split_ifs with hlast
  · -- the count was one, so that nothing else uses the handle
    have hunused : id ∉ ids := by
      rw [← List.count_eq_zero]
      omega
    refine ⟨⟨?_, ?_, ?_⟩, rfl⟩
    · intro i hi
      have hne : id ≠ i := fun hsame => hunused (hsame ▸ hi)
      rw [OrdMap.find?_erase, if_neg hne]
      exact h.linked i (List.mem_cons_of_mem id hi)
    · intro i g' hg' hlinked'
      rw [OrdMap.find?_erase] at hg'
      split_ifs at hg' with hsame
      rw [h.count i g' hg' hlinked', List.count_cons_of_ne hsame]
    · intro i g' hg'
      rw [OrdMap.find?_erase] at hg'
      split_ifs at hg'
      exact h.bound i g' hg'
  · refine ⟨h.insert hlinked ?_ (fun i hne => (List.count_cons_of_ne hne).symm) le_rfl (h.bound id g hg), rfl⟩
    dsimp only
    omega

end Tracks

end Ltdl

end Passdoq.Modules
