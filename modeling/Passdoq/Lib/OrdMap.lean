import Mathlib

/-!
# Ordered maps

`OrdMap κ ν` is a finite map kept as its list of pairs in strictly increasing key order, the way an
ordered associative container iterates over it.

* `find?`, `insert` (insert or assign), `erase`, `size`, with one equation for each pair of them;
* `toList_insert_perm`, `toList_ofList_perm` : the pairs of a map after an insertion, up to their order;
* `ofList` : inserting pairs one after the other, a later pair winning (`ofList_toList`);
* `mapVal`, `take`, `filterVal` : the map with its values changed, its first entries, some of its entries;
* `values_insert_perm`, `values_erase_perm` : the values after an insertion or a removal, up to their order.
-/

/-- A finite map as its pairs in strictly increasing key order. -/
structure OrdMap (κ ν : Type) [LinearOrder κ] where
  toList : List (κ × ν)
  sorted : toList.Pairwise fun a b => a.1 < b.1

namespace OrdMap

variable {κ ν ξ : Type} [LinearOrder κ]

/-! ## On lists of pairs -/

/-- The value of the first pair with key `k`. -/
def findList (k : κ) : List (κ × ν) → Option ν
  | [] => none
  | p :: ps => if p.1 = k then some p.2 else findList k ps

/-- Put `(k, v)` in its place, over a pair with key `k` if there is one. -/
def insertList (k : κ) (v : ν) : List (κ × ν) → List (κ × ν)
  | [] => [(k, v)]
  | p :: ps => if k < p.1 then (k, v) :: p :: ps else if k = p.1 then (k, v) :: ps else p :: insertList k v ps

theorem findList_insertList (k k' : κ) (v : ν) (l : List (κ × ν)) :
    findList k' (insertList k v l) = if k = k' then some v else findList k' l := by
  induction l with
  | nil => simp [insertList, findList]
  | cons p ps ih =>
    unfold insertList
    by_cases hlt : k < p.1
    · rw [if_pos hlt, findList]
    · rw [if_neg hlt]
      by_cases heq : k = p.1
      · rw [if_pos heq, findList, findList, ← heq]
        split_ifs <;> rfl
      · rw [if_neg heq, findList, findList, ih]
        by_cases hk : k = k'
        · rw [if_neg fun h => heq (hk.trans h.symm), if_pos hk, if_pos hk]
        · rw [if_neg hk, if_neg hk]

theorem mem_insertList {k : κ} {v : ν} {p : κ × ν} {l : List (κ × ν)} (h : p ∈ insertList k v l) :
    p = (k, v) ∨ p ∈ l := by
  induction l with
  | nil => simpa [insertList] using h
  | cons q qs ih =>
    unfold insertList at h
    split_ifs at h with hlt heq
    · simpa using h
    · rcases List.mem_cons.mp h with h | h
      · exact Or.inl h
      · exact Or.inr (List.mem_cons_of_mem _ h)
    · rcases List.mem_cons.mp h with rfl | h
      · exact Or.inr List.mem_cons_self
      · exact (ih h).imp_right (List.mem_cons_of_mem _)

theorem sorted_insertList (k : κ) (v : ν) {l : List (κ × ν)} (h : l.Pairwise fun a b => a.1 < b.1) :
    (insertList k v l).Pairwise fun a b => a.1 < b.1 := by
  induction l with
  | nil => simp [insertList]
  | cons p ps ih =>
    obtain ⟨hp, hps⟩ := List.pairwise_cons.mp h
    unfold insertList
    split_ifs with hlt heq
    · refine List.pairwise_cons.mpr ⟨fun q hq => ?_, h⟩
      rcases List.mem_cons.mp hq with rfl | hq
      · exact hlt
      · exact lt_trans hlt (hp q hq)
    · exact List.pairwise_cons.mpr ⟨fun q hq => heq ▸ hp q hq, hps⟩
    · refine List.pairwise_cons.mpr ⟨fun q hq => ?_, ih hps⟩
      rcases mem_insertList hq with rfl | hq
      · exact lt_of_le_of_ne (not_lt.mp hlt) (Ne.symm heq)
      · exact hp q hq

theorem findList_eq_none {k : κ} {l : List (κ × ν)} : findList k l = none ↔ ∀ p ∈ l, p.1 ≠ k := by
  induction l with
  | nil => simp [findList]
  | cons p ps ih =>
    rw [findList, List.forall_mem_cons]
    split_ifs with h
    · simp [h]
    · rw [ih]
      exact (and_iff_right h).symm

theorem findList_eq_some {k : κ} {v : ν} {l : List (κ × ν)} (h : l.Pairwise fun a b => a.1 < b.1) :
    findList k l = some v ↔ (k, v) ∈ l := by
  induction l with
  | nil => simp [findList]
  | cons p ps ih =>
    obtain ⟨hp, hps⟩ := List.pairwise_cons.mp h
    by_cases hk : p.1 = k
    · subst hk
      constructor
      · intro h
        rw [findList, if_pos rfl, Option.some.injEq] at h
        exact List.mem_cons.mpr (Or.inl (by rw [← h]))
      · intro hm
        rcases List.mem_cons.mp hm with hm | hm
        · rw [findList, if_pos rfl, ← hm]
        · exact absurd (hp _ hm) (lt_irrefl _)
    · rw [findList, if_neg hk, ih hps, List.mem_cons]
      exact ⟨Or.inr, fun h => h.resolve_left fun e => hk (by rw [← e])⟩

/-! ## Maps -/

@[ext] theorem ext {m m' : OrdMap κ ν} (h : m.toList = m'.toList) : m = m' := by
  cases m; cases m'; cases h; rfl

instance [DecidableEq ν] : DecidableEq (OrdMap κ ν) := fun m m' =>
  decidable_of_iff (m.toList = m'.toList) ⟨ext, fun h => h ▸ rfl⟩

def empty : OrdMap κ ν := ⟨[], List.Pairwise.nil⟩

instance : EmptyCollection (OrdMap κ ν) := ⟨empty⟩

def size (m : OrdMap κ ν) : Nat := m.toList.length

def find? (m : OrdMap κ ν) (k : κ) : Option ν := findList k m.toList

/-- Insert `(k, v)`, or assign `v` to the key `k` when it is there. -/
def insert (m : OrdMap κ ν) (k : κ) (v : ν) : OrdMap κ ν :=
  ⟨insertList k v m.toList, sorted_insertList k v m.sorted⟩

def erase (m : OrdMap κ ν) (k : κ) : OrdMap κ ν :=
  ⟨m.toList.filter fun p => p.1 ≠ k, m.sorted.filter _⟩

@[simp] theorem toList_empty : (∅ : OrdMap κ ν).toList = [] := rfl

@[simp] theorem find?_empty (k : κ) : (∅ : OrdMap κ ν).find? k = none := rfl

theorem find?_insert (m : OrdMap κ ν) (k k' : κ) (v : ν) :
    (m.insert k v).find? k' = if k = k' then some v else m.find? k' :=
  findList_insertList k k' v m.toList

@[simp] theorem find?_insert_self (m : OrdMap κ ν) (k : κ) (v : ν) : (m.insert k v).find? k = some v := by
  rw [find?_insert, if_pos rfl]

theorem find?_insert_ne (m : OrdMap κ ν) {k k' : κ} (h : k ≠ k') (v : ν) :
    (m.insert k v).find? k' = m.find? k' := by
  rw [find?_insert, if_neg h]

theorem mem_iff_find? (m : OrdMap κ ν) (k : κ) (v : ν) : (k, v) ∈ m.toList ↔ m.find? k = some v :=
  (findList_eq_some m.sorted).symm

theorem find?_eq_none (m : OrdMap κ ν) (k : κ) : m.find? k = none ↔ ∀ p ∈ m.toList, p.1 ≠ k :=
  findList_eq_none

/-- A map is what is found in it. -/
theorem ext_find? {m m' : OrdMap κ ν} (h : ∀ k, m.find? k = m'.find? k) : m = m' := by
  have hmem : ∀ p, p ∈ m.toList ↔ p ∈ m'.toList := by
    rintro ⟨k, v⟩
    rw [mem_iff_find?, mem_iff_find?, h]
  have : Std.Irrefl fun p q : κ × ν => p.1 < q.1 := ⟨fun p => lt_irrefl p.1⟩
  have : Std.Antisymm fun p q : κ × ν => p.1 < q.1 := ⟨fun p q hpq hqp => absurd hqp (lt_asymm hpq)⟩
  exact ext (m.sorted.eq_of_mem_iff m'.sorted hmem)

theorem find?_erase (m : OrdMap κ ν) (k k' : κ) :
    (m.erase k).find? k' = if k = k' then none else m.find? k' := by
  split_ifs with h
  · subst h
    simp [find?_eq_none, erase]
  · cases hf : m.find? k' with
    | none =>
      rw [find?_eq_none] at hf ⊢
      exact fun p hp => hf p (List.mem_of_mem_filter hp)
    | some v =>
      rw [← mem_iff_find?] at hf ⊢
      simp [erase, hf, Ne.symm h]

theorem size_insert_of_find?_none (m : OrdMap κ ν) {k : κ} (h : m.find? k = none) (v : ν) :
    (m.insert k v).size = m.size + 1 := by
  have key : ∀ l : List (κ × ν), findList k l = none → (insertList k v l).length = l.length + 1 := by
    intro l
    induction l with
    | nil => simp [insertList]
    | cons p ps ih =>
      intro hn
      by_cases hk : p.1 = k
      · simp [findList, hk] at hn
      · rw [findList, if_neg hk] at hn
        unfold insertList
        rw [if_neg (Ne.symm hk)]
        split_ifs <;> simp [ih hn]
  exact key m.toList h

/-! ## The pairs, up to their order -/

theorem insertList_perm (k : κ) (v : ν) {l : List (κ × ν)} (h : l.Pairwise fun a b => a.1 < b.1) :
    (insertList k v l).Perm ((k, v) :: l.filter fun p => p.1 ≠ k) := by
  induction l with
  | nil => simp [insertList]
  | cons p ps ih =>
    obtain ⟨hp, hps⟩ := List.pairwise_cons.mp h
    unfold insertList
    split_ifs with hlt heq
    · have hne : ∀ q ∈ p :: ps, q.1 ≠ k := by
        intro q hq
        rcases List.mem_cons.mp hq with rfl | hq
        · exact ne_of_gt hlt
        · exact ne_of_gt (hlt.trans (hp q hq))
      rw [List.filter_eq_self.mpr fun q hq => decide_eq_true (hne q hq)]
    · have hne : ∀ q ∈ ps, q.1 ≠ k := fun q hq => ne_of_gt (heq ▸ hp q hq)
      rw [List.filter_cons_of_neg (by simp [heq]), List.filter_eq_self.mpr fun q hq => decide_eq_true (hne q hq)]
    · rw [List.filter_cons_of_pos (by simpa using Ne.symm heq)]
      exact ((ih hps).cons p).trans (List.Perm.swap _ _ _)

theorem toList_insert_perm (m : OrdMap κ ν) (k : κ) (v : ν) :
    (m.insert k v).toList.Perm ((k, v) :: (m.erase k).toList) := insertList_perm k v m.sorted

theorem erase_of_find?_none {m : OrdMap κ ν} {k : κ} (h : m.find? k = none) : m.erase k = m := by
  apply ext
  exact List.filter_eq_self.mpr fun p hp => decide_eq_true ((find?_eq_none m k).mp h p hp)

theorem filter_findList {k : κ} {l : List (κ × ν)} (h : l.Pairwise fun a b => a.1 < b.1) :
    l.filter (fun p => p.1 = k) = ((findList k l).map fun v => (k, v)).toList := by
  induction l with
  | nil => rfl
  | cons p ps ih =>
    obtain ⟨hp, hps⟩ := List.pairwise_cons.mp h
    by_cases hk : p.1 = k
    · have hnone : ps.filter (fun q => q.1 = k) = [] := by
        rw [List.filter_eq_nil_iff]
        intro q hq
        simpa using ne_of_gt (hk ▸ hp q hq)
      rw [List.filter_cons_of_pos (by simpa using hk), hnone, findList, if_pos hk, ← hk]
      rfl
    · rw [List.filter_cons_of_neg (by simpa using hk), ih hps, findList, if_neg hk]

/-- The pairs with one key. -/
theorem filter_key (m : OrdMap κ ν) (k : κ) :
    m.toList.filter (fun p => p.1 = k) = ((m.find? k).map fun v => (k, v)).toList := filter_findList m.sorted

/-! ## Building a map from pairs -/

/-- Insert the pairs one after the other. -/
def insertMany (m : OrdMap κ ν) (l : List (κ × ν)) : OrdMap κ ν := l.foldl (fun m p => m.insert p.1 p.2) m

def ofList (l : List (κ × ν)) : OrdMap κ ν := insertMany ∅ l

theorem insertList_of_forall_lt {k : κ} {v : ν} {l : List (κ × ν)} (h : ∀ p ∈ l, p.1 < k) :
    insertList k v l = l ++ [(k, v)] := by
  induction l with
  | nil => rfl
  | cons p ps ih =>
    have hp := h p List.mem_cons_self
    rw [insertList, if_neg (lt_asymm hp), if_neg (ne_of_gt hp), ih fun q hq => h q (List.mem_cons_of_mem _ hq)]
    rfl

theorem toList_insertMany (m : OrdMap κ ν) (l : List (κ × ν))
    (h : (m.toList ++ l).Pairwise fun a b => a.1 < b.1) : (m.insertMany l).toList = m.toList ++ l := by
  induction l generalizing m with
  | nil => simp [insertMany]
  | cons p ps ih =>
    have hstep : (m.insert p.1 p.2).toList = m.toList ++ [p] :=
      insertList_of_forall_lt fun q hq => (List.pairwise_append.mp h).2.2 q hq p List.mem_cons_self
    change ((m.insert p.1 p.2).insertMany ps).toList = _
    rw [ih _ (by rw [hstep]; simpa using h), hstep]
    simp

/-- Inserting the pairs of a sorted list gives that list. -/
theorem toList_ofList {l : List (κ × ν)} (h : l.Pairwise fun a b => a.1 < b.1) : (ofList l).toList = l := by
  have := toList_insertMany (∅ : OrdMap κ ν) l (by simpa using h)
  simpa [ofList] using this

@[simp] theorem ofList_toList (m : OrdMap κ ν) : ofList m.toList = m := ext (toList_ofList m.sorted)

theorem insertMany_cons (m : OrdMap κ ν) (p : κ × ν) (l : List (κ × ν)) :
    m.insertMany (p :: l) = (m.insert p.1 p.2).insertMany l := rfl

theorem find?_insertMany_of_forall_ne {m : OrdMap κ ν} {l : List (κ × ν)} {k : κ} (h : ∀ p ∈ l, p.1 ≠ k) :
    (m.insertMany l).find? k = m.find? k := by
  induction l generalizing m with
  | nil => rfl
  | cons p l ih =>
    rw [insertMany_cons, ih fun q hq => h q (List.mem_cons_of_mem _ hq),
      find?_insert_ne _ (h p List.mem_cons_self)]

/-- Among pairs with different keys each is found. -/
theorem find?_ofList_of_mem {l : List (κ × ν)} (hnd : (l.map Prod.fst).Nodup) {k : κ} {v : ν} (h : (k, v) ∈ l) :
    (ofList l).find? k = some v := by
  have key : ∀ m : OrdMap κ ν, (m.insertMany l).find? k = some v := by
    induction l with
    | nil => cases h
    | cons p l ih =>
      intro m
      obtain ⟨hp, hnd⟩ := List.nodup_cons.mp hnd
      rw [insertMany_cons]
      rcases List.mem_cons.mp h with rfl | h
      · rw [find?_insertMany_of_forall_ne fun q hq e => hp (List.mem_map.mpr ⟨q, hq, e⟩), find?_insert_self]
      · exact ih hnd h _
  exact key ∅

/-- Pairs of distinct keys, all new to the map, are all there is to add. -/
theorem toList_insertMany_perm {m : OrdMap κ ν} {l : List (κ × ν)} (hnd : (l.map Prod.fst).Nodup)
    (hnew : ∀ p ∈ l, m.find? p.1 = none) : (m.insertMany l).toList.Perm (m.toList ++ l) := by
  induction l generalizing m with
  | nil => simp [insertMany]
  | cons p ps ih =>
    obtain ⟨hp, hps⟩ := List.nodup_cons.mp hnd
    have hnone : m.find? p.1 = none := hnew p List.mem_cons_self
    have hrest : ∀ q ∈ ps, (m.insert p.1 p.2).find? q.1 = none := by
      intro q hq
      have hne : p.1 ≠ q.1 := fun he => hp (he ▸ List.mem_map_of_mem hq)
      rw [find?_insert_ne m hne]
      exact hnew q (List.mem_cons_of_mem _ hq)
    have hhead := toList_insert_perm m p.1 p.2
    rw [erase_of_find?_none hnone] at hhead
    rw [insertMany_cons]
    have hmiddle : ((p :: m.toList) ++ ps).Perm (m.toList ++ p :: ps) := List.perm_middle.symm
    exact (ih hps hrest).trans ((hhead.append_right ps).trans hmiddle)

theorem toList_ofList_perm {l : List (κ × ν)} (hnd : (l.map Prod.fst).Nodup) : (ofList l).toList.Perm l :=
  toList_insertMany_perm hnd fun p _ => find?_empty p.1

theorem mem_of_find?_insertMany {m : OrdMap κ ν} {l : List (κ × ν)} {k : κ} {v : ν}
    (h : (m.insertMany l).find? k = some v) : m.find? k = some v ∨ (k, v) ∈ l := by
  induction l generalizing m with
  | nil => exact .inl h
  | cons p l ih =>
    rw [insertMany_cons] at h
    rcases ih h with hf | hmem
    · rw [find?_insert] at hf
      split_ifs at hf with hk
      · obtain rfl := Option.some.inj hf
        exact .inr (hk ▸ List.mem_cons_self)
      · exact .inl hf
    · exact .inr (List.mem_cons_of_mem _ hmem)

/-- What is found was one of the pairs. -/
theorem mem_of_find?_ofList {l : List (κ × ν)} {k : κ} {v : ν} (h : (ofList l).find? k = some v) : (k, v) ∈ l := by
  rcases mem_of_find?_insertMany h with hf | hmem
  · cases hf
  · exact hmem

/-! ## Values changed, first entries -/

def mapVal (f : ν → ξ) (m : OrdMap κ ν) : OrdMap κ ξ :=
  ⟨m.toList.map fun p => (p.1, f p.2), List.pairwise_map.mpr m.sorted⟩

@[simp] theorem find?_mapVal (f : ν → ξ) (m : OrdMap κ ν) (k : κ) : (m.mapVal f).find? k = (m.find? k).map f := by
  have key : ∀ l : List (κ × ν), findList k (l.map fun p => (p.1, f p.2)) = (findList k l).map f := by
    intro l
    induction l with
    | nil => rfl
    | cons p ps ih => by_cases h : p.1 = k <;> simp [findList, h, ih]
  exact key m.toList

theorem mapVal_mapVal {ζ : Type} (g : ξ → ζ) (f : ν → ξ) (m : OrdMap κ ν) :
    (m.mapVal f).mapVal g = m.mapVal (g ∘ f) := ext (by simp [mapVal])

theorem mapVal_insert (f : ν → ξ) (m : OrdMap κ ν) (k : κ) (v : ν) :
    (m.insert k v).mapVal f = (m.mapVal f).insert k (f v) := by
  have key : ∀ l : List (κ × ν), (insertList k v l).map (fun p => (p.1, f p.2)) =
      insertList k (f v) (l.map fun p => (p.1, f p.2)) := by
    intro l
    induction l with
    | nil => rfl
    | cons p ps ih =>
      simp only [insertList, List.map_cons]
      split_ifs <;> simp only [List.map_cons, ih]
  exact ext (key m.toList)

theorem mapVal_erase (f : ν → ξ) (m : OrdMap κ ν) (k : κ) : (m.erase k).mapVal f = (m.mapVal f).erase k := by
  apply ext
  simp only [mapVal, erase, List.filter_map]
  rfl

/-- The first `n` entries in key order. -/
def take (n : Nat) (m : OrdMap κ ν) : OrdMap κ ν := ⟨m.toList.take n, m.sorted.sublist (List.take_sublist _ _)⟩

theorem take_of_size_le {n : Nat} {m : OrdMap κ ν} (h : m.size ≤ n) : m.take n = m :=
  ext (List.take_of_length_le h)

theorem size_take (n : Nat) (m : OrdMap κ ν) : (m.take n).size = min n m.size := List.length_take

/-! ## The values, up to their order -/

/-- The values in key order. -/
def values (m : OrdMap κ ν) : List ν := m.toList.map Prod.snd

theorem mem_values {m : OrdMap κ ν} {v : ν} : v ∈ m.values ↔ ∃ k, m.find? k = some v := by
  constructor
  · intro h
    obtain ⟨⟨k, _⟩, hp, rfl⟩ := List.mem_map.mp h
    exact ⟨k, (mem_iff_find? m k _).mp hp⟩
  · rintro ⟨k, h⟩
    exact List.mem_map.mpr ⟨(k, v), (mem_iff_find? m k v).mpr h, rfl⟩

theorem values_insert_perm (m : OrdMap κ ν) (k : κ) (v : ν) : (m.insert k v).values.Perm (v :: (m.erase k).values) :=
  (toList_insert_perm m k v).map Prod.snd

theorem values_insert_of_find?_none {m : OrdMap κ ν} {k : κ} (h : m.find? k = none) (v : ν) :
    (m.insert k v).values.Perm (v :: m.values) := by
  have hperm := values_insert_perm m k v
  rwa [erase_of_find?_none h] at hperm

theorem insert_of_find?_some {m : OrdMap κ ν} {k : κ} {v : ν} (h : m.find? k = some v) : m.insert k v = m := by
  refine ext_find? fun k' => ?_
  rw [find?_insert]
  split_ifs with hk
  · rw [← hk, h]
  · rfl

/-- A value that is there comes off the values of the rest. -/
theorem values_erase_perm {m : OrdMap κ ν} {k : κ} {v : ν} (h : m.find? k = some v) :
    m.values.Perm (v :: (m.erase k).values) := by
  have hperm := values_insert_perm m k v
  rwa [insert_of_find?_some h] at hperm

/-- The entries whose value satisfies `p`. -/
def filterVal (p : ν → Bool) (m : OrdMap κ ν) : OrdMap κ ν := ⟨m.toList.filter fun x => p x.2, m.sorted.filter _⟩

theorem find?_filterVal {p : ν → Bool} {m : OrdMap κ ν} {k : κ} {v : ν} (h : (m.filterVal p).find? k = some v) :
    m.find? k = some v := by
  rw [← mem_iff_find?] at h ⊢
  exact List.mem_of_mem_filter h

end OrdMap
