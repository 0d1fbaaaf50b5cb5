import Mathlib

/-!
# References unfolded in full, and each only once

A text is made of pieces that are kept, pieces that a traversal may drop, and references to further texts.

* `Full` : every reference is replaced by the text it names, each time it occurs, and nothing is dropped;
  `full_unique`, `exists_full` : there is one such text when the references come to an end;
* `Once` : the pieces to be dropped are, and a reference is replaced only when it was not seen before;
* `once_eq_iff` : both are the same text exactly when there was nothing to drop and what is skipped is empty;
* `acc_of_acyclic` : references end when no name is reached from itself and there are finitely many names.
-/

namespace Unfold

inductive Item (α β : Type) where
  | keep (w : List β)
  | drop (w : List β)
  | ref (v : α)
  deriving DecidableEq

variable {α β : Type}

/-- The text of a list of items, what it refers to in the order of the text, and what was marked to be dropped. -/
inductive Full (items : α → List (Item α β)) : List (Item α β) → List β → List α → List β → Prop
  | nil : Full items [] [] [] []
  | keep {w : List β} {is : List (Item α β)} {t : List β} {rs : List α} {l : List β} (h : Full items is t rs l) :
    Full items (.keep w :: is) (w ++ t) rs l
  | drop {w : List β} {is : List (Item α β)} {t : List β} {rs : List α} {l : List β} (h : Full items is t rs l) :
    Full items (.drop w :: is) (w ++ t) rs (w ++ l)
  | ref {v : α} {is : List (Item α β)} {tv t : List β} {rv rs : List α} {lv l : List β}
    (hv : Full items (items v) tv rv lv) (h : Full items is t rs l) :
    Full items (.ref v :: is) (tv ++ t) (v :: rv ++ rs) (lv ++ l)

/-- The text when what is in `S` was seen before, and what has been seen after it. -/
inductive Once (items : α → List (Item α β)) : List α → List (Item α β) → List β → List α → Prop
  | nil {S : List α} : Once items S [] [] S
  | keep {S S' : List α} {w : List β} {is : List (Item α β)} {t : List β} (h : Once items S is t S') :
    Once items S (.keep w :: is) (w ++ t) S'
  | drop {S S' : List α} {w : List β} {is : List (Item α β)} {t : List β} (h : Once items S is t S') :
    Once items S (.drop w :: is) t S'
  | seen {S S' : List α} {v : α} {is : List (Item α β)} {t : List β} (hv : v ∈ S) (h : Once items S is t S') :
    Once items S (.ref v :: is) t S'
  | new {S S₁ S' : List α} {v : α} {is : List (Item α β)} {tv t : List β} (hv : v ∉ S)
    (hnew : Once items (S ++ [v]) (items v) tv S₁) (h : Once items S₁ is t S') :
    Once items S (.ref v :: is) (tv ++ t) S'

/-- What `u` refers to itself. -/
def Ref (items : α → List (Item α β)) (u v : α) : Prop := .ref v ∈ items u

/-- Nothing is left of `v` when it is unfolded in full. -/
def Empty (items : α → List (Item α β)) (v : α) : Prop := ∃ rs l, Full items (items v) [] rs l

variable {items : α → List (Item α β)} {is js : List (Item α β)} {t t' tj : List β} {rs rs' S S' S'' : List α} {l l' : List β}
  {u v w : α}

/-! ## In full -/

theorem full_unique (h : Full items is t rs l) (h' : Full items is t' rs' l') : t = t' ∧ rs = rs' ∧ l = l' := by
  induction h generalizing t' rs' l' with
  | nil =>
    cases h'
    exact ⟨rfl, rfl, rfl⟩
  | keep h ih =>
    cases h' with
    | keep h' =>
      obtain ⟨ht, hrs, hl⟩ := ih h'
      exact ⟨by rw [ht], hrs, hl⟩
  | drop h ih =>
    cases h' with
    | drop h' =>
      obtain ⟨ht, hrs, hl⟩ := ih h'
      exact ⟨by rw [ht], hrs, by rw [hl]⟩
  | ref hv h ihv ih =>
    cases h' with
    | ref hv' h' =>
      obtain ⟨htv, hrv, hlv⟩ := ihv hv'
      obtain ⟨ht, hrs, hl⟩ := ih h'
      exact ⟨by rw [htv, ht], by rw [hrv, hrs], by rw [hlv, hl]⟩

theorem Full.dropped_le (h : Full items is t rs l) : l.length ≤ t.length := by
  induction h with
  | nil => exact le_rfl
  | keep h ih =>
    rw [List.length_append]
    omega
  | drop h ih =>
    rw [List.length_append, List.length_append]
    omega
  | ref hv h ihv ih =>
    rw [List.length_append, List.length_append]
    omega

theorem Full.empty_of_nil (h : Full items is t rs l) (ht : t = []) : ∀ v ∈ rs, Empty items v := by
  induction h with
  | nil =>
    intro v hv
    cases hv
  | keep h ih => exact ih (List.append_eq_nil_iff.mp ht).2
  | drop h ih => exact ih (List.append_eq_nil_iff.mp ht).2
  | @ref u is tu t ru rs lu l hu h ihu ih =>
    obtain ⟨rfl, rfl⟩ := List.append_eq_nil_iff.mp ht
    intro v hv
    rcases List.mem_append.mp hv with hv | hv
    · rcases List.mem_cons.mp hv with rfl | hv
      · exact ⟨ru, lu, hu⟩
      · exact ihu rfl v hv
    · exact ih rfl v hv

theorem Full.reached (h : Full items is t rs l) : ∀ v ∈ rs, ∃ u, .ref u ∈ is ∧ Relation.ReflTransGen (Ref items) u v := by
  induction h with
  | nil =>
    intro v hv
    cases hv
  | keep h ih => exact fun v hv => (ih v hv).imp fun u hu => hu.imp_left (List.mem_cons_of_mem _)
  | drop h ih => exact fun v hv => (ih v hv).imp fun u hu => hu.imp_left (List.mem_cons_of_mem _)
  | @ref w is tw t rw rs lw l hw h ihw ih =>
    intro v hv
    rcases List.mem_append.mp hv with hv | hv
    · refine ⟨w, List.mem_cons_self, ?_⟩
      rcases List.mem_cons.mp hv with rfl | hv
      · exact .refl
      · obtain ⟨u, hu, huv⟩ := ihw v hv
        exact .head hu huv
    · exact (ih v hv).imp fun u hu => hu.imp_left (List.mem_cons_of_mem _)

theorem exists_full (hacc : ∀ v, .ref v ∈ is → Acc (flip (Ref items)) v) : ∃ t rs l, Full items is t rs l := by
  have hlist : ∀ is : List (Item α β), (∀ v, .ref v ∈ is → ∃ t rs l, Full items (items v) t rs l) →
      ∃ t rs l, Full items is t rs l := by
    intro is hrefs
    induction is with
    | nil => exact ⟨[], [], [], .nil⟩
    | cons i is ih =>
      obtain ⟨t, rs, l, h⟩ := ih fun v hv => hrefs v (List.mem_cons_of_mem i hv)
      cases i with
      | keep w => exact ⟨_, _, _, h.keep⟩
      | drop w => exact ⟨_, _, _, h.drop⟩
      | ref v =>
        obtain ⟨tv, rv, lv, hv⟩ := hrefs v List.mem_cons_self
        exact ⟨_, _, _, hv.ref h⟩
  have hend : ∀ v, Acc (flip (Ref items)) v → ∃ t rs l, Full items (items v) t rs l := by
    intro v hv
    induction hv with
    | intro v hv ih => exact hlist (items v) fun w hw => ih w hw
  exact hlist is fun v hv => hend v (hacc v hv)

/-! ## Each only once -/

theorem Once.append (h : Once items S is t S') (h' : Once items S' js tj S'') : Once items S (is ++ js) (t ++ tj) S'' := by
  induction h with
  | nil => exact h'
  | keep h ih =>
    rw [List.append_assoc]
    exact (ih h').keep
  | drop h ih => exact (ih h').drop
  | seen hv h ih => exact (ih h').seen hv
  | new hv hnew h ihnew ih =>
    rw [List.append_assoc]
    exact hnew.new hv (ih h')

theorem Once.seen_subset (h : Once items S is t S') : S ⊆ S' := by
  induction h with
  | nil => exact List.Subset.refl _
  | keep h ih => exact ih
  | drop h ih => exact ih
  | seen hv h ih => exact ih
  | new hv hnew h ihnew ih => exact fun w hw => ih (ihnew (List.mem_append_left _ hw))

theorem Once.subset_refs (h : Once items S is t' S') (hfull : Full items is t rs l) : ∀ w ∈ S', w ∈ S ∨ w ∈ rs := by
  induction h generalizing t rs l with
  | nil => exact fun w hw => .inl hw
  | keep h ih =>
    cases hfull with
    | keep hfull => exact ih hfull
  | drop h ih =>
    cases hfull with
    | drop hfull => exact ih hfull
  | seen hv h ih =>
    cases hfull with
    | ref hfullv hfull => exact fun w hw => (ih hfull w hw).imp_right (List.mem_append_right _)
  | @new S S₁ S' v is tv t hv hnew h ihnew ih =>
    cases hfull with
    | ref hfullv hfull =>
      intro w hw
      rcases ih hfull w hw with hw | hw
      · rcases ihnew hfullv w hw with hw | hw
        · rcases List.mem_append.mp hw with hw | hw
          · exact .inl hw
          · rw [List.mem_singleton.mp hw]
            exact .inr List.mem_cons_self
        · exact .inr (List.mem_cons_of_mem v (List.mem_append_left _ hw))
      · exact .inr (List.mem_append_right _ hw)

theorem Once.length_le (h : Once items S is t' S') (hfull : Full items is t rs l) : t'.length ≤ t.length := by
  induction h generalizing t rs l with
  | nil => exact Nat.zero_le _
  | keep h ih =>
    cases hfull with
    | keep hfull =>
      rw [List.length_append, List.length_append]
      exact Nat.add_le_add_left (ih hfull) _
  | drop h ih =>
    cases hfull with
    | drop hfull =>
      rw [List.length_append]
      exact le_add_left (ih hfull)
  | seen hv h ih =>
    cases hfull with
    | ref hfullv hfull =>
      rw [List.length_append]
      exact le_add_left (ih hfull)
  | new hv hnew h ihnew ih =>
    cases hfull with
    | ref hfullv hfull =>
      rw [List.length_append, List.length_append]
      exact Nat.add_le_add (ihnew hfullv) (ih hfull)

theorem eq_append_iff (h : t'.length ≤ t.length) : t' = tj ++ t ↔ tj = [] ∧ t' = t := by
  constructor
  · intro heq
    have hlength := congrArg List.length heq
    rw [List.length_append] at hlength
    have hnil : tj = [] := List.length_eq_zero_iff.mp (by omega)
    rw [hnil] at heq
    exact ⟨hnil, heq⟩
  · rintro ⟨rfl, rfl⟩
    rfl

theorem append_eq_iff {a b : List β} (ha : a.length ≤ tj.length) (hb : b.length ≤ t.length) :
    a ++ b = tj ++ t ↔ a = tj ∧ b = t := by
  constructor
  · intro heq
    have hlength := congrArg List.length heq
    rw [List.length_append, List.length_append] at hlength
    exact List.append_inj heq (by omega)
  · rintro ⟨rfl, rfl⟩
    rfl

/-- When nothing is missing, everything referred to has been seen or is empty. -/
theorem Once.covers (h : Once items S is t' S') (hfull : Full items is t rs l) (heq : t' = t) :
    ∀ w ∈ rs, w ∈ S' ∨ Empty items w := by
  induction h generalizing t rs l with
  | nil =>
    cases hfull
    intro w hw
    cases hw
  | keep h ih =>
    cases hfull with
    | keep hfull => exact ih hfull (List.append_cancel_left heq)
  | drop h ih =>
    cases hfull with
    | drop hfull => exact ih hfull ((eq_append_iff (h.length_le hfull)).mp heq).2
  | @seen S S' v is t' hv h ih =>
    cases hfull with
    | ref hfullv hfull =>
      obtain ⟨hnil, heq⟩ := (eq_append_iff (h.length_le hfull)).mp heq
      intro w hw
      rcases List.mem_append.mp hw with hw | hw
      · rcases List.mem_cons.mp hw with rfl | hw
        · exact .inl (h.seen_subset hv)
        · exact .inr (hfullv.empty_of_nil hnil w hw)
      · exact ih hfull heq w hw
  | @new S S₁ S' v is tv t' hv hnew h ihnew ih =>
    cases hfull with
    | ref hfullv hfull =>
      obtain ⟨heqv, heq⟩ := (append_eq_iff (hnew.length_le hfullv) (h.length_le hfull)).mp heq
      intro w hw
      rcases List.mem_append.mp hw with hw | hw
      · rcases List.mem_cons.mp hw with rfl | hw
        · exact .inl (h.seen_subset (hnew.seen_subset (List.mem_append_right S (List.mem_singleton_self w))))
        · exact (ihnew hfullv heqv w hw).imp_left fun hmem => h.seen_subset hmem
      · exact ih hfull heq w hw

/-! ## Both the same -/

section Same

variable [BEq α] {rv : List α}

/-- Some occurrence of `v` in `rs` is skipped, when what is in `S` was seen before. -/
def Skipped (S rs : List α) (v : α) : Prop := v ∈ S ∨ 2 ≤ rs.count v

theorem count_ref (v w : α) (rv rs : List α) :
    (v :: rv ++ rs).count w = rv.count w + (if v == w then 1 else 0) + rs.count w := by
  rw [List.count_append, List.count_cons]

theorem Skipped.right (h : Skipped S rs w) : Skipped S (rv ++ rs) w := by
  refine h.imp_right fun hcount => ?_
  rw [List.count_append]
  exact le_add_left hcount

variable [LawfulBEq α]

theorem Skipped.below (hw : w ∈ rv) (h : Skipped (S ++ [v]) rv w) : Skipped S (v :: rv ++ rs) w := by
  have hpos := List.count_pos_iff.mpr hw
  unfold Skipped
  rw [count_ref]
  rcases h with h | h
  · rcases List.mem_append.mp h with h | h
    · exact .inl h
    · rw [if_pos (beq_iff_eq.mpr (List.mem_singleton.mp h).symm)]
      exact .inr (by omega)
  · exact .inr (by omega)

theorem skipped_after (hw : w ∈ rs) (h : w ∈ v :: rv) : Skipped S (v :: rv ++ rs) w := by
  have hpos := List.count_pos_iff.mpr hw
  have hposv := List.count_pos_iff.mpr h
  unfold Skipped
  rw [List.count_append]
  exact .inr (by omega)

/-- What is skipped is skipped below the first reference, which is new, or occurs after it and is skipped there. -/
theorem Skipped.split (hv : v ∉ S) (hw : w ∈ v :: rv ++ rs) (h : Skipped S (v :: rv ++ rs) w) :
    (w ∈ rv ∧ Skipped (S ++ [v]) rv w) ∨ (w ∈ rs ∧ (Skipped S rs w ∨ w ∈ v :: rv)) := by
  by_cases hwr : w ∈ rs
  · refine .inr ⟨hwr, ?_⟩
    by_cases hwv : w ∈ v :: rv
    · exact .inr hwv
    · refine .inl (h.imp_right fun hcount => ?_)
      rwa [List.count_append, List.count_eq_zero.mpr hwv, Nat.zero_add] at hcount
  · have hwv : w ∈ v :: rv := (List.mem_append.mp hw).resolve_right hwr
    unfold Skipped at h ⊢
    rw [count_ref, List.count_eq_zero.mpr hwr, Nat.add_zero] at h
    by_cases heq : v = w
    · subst heq
      rw [if_pos (beq_self_eq_true v)] at h
      have hcount := h.resolve_left hv
      exact .inl ⟨List.count_pos_iff.mp (by omega), .inl (List.mem_append_right S (List.mem_singleton_self v))⟩
    · rw [if_neg (by simpa using heq), Nat.add_zero] at h
      exact .inl ⟨(List.mem_cons.mp hwv).resolve_left (Ne.symm heq), h.imp_left (List.mem_append_left [v])⟩

theorem seen_iff {tv lv : List β} (hv : v ∈ S) (hfullv : Full items (items v) tv rv lv) :
    (tv = [] ∧ l = [] ∧ ∀ w ∈ rs, Skipped S rs w → Empty items w) ↔
      (lv = [] ∧ l = []) ∧ ∀ w ∈ v :: rv ++ rs, Skipped S (v :: rv ++ rs) w → Empty items w := by
  constructor
  · rintro ⟨rfl, hl, hempty⟩
    have hlv : lv = [] := List.length_eq_zero_iff.mp (Nat.le_zero.mp hfullv.dropped_le)
    refine ⟨⟨hlv, hl⟩, fun w hw hskipped => ?_⟩
    -- `v` and all below it are empty; what is left occurs in the rest only
    by_cases hwv : w ∈ v :: rv
    · rcases List.mem_cons.mp hwv with rfl | hwv
      · exact ⟨rv, lv, hfullv⟩
      · exact hfullv.empty_of_nil rfl w hwv
    · refine hempty w ((List.mem_append.mp hw).resolve_left hwv) (hskipped.imp_right fun hcount => ?_)
      rwa [List.count_append, List.count_eq_zero.mpr hwv, Nat.zero_add] at hcount
  · rintro ⟨⟨-, hl⟩, hempty⟩
    obtain ⟨rv', lv', hfullv'⟩ := hempty v List.mem_cons_self (.inl hv)
    exact ⟨(full_unique hfullv hfullv').1, hl, fun w hw hskipped => hempty w (List.mem_append_right _ hw) hskipped.right⟩

theorem new_iff {S₁ : List α} {tv tv' lv : List β} (hv : v ∉ S) (hnew : Once items (S ++ [v]) (items v) tv' S₁)
    (hfullv : Full items (items v) tv rv lv)
    (hbelow : tv' = tv ↔ lv = [] ∧ ∀ w ∈ rv, Skipped (S ++ [v]) rv w → Empty items w) :
    (tv' = tv ∧ l = [] ∧ ∀ w ∈ rs, Skipped S₁ rs w → Empty items w) ↔
      (lv = [] ∧ l = []) ∧ ∀ w ∈ v :: rv ++ rs, Skipped S (v :: rv ++ rs) w → Empty items w := by
  have hsubset : ∀ w, w ∈ S ∨ w = v → w ∈ S₁ := fun w hw => hnew.seen_subset (by simpa using hw)
  constructor
  · rintro ⟨heq, hl, hempty⟩
    obtain ⟨hlv, hemptyv⟩ := hbelow.mp heq
    refine ⟨⟨hlv, hl⟩, fun w hw hskipped => ?_⟩
    rcases hskipped.split hv hw with ⟨hwv, hskipped⟩ | ⟨hwr, hskipped | hwv⟩
    · exact hemptyv w hwv hskipped
    · exact hempty w hwr (hskipped.imp_left fun hS => hsubset w (.inl hS))
    · -- it occurs before as well, so that it was seen, or is empty, when it comes here
      rcases List.mem_cons.mp hwv with hwv | hwv
      · exact hempty w hwr (.inl (hsubset w (.inr hwv)))
      · exact (hnew.covers hfullv heq w hwv).elim (fun hmem => hempty w hwr (.inl hmem)) id
  · rintro ⟨⟨hlv, hl⟩, hempty⟩
    refine ⟨hbelow.mpr ⟨hlv, fun w hw hskipped => ?_⟩, hl, fun w hw hskipped => ?_⟩
    · exact hempty w (List.mem_append_left _ (List.mem_cons_of_mem v hw)) (hskipped.below hw)
    · refine hempty w (List.mem_append_right _ hw) ?_
      rcases hskipped with hmem | hcount
      · rcases hnew.subset_refs hfullv w hmem with hmem | hmem
        · rcases List.mem_append.mp hmem with hmem | hmem
          · exact .inl hmem
          · exact skipped_after hw (List.mem_cons.mpr (.inl (List.mem_singleton.mp hmem)))
        · exact skipped_after hw (List.mem_cons_of_mem v hmem)
      · exact Skipped.right (.inr hcount)

/-- Nothing is missing exactly when there was nothing to drop, and everything that is skipped somewhere is empty. -/
theorem once_eq_iff (h : Once items S is t' S') (hfull : Full items is t rs l) :
    t' = t ↔ l = [] ∧ ∀ v ∈ rs, Skipped S rs v → Empty items v := by
  induction h generalizing t rs l with
  | nil =>
    cases hfull
    simp
  | keep h ih =>
    cases hfull with
    | keep hfull => rw [List.append_cancel_left_eq, ih hfull]
  | drop h ih =>
    cases hfull with
    | drop hfull => rw [eq_append_iff (h.length_le hfull), ih hfull, List.append_eq_nil_iff, and_assoc]
  | seen hv h ih =>
    cases hfull with
    | ref hfullv hfull =>
      rw [eq_append_iff (h.length_le hfull), ih hfull, List.append_eq_nil_iff]
      exact seen_iff hv hfullv
  | new hv hnew h ihnew ih =>
    cases hfull with
    | ref hfullv hfull =>
      rw [append_eq_iff (hnew.length_le hfullv) (h.length_le hfull), ih hfull, List.append_eq_nil_iff]
      exact new_iff hv hnew hfullv (ihnew hfullv)

end Same

/-! ## When references come to an end -/

section Acyclic

open Relation

variable {γ : Type} {r : α → α → Prop} (name : α → γ) {names : Set γ}

/-- Below every step there are fewer names, since the name that it came to is not met again. -/
theorem acc_of_acyclic (hfinite : names.Finite) (hname : ∀ v, TransGen r u v → name v ∈ names)
    (hacyclic : ∀ v w, ReflTransGen r u v → TransGen r v w → name v ≠ name w) : Acc (flip r) u := by
  induction hn : {b | ∃ v, TransGen r u v ∧ name v = b}.ncard using Nat.strong_induction_on generalizing u with
  | _ n ih =>
    refine .intro u fun v (huv : r u v) => ?_
    have hsubset : {b | ∃ w, TransGen r u w ∧ name w = b} ⊆ names := by
      rintro _ ⟨w, hw, rfl⟩
      exact hname w hw
    have hless : {b | ∃ w, TransGen r v w ∧ name w = b} ⊂ {b | ∃ w, TransGen r u w ∧ name w = b} := by
      refine ⟨?_, fun hsub => ?_⟩
      · rintro _ ⟨w, hw, rfl⟩
        exact ⟨w, .head huv hw, rfl⟩
      · obtain ⟨w, hw, heq⟩ := hsub ⟨v, .single huv, rfl⟩
        exact hacyclic v w (.single huv) hw heq.symm
    refine ih _ ?_ (fun w hw => hname w (.head huv hw)) (fun w x hw hx => hacyclic w x (.head huv hw) hx) rfl
    rw [← hn]
    exact Set.ncard_lt_ncard hless (hfinite.subset hsubset)

end Acyclic

end Unfold
