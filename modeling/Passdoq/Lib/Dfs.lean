import Mathlib

/-!
# Depth-first search

The nodes reached from a node are visited in the order of `next`, each at most once, with fuel, since there may be
infinitely many. The search breaks off where it comes to a node of `stop`.

* `search` : the search, with the chain of nodes along which each one was visited;
* `Reach S bs v` : `v` is reached from `bs` outside `S`; `search_covers` : what a search has seen at its end, or why it broke
  off;
* `Followed` : the chains along which a search goes, described without it;
* `search_distinct_iff` : a search ends, and no name comes twice along its chains, exactly when none comes twice along
  the followed ones.
-/

namespace Dfs

variable {α : Type} (next : α → List α) (stop : α → Bool)

/-- `v` is reached from one of `bs` through nodes outside `S`. -/
inductive Reach (S : Set α) (bs : List α) : α → Prop
  | base {v : α} (hv : v ∈ bs) (hS : v ∉ S) : Reach S bs v
  | step {u v : α} (h : Reach S bs u) (hv : v ∈ next u) (hS : v ∉ S) : Reach S bs v

/-- The search from `u₀` goes along the chain, and has seen `S` when it comes to its last node: every node of the chain is
new, neither seen before nor reached from what comes before it in `next`, and the search has not come to a node of `stop`. -/
inductive Followed (u₀ : α) (S₀ : Set α) : List α → Set α → Prop
  | root : Followed u₀ S₀ [u₀] S₀
  | step {u v : α} {above before after : List α} {S : Set α} (h : Followed u₀ S₀ (u :: above) S)
    (hnext : next u = before ++ v :: after) (hS : v ∉ S) (hnew : ¬ Reach next S before v)
    (hgoes : ∀ w, w = v ∨ Reach next S before w → stop w = false) :
    Followed u₀ S₀ (v :: u :: above) (insert v (S ∪ {w | Reach next S before w}))

variable {next stop} {u v w : α} {above bs before after chain : List α} {S : Set α}

/-! ## What is reached -/

theorem Reach.mono {bs' : List α} (h : Reach next S bs w) (hbs : ∀ b ∈ bs, b ∈ bs') : Reach next S bs' w := by
  induction h with
  | base hv hS => exact .base (hbs _ hv) hS
  | step h hv hS ih => exact .step ih hv hS

theorem Reach.shrink {T : Set α} (h : Reach next T bs w) (hST : S ⊆ T) : Reach next S bs w := by
  induction h with
  | base hv hS => exact .base hv fun hmem => hS (hST hmem)
  | step h hv hS ih => exact .step ih hv fun hmem => hS (hST hmem)

theorem not_reach_nil : ¬ Reach next S [] w := by
  intro h
  induction h with
  | base hv hS => cases hv
  | step h hv hS ih => exact ih

theorem reach_cons_seen (hv : v ∈ S) : Reach next S (v :: bs) w ↔ Reach next S bs w := by
  constructor
  · intro h
    induction h with
    | base hb hS =>
      rcases List.mem_cons.mp hb with rfl | hb
      · exact absurd hv hS
      · exact .base hb hS
    | step h hb hS ih => exact .step ih hb hS
  · exact fun h => h.mono fun b hb => List.mem_cons_of_mem v hb

theorem reach_singleton (hv : v ∉ S) : Reach next S [v] w ↔ w = v ∨ Reach next (insert v S) (next v) w := by
  constructor
  · intro h
    induction h with
    | base hb hS => exact .inl (List.mem_singleton.mp hb)
    | @step u w h hb hS ih =>
      by_cases hw : w = v
      · exact .inl hw
      · have hnot : w ∉ insert v S := fun hmem => (Set.mem_insert_iff.mp hmem).elim hw hS
        rcases ih with rfl | ih
        · exact .inr (.base hb hnot)
        · exact .inr (.step ih hb hnot)
  · have hself : Reach next S [v] v := .base (List.mem_singleton_self v) hv
    rintro (rfl | h)
    · exact hself
    · induction h with
      | base hb hS => exact .step hself hb fun hmem => hS (Set.mem_insert_of_mem v hmem)
      | step h hb hS ih => exact .step ih hb fun hmem => hS (Set.mem_insert_of_mem v hmem)

theorem reach_append : Reach next S (before ++ after) w ↔
    Reach next S before w ∨ Reach next (S ∪ {x | Reach next S before x}) after w := by
  constructor
  · intro h
    induction h with
    | @base w hb hS =>
      by_cases hw : Reach next S before w
      · exact .inl hw
      · rcases List.mem_append.mp hb with hb | hb
        · exact .inl (.base hb hS)
        · exact .inr (.base hb fun hmem => hmem.elim hS hw)
    | @step u w h hb hS ih =>
      by_cases hw : Reach next S before w
      · exact .inl hw
      · rcases ih with ih | ih
        · exact absurd (ih.step hb hS) hw
        · exact .inr (.step ih hb fun hmem => hmem.elim hS hw)
  · rintro (h | h)
    · exact h.mono fun b hb => List.mem_append_left after hb
    · exact (h.mono fun b hb => List.mem_append_right before hb).shrink Set.subset_union_left

/-- A chain from a node that was seen is of different nodes, seen at its end. -/
theorem Followed.nodup {u₀ : α} {S₀ : Set α} (hroot : u₀ ∈ S₀) (h : Followed next stop u₀ S₀ chain S) :
    chain.Nodup ∧ ∀ w ∈ chain, w ∈ S := by
  induction h with
  | root => simpa using hroot
  | @step u v above before after S h hnext hS hnew hgoes ih =>
    obtain ⟨hnd, hmem⟩ := ih
    refine ⟨List.nodup_cons.mpr ⟨fun hv => hS (hmem v hv), hnd⟩, fun w hw => ?_⟩
    rcases List.mem_cons.mp hw with rfl | hw
    · exact Set.mem_insert w _
    · exact Set.mem_insert_of_mem v (.inl (hmem w hw))

section Names

variable {β : Type} {name : α → β} {files : Finset β} {u₀ : α} {S₀ : Set α}

theorem Followed.names (hroot : name u₀ ∈ files) (hnext : ∀ u, ∀ v ∈ next u, stop v = false → name v ∈ files)
    (h : Followed next stop u₀ S₀ chain S) : ∀ w ∈ chain, name w ∈ files := by
  induction h with
  | root =>
    intro w hw
    obtain rfl := List.mem_singleton.mp hw
    exact hroot
  | @step u v above before after S h hsplit hS hnew hgoes ih =>
    intro w hw
    rcases List.mem_cons.mp hw with rfl | hw
    · exact hnext u w (by rw [hsplit]; simp) (hgoes w (.inl rfl))
    · exact ih w hw

theorem length_le_card (hmem : ∀ w ∈ chain, name w ∈ files) (hnd : (chain.map name).Nodup) : chain.length ≤ files.card := by
  classical
  rw [← List.length_map name, ← List.toFinset_card_of_nodup hnd]
  refine Finset.card_le_card fun b hb => ?_
  obtain ⟨w, hw, rfl⟩ := List.mem_map.mp (List.mem_toFinset.mp hb)
  exact hmem w hw

end Names

/-! ## The search -/

/-- What a search has gone through: the chains to the nodes it visited, nearest first, the nodes it has seen, and whether it
broke off. -/
structure Trace (α : Type) where
  chains : List (List α)
  seen : List α
  stopped : Bool

/-- The nodes in a list, as a set. -/
def nodes (l : List α) : Set α := {w | w ∈ l}

/-- The nodes in `l'` are those in `l` and those that are reached from `bs`. -/
def Sees (next : α → List α) (l bs l' : List α) : Prop := nodes l' = nodes l ∪ {w | Reach next (nodes l) bs w}

/-- From `l` on, the search of `bs` saw what is reached, or broke off at a node that is. -/
structure Covers (next : α → List α) (stop : α → Bool) (l bs : List α) (t : Trace α) : Prop where
  sees : t.stopped = false → Sees next l bs t.seen ∧ ∀ w, Reach next (nodes l) bs w → stop w = false
  breaks : t.stopped = true → ∃ w, Reach next (nodes l) bs w ∧ stop w = true

variable {n : Nat} {t t' : Trace α} {l l' l'' : List α}

theorem nodes_snoc : nodes (l ++ [v]) = insert v (nodes l) := by
  ext w
  simp [nodes, or_comm]

theorem covers_nil (ht : t.stopped = false) : Covers next stop t.seen [] t where
  sees _ := ⟨by ext w; simp [not_reach_nil], fun w hw => absurd hw not_reach_nil⟩
  breaks h := by rw [ht] at h; cases h

theorem Covers.broken (h : Covers next stop l before t) (ht : t.stopped = true) : Covers next stop l (before ++ after) t where
  sees hgoes := by rw [ht] at hgoes; cases hgoes
  breaks _ := by
    obtain ⟨w, hw, hstop⟩ := h.breaks ht
    exact ⟨w, reach_append.mpr (.inl hw), hstop⟩

theorem Covers.append (h : Covers next stop l before t) (ht : t.stopped = false)
    (h' : Covers next stop t.seen after t') : Covers next stop l (before ++ after) t' := by
  obtain ⟨hsees, hgoes⟩ := h.sees ht
  have hreach : ∀ w, Reach next (nodes l) (before ++ after) w ↔
      Reach next (nodes l) before w ∨ Reach next (nodes t.seen) after w := by
    intro w
    rw [reach_append, hsees]
  constructor
  · intro ht'
    obtain ⟨hsees', hgoes'⟩ := h'.sees ht'
    refine ⟨?_, fun w hw => ?_⟩
    · unfold Sees at hsees hsees' ⊢
      ext w
      have hw := hreach w
      rw [hsees', hsees] at *
      simp only [Set.mem_union, Set.mem_ofPred_eq] at hw ⊢
      tauto
    · rcases (hreach w).mp hw with hw | hw
      · exact hgoes w hw
      · exact hgoes' w hw
  · intro ht'
    obtain ⟨w, hw, hstop⟩ := h'.breaks ht'
    exact ⟨w, (hreach w).mpr (.inr hw), hstop⟩

variable [DecidableEq α]

/-- Visit `v`, at the end of `chain`, unless it was seen or the search has broken off. -/
def visit (stop : α → Bool) (go : α → List α → List α → Option (Trace α)) (chain : List α) (t : Trace α) (v : α) :
    Option (Trace α) :=
  if t.stopped ∨ v ∈ t.seen then some t
  else if stop v then some { t with stopped := true }
  else (go v chain (t.seen ++ [v])).map fun t' => ⟨t.chains ++ (v :: chain) :: t'.chains, t'.seen, t'.stopped⟩

/-- Visit what is reached from `u`, which was visited along `above`. -/
def search (next : α → List α) (stop : α → Bool) : Nat → α → List α → List α → Option (Trace α)
  | 0, _, _, _ => none
  | n + 1, u, above, seen => (next u).foldlM (visit stop (search next stop n) (u :: above)) ⟨[], seen, false⟩

/-- Every search with this fuel sees what is reached, or breaks off at it. -/
def AllCover (next : α → List α) (stop : α → Bool) (n : Nat) : Prop :=
  ∀ u above l t, search next stop n u above l = some t → Covers next stop l (next u) t

theorem visit_covers (hsearch : AllCover next stop n) (ht : t.stopped = false)
    (h : visit stop (search next stop n) chain t v = some t') : Covers next stop t.seen [v] t' := by
  unfold visit at h
  split_ifs at h with hv hstop
  · obtain rfl := Option.some.inj h
    have hseen : v ∈ nodes t.seen := hv.resolve_left (by simp [ht])
    constructor
    · intro _
      refine ⟨?_, fun w hw => absurd ((reach_cons_seen hseen).mp hw) not_reach_nil⟩
      ext w
      simp [reach_cons_seen hseen, not_reach_nil]
    · intro h
      rw [ht] at h
      cases h
  · obtain rfl := Option.some.inj h
    exact ⟨nofun, fun _ => ⟨v, .base (List.mem_singleton_self v) fun hmem => hv (.inr hmem), hstop⟩⟩
  · obtain ⟨t₂, ht₂, rfl⟩ := Option.map_eq_some_iff.mp h
    have hnew : v ∉ nodes t.seen := fun hmem => hv (.inr hmem)
    have hcovers := hsearch _ _ _ _ ht₂
    constructor
    · intro hend
      obtain ⟨hsees, hgoes⟩ := hcovers.sees hend
      rw [nodes_snoc] at hgoes
      refine ⟨?_, fun w hw => ?_⟩
      · unfold Sees at hsees ⊢
        ext w
        rw [hsees, nodes_snoc]
        simp only [Set.mem_union, Set.mem_insert_iff, Set.mem_ofPred_eq, reach_singleton hnew]
        tauto
      · rcases (reach_singleton hnew).mp hw with rfl | hw
        · simpa using hstop
        · exact hgoes w hw
    · intro hend
      obtain ⟨w, hw, hstop⟩ := hcovers.breaks hend
      rw [nodes_snoc] at hw
      exact ⟨w, (reach_singleton hnew).mpr (.inr hw), hstop⟩

theorem visitAll_stopped {go : α → List α → List α → Option (Trace α)} (ht : t.stopped = true) :
    bs.foldlM (visit stop go chain) t = some t := by
  induction bs with
  | nil => rfl
  | cons v bs ih =>
    have hvisit : visit stop go chain t v = some t := if_pos (.inl ht)
    rw [List.foldlM_cons, hvisit]
    exact ih

theorem visitAll_covers (hsearch : AllCover next stop n) (ht : t.stopped = false)
    (h : bs.foldlM (visit stop (search next stop n) chain) t = some t') : Covers next stop t.seen bs t' := by
  induction bs generalizing t with
  | nil =>
    obtain rfl := Option.some.inj h
    exact covers_nil ht
  | cons v bs ih =>
    rw [List.foldlM_cons] at h
    obtain ⟨t₁, h₁, h₂⟩ := Option.bind_eq_some_iff.mp h
    have hfirst := visit_covers hsearch ht h₁
    cases hend : t₁.stopped with
    | true =>
      obtain rfl := Option.some.inj ((visitAll_stopped hend).symm.trans h₂)
      exact hfirst.broken hend
    | false => exact hfirst.append hend (ih hend h₂)

theorem search_covers (n : Nat) : AllCover next stop n := by
  induction n with
  | zero =>
    intro u above l t h
    cases h
  | succ n ih =>
    intro u above l t h
    exact visitAll_covers (t := ⟨[], l, false⟩) ih rfl h

/-! ## The chains of a search -/

section Chains

variable {β : Type} {name : α → β} {files : Finset β} {u₀ : α} {S₀ : Set α}

/-- What was gone through stays in the trace. -/
theorem visitAll_chains {go : α → List α → List α → Option (Trace α)} (h : bs.foldlM (visit stop go chain) t = some t') :
    ∀ c ∈ t.chains, c ∈ t'.chains := by
  induction bs generalizing t with
  | nil =>
    obtain rfl := Option.some.inj h
    exact fun c hc => hc
  | cons v bs ih =>
    rw [List.foldlM_cons] at h
    obtain ⟨t₁, h₁, h₂⟩ := Option.bind_eq_some_iff.mp h
    intro c hc
    refine ih h₂ c ?_
    unfold visit at h₁
    split_ifs at h₁
    · obtain rfl := Option.some.inj h₁
      exact hc
    · obtain rfl := Option.some.inj h₁
      exact hc
    · obtain ⟨t₂, -, rfl⟩ := Option.map_eq_some_iff.mp h₁
      exact List.mem_append_left _ hc

/-- A search that ends goes along every followed chain. -/
theorem Followed.visited (hsearch : search next stop n u₀ [] l = some t) (h : Followed next stop u₀ (nodes l) chain S) :
    chain ∈ [u₀] :: t.chains ∧ ∃ u above n l t', chain = u :: above ∧ nodes l = S ∧ search next stop n u above l = some t' ∧
      ∀ c ∈ t'.chains, c ∈ t.chains := by
  induction h with
  | root => exact ⟨List.mem_cons_self, u₀, [], n, l, t, rfl, rfl, hsearch, fun c hc => hc⟩
  | @step u v above before after S h hnext hS hnew hgoes ih =>
    obtain ⟨-, _, _, m, l', t', hchain, hl', ht', hmem⟩ := ih
    obtain ⟨rfl, rfl⟩ := List.cons.inj hchain
    cases m with
    | zero => cases ht'
    | succ m =>
      rw [search, hnext, List.foldlM_append] at ht'
      obtain ⟨t₁, h₁, ht'⟩ := Option.bind_eq_some_iff.mp ht'
      rw [List.foldlM_cons] at ht'
      obtain ⟨t₂, h₂, h₃⟩ := Option.bind_eq_some_iff.mp ht'
      have hcovers : Covers next stop l' before t₁ := visitAll_covers (t := ⟨[], l', false⟩) (search_covers m) rfl h₁
      have hend : t₁.stopped = false := by
        by_contra hend
        obtain ⟨w, hw, hstop⟩ := hcovers.breaks (by simpa using hend)
        rw [hl'] at hw
        rw [hgoes w (.inr hw)] at hstop
        cases hstop
      have hseen : nodes t₁.seen = nodes l' ∪ {w | Reach next (nodes l') before w} := (hcovers.sees hend).1
      have hv : v ∉ t₁.seen := by
        change v ∉ nodes t₁.seen
        rw [hseen, hl']
        exact fun hmem => hmem.elim hS hnew
      rw [visit, if_neg (by simp [hend, hv]), if_neg (by simp [hgoes v (.inl rfl)])] at h₂
      obtain ⟨t₃, h₄, rfl⟩ := Option.map_eq_some_iff.mp h₂
      have hkept := visitAll_chains h₃
      refine ⟨List.mem_cons_of_mem _ (hmem _ (hkept _ (by simp))), v, u :: above, m, _, t₃, rfl, ?_, h₄, fun c hc => ?_⟩
      · rw [nodes_snoc, hseen, hl']
      · exact hmem c (hkept c (by simp [hc]))

/-- A child is visited along followed chains only, when what is searched below it is. -/
theorem visit_follows {before after : List α} {v : α} {t : Trace α} (h : Followed next stop u₀ S₀ (u :: above) (nodes l))
    (hsplit : next u = before ++ v :: after) (hcovers : Covers next stop l before t) (ht : t.stopped = false)
    (hchains : ∀ c ∈ t.chains, ∃ S, Followed next stop u₀ S₀ c S)
    (hbelow : Followed next stop u₀ S₀ (v :: u :: above) (nodes (t.seen ++ [v])) →
      ∃ t', search next stop n v (u :: above) (t.seen ++ [v]) = some t' ∧
        ∀ c ∈ t'.chains, ∃ S, Followed next stop u₀ S₀ c S) :
    ∃ t', visit stop (search next stop n) (u :: above) t v = some t' ∧
      ∀ c ∈ t'.chains, ∃ S, Followed next stop u₀ S₀ c S := by
  obtain ⟨hsees, hquiet⟩ := hcovers.sees ht
  unfold visit
  split_ifs with hv hstop
  · exact ⟨t, rfl, hchains⟩
  · exact ⟨_, rfl, hchains⟩
  · have hnew : v ∉ nodes l ∪ {w | Reach next (nodes l) before w} := by
      rw [← hsees]
      exact fun hmem => hv (.inr hmem)
    have hgoes : ∀ w, w = v ∨ Reach next (nodes l) before w → stop w = false := by
      rintro w (rfl | hw)
      · simpa using hstop
      · exact hquiet w hw
    have hstep : Followed next stop u₀ S₀ (v :: u :: above) (nodes (t.seen ++ [v])) := by
      rw [nodes_snoc, hsees]
      exact h.step hsplit (fun hmem => hnew (.inl hmem)) (fun hreach => hnew (.inr hreach)) hgoes
    obtain ⟨t', ht', hchains'⟩ := hbelow hstep
    refine ⟨_, by rw [ht']; rfl, fun c hc => ?_⟩
    rcases List.mem_append.mp hc with hc | hc
    · exact hchains c hc
    · rcases List.mem_cons.mp hc with rfl | hc
      · exact ⟨_, hstep⟩
      · exact hchains' c hc

/-- When no name comes twice along a followed chain the search ends, with more fuel than there are names to come, and it has
gone along followed chains only. -/
theorem search_ends (hroot : name u₀ ∈ files) (hnext : ∀ u, ∀ v ∈ next u, stop v = false → name v ∈ files)
    (hdistinct : ∀ chain S, Followed next stop u₀ S₀ chain S → (chain.map name).Nodup)
    (h : Followed next stop u₀ S₀ (u :: above) (nodes l)) (hn : files.card < n + (u :: above).length) :
    ∃ t, search next stop n u above l = some t ∧ ∀ c ∈ t.chains, ∃ S, Followed next stop u₀ S₀ c S := by
  induction n generalizing u above l with
  | zero =>
    have hlen := length_le_card (h.names hroot hnext) (hdistinct _ _ h)
    omega
  | succ n ih =>
    -- on the list of children, with those before already visited
    have key : ∀ after before t, next u = before ++ after → Covers next stop l before t →
        (∀ c ∈ t.chains, ∃ S, Followed next stop u₀ S₀ c S) →
        ∃ t', after.foldlM (visit stop (search next stop n) (u :: above)) t = some t' ∧
          ∀ c ∈ t'.chains, ∃ S, Followed next stop u₀ S₀ c S := by
      intro after
      induction after with
      | nil => exact fun before t _ _ hchains => ⟨t, rfl, hchains⟩
      | cons v after ihafter =>
        intro before t hsplit hcovers hchains
        by_cases hbroken : t.stopped = true
        · exact ⟨t, visitAll_stopped hbroken, hchains⟩
        have ht : t.stopped = false := by simpa using hbroken
        obtain ⟨t₁, ht₁, hchains₁⟩ := visit_follows h hsplit hcovers ht hchains fun hstep =>
          ih hstep (by simp only [List.length_cons] at hn ⊢; omega)
        have hcovers₁ : Covers next stop l (before ++ [v]) t₁ :=
          hcovers.append ht (visit_covers (search_covers n) ht ht₁)
        obtain ⟨t', ht', hchains'⟩ := ihafter (before ++ [v]) t₁ (by rw [hsplit]; simp) hcovers₁ hchains₁
        refine ⟨t', ?_, hchains'⟩
        rw [List.foldlM_cons, ht₁]
        exact ht'
    exact key (next u) [] ⟨[], l, false⟩ rfl (covers_nil (t := ⟨[], l, false⟩) rfl) fun c hc => by cases hc

/-- A search ends, and no name comes twice along its chains, exactly when none comes twice along a followed chain. -/
theorem search_distinct_iff (hroot : name u₀ ∈ files) (hnext : ∀ u, ∀ v ∈ next u, stop v = false → name v ∈ files) (l : List α) :
    (∃ n t, search next stop n u₀ [] l = some t ∧ ∀ chain ∈ [u₀] :: t.chains, (chain.map name).Nodup) ↔
      ∀ chain S, Followed next stop u₀ (nodes l) chain S → (chain.map name).Nodup := by
  constructor
  · rintro ⟨n, t, hsearch, hnd⟩ chain S h
    exact hnd chain (h.visited hsearch).1
  · intro hdistinct
    obtain ⟨t, ht, hchains⟩ := search_ends (n := files.card) hroot hnext hdistinct .root (by simp)
    refine ⟨files.card, t, ht, fun chain hchain => ?_⟩
    rcases List.mem_cons.mp hchain with rfl | hchain
    · simp
    · obtain ⟨S, hS⟩ := hchains chain hchain
      exact hdistinct chain S hS

end Chains

end Dfs
