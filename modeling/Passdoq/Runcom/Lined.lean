import Passdoq.Runcom.Compose

/-!
# Texts without includes

* `Lined text` : the text consists of whole lines, none of which is an include;
* `lined_of` : it does when the sign of an include stands neither in front of it nor behind one of its line ends;
* `expand_lined` : such a text is parsed as it is;
* `preprocess_lined` : whatever is loaded, what is parsed is such a text.
-/

namespace Passdoq.Runcom

def includeSign : Bytes := ascii "#include"

/-- The text consists of lines that are kept. -/
def Lined (text : Bytes) : Prop :=
  ∃ lines : List Bytes, text = lines.flatMap (fun line => line ++ [10]) ∧
    ∀ line ∈ lines, 10 ∉ line ∧ ¬ includeSign.isPrefixOf line = true

section Lined

variable {text : Bytes} {read : Bytes → Reading}

theorem lined_nil : Lined [] := ⟨[], rfl, nofun⟩

theorem lined_line {line : Bytes} (h : 10 ∉ line) (hline : ¬ includeSign.isPrefixOf line = true) : Lined (line ++ [10]) := by
  refine ⟨[line], by simp, fun l hl => ?_⟩
  obtain rfl := List.mem_singleton.mp hl
  exact ⟨h, hline⟩

theorem Lined.append {text' : Bytes} (h : Lined text) (h' : Lined text') : Lined (text ++ text') := by
  obtain ⟨lines, rfl, hlines⟩ := h
  obtain ⟨lines', rfl, hlines'⟩ := h'
  refine ⟨lines ++ lines', by rw [List.flatMap_append], fun line hline => ?_⟩
  obtain hline | hline := List.mem_append.mp hline
  · exact hlines line hline
  · exact hlines' line hline

theorem not_mem_includeSign : 10 ∉ includeSign := by decide

/-- No line but the first begins with the sign, wherever it stands in the text. -/
theorem Lined.not_infix (h : Lined text) : ¬ 10 :: includeSign <:+: text := by
  obtain ⟨lines, rfl, hlines⟩ := h
  induction lines with
  | nil => simp
  | cons line lines ih =>
    obtain ⟨⟨hline, -⟩, hlines⟩ := List.forall_mem_cons.mp hlines
    rintro ⟨a, b, heq⟩
    simp only [List.flatMap_cons, List.append_assoc, List.cons_append] at heq
    generalize hrest : lines.flatMap (fun line => line ++ [10]) = rest at heq ih
    -- the first line has no delimiter in it
    have hfront : ∃ m, m ++ 10 :: (includeSign ++ b) = 10 :: rest := by
      rcases List.append_eq_append_iff.mp heq with ⟨m, hm, htail⟩ | ⟨m, hm, htail⟩
      · cases m with
        | nil => exact ⟨[], htail⟩
        | cons c m =>
          obtain ⟨rfl, -⟩ := List.cons.inj htail
          exact absurd (by rw [hm]; simp) hline
      · exact ⟨m, htail.symm⟩
    obtain ⟨m, hm⟩ := hfront
    cases m with
    | nil =>
      -- the sign begins the next line
      obtain ⟨-, hsign⟩ := List.cons.inj hm
      cases lines with
      | nil =>
        rw [List.flatMap_nil] at hrest
        rw [← hrest] at hsign
        exact absurd (List.append_eq_nil_iff.mp hsign).1 (by decide)
      | cons next lines =>
        obtain ⟨⟨-, hnext⟩, -⟩ := List.forall_mem_cons.mp hlines
        rw [← hrest, List.flatMap_cons, List.append_assoc, List.singleton_append] at hsign
        exact hnext (List.isPrefixOf_iff_prefix.mpr (prefix_before not_mem_includeSign ⟨b, hsign⟩))
    | cons c m =>
      obtain ⟨-, hm⟩ := List.cons.inj hm
      exact ih hlines ⟨m, b, by rw [← hm]; simp⟩

theorem head_getlines {d : UInt8} {s line : Bytes} (h : (getlines d s).head? = some line) : line <+: s := by
  cases s with
  | nil => cases h
  | cons c s =>
    induction s generalizing c line with
    | nil =>
      rw [getlines] at h
      split_ifs at h
      · obtain rfl := Option.some.inj h
        exact List.nil_prefix
      · obtain rfl := Option.some.inj h
        exact List.prefix_rfl
    | cons c' s ih =>
      rw [getlines] at h
      split_ifs at h
      · obtain rfl := Option.some.inj h
        exact List.nil_prefix
      · cases hlines : getlines d (c' :: s) with
        | nil =>
          rw [hlines] at h
          obtain rfl := Option.some.inj h
          exact List.prefix_append [c] (c' :: s)
        | cons first lines =>
          rw [hlines] at h
          obtain rfl := Option.some.inj h
          exact List.cons_prefix_cons.mpr ⟨rfl, ih c' (by rw [hlines]; rfl)⟩

theorem tail_getlines {d : UInt8} {s line : Bytes} (h : line ∈ (getlines d s).tail) : d :: line <:+: s := by
  induction s generalizing line with
  | nil => cases h
  | cons c s ih =>
    rw [getlines] at h
    split_ifs at h with hc
    · subst hc
      cases hlines : getlines c s with
      | nil =>
        rw [hlines] at h
        cases h
      | cons first lines =>
        rw [hlines] at h ih
        obtain rfl | hline := List.mem_cons.mp h
        · have hfirst : line <+: s := head_getlines (d := c) (by rw [hlines]; rfl)
          exact (List.cons_prefix_cons.mpr ⟨rfl, hfirst⟩).isInfix
        · exact (ih hline).trans (List.suffix_cons c s).isInfix
    · cases hlines : getlines d s with
      | nil =>
        rw [hlines] at h
        cases h
      | cons first lines =>
        rw [hlines] at h ih
        exact (ih h).trans (List.suffix_cons c s).isInfix

theorem mem_getlines {d : UInt8} {s line : Bytes} (h : line ∈ getlines d s) : line <+: s ∨ d :: line <:+: s := by
  cases hlines : getlines d s with
  | nil =>
    rw [hlines] at h
    cases h
  | cons first lines =>
    rw [hlines] at h
    obtain rfl | hline := List.mem_cons.mp h
    · exact .inl (head_getlines (by rw [hlines]; rfl))
    · exact .inr (tail_getlines (by rw [hlines]; exact hline))

theorem flatMap_getlines {d : UInt8} {s : Bytes} (h : s = [] ∨ s.getLast? = some d) :
    (getlines d s).flatMap (fun line => line ++ [d]) = s := by
  induction s with
  | nil => rfl
  | cons c s ih =>
    have hrest : s ≠ [] → s.getLast? = some d := by
      intro hne
      obtain ⟨c', s', rfl⟩ := List.exists_cons_of_ne_nil hne
      simpa using h
    have ih := ih (by by_cases hs : s = [] <;> simp [hs, hrest])
    rw [getlines]
    split_ifs with hc
    · rw [List.flatMap_cons, ih, hc]
      rfl
    · have hs : s ≠ [] := by
        rintro rfl
        simp [hc] at h
      cases hlines : getlines d s with
      | nil =>
        rw [hlines] at ih
        exact absurd ih.symm hs
      | cons first lines =>
        rw [hlines] at ih
        rw [List.flatMap_cons] at ih ⊢
        rw [List.cons_append, List.cons_append, ih]

theorem lined_of {text : Bytes} (hend : text = [] ∨ text.getLast? = some 10) (hfront : ¬ includeSign <+: text)
    (hinner : ¬ 10 :: includeSign <:+: text) : Lined text := by
  refine ⟨getlines 10 text, (flatMap_getlines hend).symm,
    fun line hline => ⟨not_mem_of_mem_getlines hline, fun hsign => ?_⟩⟩
  have hsign := List.isPrefixOf_iff_prefix.mp hsign
  obtain hline | hline := mem_getlines hline
  · exact hfront (hsign.trans hline)
  · exact hinner ((List.cons_prefix_cons.mpr ⟨rfl, hsign⟩).isInfix.trans hline)

theorem not_infix_of_not_mem (h : 10 ∉ text) : ¬ 10 :: includeSign <:+: text :=
  fun hsign => h (hsign.subset List.mem_cons_self)

/-- An assignment as `statement_front` writes it. -/
theorem lined_statement {k t : Bytes} (hk : IsIdentifier k) (ht : ¬ 10 :: includeSign <:+: t) :
    Lined (k ++ ascii " = " ++ (t ++ ascii " #\n\n")) := by
  have hequals : ascii " = " = [32, 61] ++ [32] := by decide
  have hclosing : ascii " #\n\n" = 32 :: [35, 10, 10] := by decide
  obtain ⟨c, u, rfl, hc, hu⟩ := hk
  have hparts : c :: u ++ ascii " = " ++ (t ++ ascii " #\n\n") =
      (c :: u ++ [32, 61]) ++ 32 :: (t ++ 32 :: [35, 10, 10]) := by
    rw [hequals, hclosing]
    simp
  rw [hparts]
  refine lined_of (.inr (by simp [List.getLast?_cons])) ?_ ?_
  · rintro ⟨b, hsign⟩
    obtain ⟨rfl, -⟩ := List.cons.inj hsign
    cases hc
  · intro hsign
    have hblank : 32 ∉ 10 :: includeSign := by decide
    obtain hsign | hsign := infix_split hblank hsign
    · refine not_infix_of_not_mem ?_ hsign
      have hc' : 10 ≠ c := by
        rintro rfl
        cases hc
      have hu' : 10 ∉ u := fun hmem => absurd (hu 10 hmem) (by decide)
      simp [hc', hu']
    · obtain hsign | hsign := infix_split hblank hsign
      · exact ht hsign
      · exact absurd hsign.length_le (by decide)

variable {fuel : Nat} {chain : List Bytes} {base : Bytes} {x y : Expansion}

theorem preprocessLines_kept {expand : List Bytes → Bytes → Bytes → List Bytes → Option Expansion} {lines : List Bytes}
    (h : ∀ line ∈ lines, ¬ includeSign.isPrefixOf line = true) (hx : x.thrown = none) :
    lines.foldlM (preprocessLine read expand chain base) x =
      some { x with text := x.text ++ lines.flatMap fun line => line ++ [10] } := by
  induction lines generalizing x with
  | nil => simp
  | cons line lines ih =>
    obtain ⟨hline, hlines⟩ := List.forall_mem_cons.mp h
    have hkept : preprocessLine read expand chain base x line = some { x with text := x.text ++ line ++ [10] } :=
      (if_neg (by simp [hx])).trans (if_neg hline)
    rw [List.foldlM_cons, hkept]
    change lines.foldlM (preprocessLine read expand chain base) { x with text := x.text ++ line ++ [10] } = _
    rw [@ih { x with text := x.text ++ line ++ [10] } hlines hx]
    simp

theorem getlines_flatMap {lines : List Bytes} (h : ∀ line ∈ lines, 10 ∉ line) :
    getlines 10 (lines.flatMap fun line => line ++ [10]) = lines := by
  induction lines with
  | nil => rfl
  | cons line lines ih =>
    obtain ⟨hline, hlines⟩ := List.forall_mem_cons.mp h
    rw [List.flatMap_cons, List.append_assoc, List.singleton_append, getlines_append hline, ih hlines]

/-- A text without includes is parsed as it is. -/
theorem expand_lined (h : Lined text) (c : Config) (read : Bytes → Reading) (fuel : Nat) (path : Bytes) :
    c.expand read (fuel + 1) path text = some ⟨text, c.loadedFiles ++ [path], none, []⟩ := by
  obtain ⟨lines, rfl, hlines⟩ := h
  unfold Config.expand preprocess
  rw [getlines_flatMap fun line hline => (hlines line hline).1,
    preprocessLines_kept (fun line hline => (hlines line hline).2) rfl]
  rfl

/-- One line keeps it, when the files that are read do. -/
theorem preprocessLine_lined {n : Nat} {line : Bytes}
    (hfile : ∀ {chain content base loaded y}, preprocess read n chain content base loaded = some y → Lined y.text)
    (hline : 10 ∉ line) (hx : Lined x.text) (h : preprocessLine read (preprocess read n) chain base x line = some y) :
    Lined y.text := by
  unfold preprocessLine at h
  split_ifs at h with hthrown hsign
  · obtain rfl := Option.some.inj h
    exact hx
  · cases hname : includeFile line with
    | none =>
      rw [hname] at h
      obtain rfl := Option.some.inj h
      exact hx
    | some name =>
      rw [hname] at h
      dsimp only at h
      split_ifs at h
      · obtain rfl := Option.some.inj h
        exact hx
      · cases hread : read (join base name) with
        | closed | throws =>
          rw [hread] at h
          obtain rfl := Option.some.inj h
          exact hx
        | contents content =>
          rw [hread] at h
          obtain ⟨w, hw, rfl⟩ := Option.map_eq_some_iff.mp h
          exact hx.append (hfile hw)
  · obtain rfl := Option.some.inj h
    change Lined (x.text ++ line ++ [10])
    rw [List.append_assoc]
    exact hx.append (lined_line hline hsign)

/-- Whatever is read, what is parsed has no include any more. -/
theorem preprocess_lined {content : Bytes} {loaded : List Bytes}
    (h : preprocess read fuel chain content base loaded = some x) : Lined x.text := by
  induction fuel generalizing chain content base loaded x with
  | zero => cases h
  | succ n ih =>
    have hlines : ∀ {lines : List Bytes} {x y : Expansion}, (∀ line ∈ lines, 10 ∉ line) → Lined x.text →
        lines.foldlM (preprocessLine read (preprocess read n) chain base) x = some y → Lined y.text := by
      intro lines x y hwhole hx hy
      induction lines generalizing x with
      | nil =>
        obtain rfl := Option.some.inj hy
        exact hx
      | cons line lines ihl =>
        rw [List.foldlM_cons] at hy
        obtain ⟨z, hz, hy⟩ := Option.bind_eq_some_iff.mp hy
        obtain ⟨hline, hwhole⟩ := List.forall_mem_cons.mp hwhole
        exact ihl hwhole (preprocessLine_lined ih hline hx hz) hy
    exact hlines (fun line hline => not_mem_of_mem_getlines hline) lined_nil h

end Lined

end Passdoq.Runcom
