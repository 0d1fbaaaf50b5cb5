import Passdoq.Cli.Application

/-!
# Tags as they are typed and shown

The loop over the tags in `cmd_add` and the one in `print_entry`.

* `erase`, `findFirstNotOf`, `findLastNotOf` : the string operations that `trim` stands for (`trim_eq`);
* `Stripped piece tag` : the tag is the piece without the blanks at both ends;
* `splitTags_eq` : the tags are the stripped pieces between the commas, apart from the empty ones;
* `printTags` : what is shown of the tags; `splitTags_printTags` : it is read back as these tags.
-/

namespace Passdoq.Cli

/-! ## Trimming on positions -/

/-- `std::string::npos`. -/
def npos : Nat := 2 ^ 64 - 1

/-- `s.erase(pos, n)`. -/
def erase (s : Bytes) (pos n : Nat) : Bytes := s.take pos ++ s.drop (pos + n)

/-- `s.find_first_not_of(" \t")`. -/
def findFirstNotOf (s : Bytes) : Nat :=
  if s.all isBlank then npos else (s.takeWhile isBlank).length

/-- `s.find_last_not_of(" \t")`. -/
def findLastNotOf (s : Bytes) : Nat :=
  if s.all isBlank then npos else (s.rdropWhile isBlank).length - 1

/-- The two calls of `erase`; a position is a 64-bit number, and `npos + 1` is 0. -/
def eraseBlanks (tag : Bytes) : Bytes :=
  let tag := erase tag 0 (findFirstNotOf tag)
  erase tag ((findLastNotOf tag + 1) % 2 ^ 64) npos

variable {s tag piece : Bytes}

theorem erase_front (hlen : s.length ≤ npos) : erase s 0 (findFirstNotOf s) = s.dropWhile isBlank := by
  unfold erase findFirstNotOf
  rw [List.take_zero, List.nil_append, Nat.zero_add]
  split_ifs with hall
  · rw [List.dropWhile_eq_nil_iff.mpr (List.all_eq_true.mp hall), List.drop_eq_nil_iff]
    exact hlen
  · have hsplit := List.takeWhile_append_dropWhile (p := isBlank) (l := s)
    nth_rewrite 2 [← hsplit]
    exact List.drop_left

theorem erase_back (hlen : s.length ≤ npos) :
    erase s ((findLastNotOf s + 1) % 2 ^ 64) npos = s.rdropWhile isBlank := by
  unfold erase findLastNotOf
  have hnone : ∀ k, s.drop (k + npos) = [] := by
    intro k
    rw [List.drop_eq_nil_iff]
    omega
  rw [hnone, List.append_nil]
  split_ifs with hall
  · rw [List.rdropWhile_eq_nil_iff.mpr (List.all_eq_true.mp hall)]
    show s.take 0 = []
    exact List.take_zero
  · have hprefix := List.rdropWhile_prefix isBlank (l := s)
    have hle := hprefix.length_le
    have hpos : 0 < (s.rdropWhile isBlank).length := by
      rw [List.length_pos_iff]
      intro hnil
      exact hall (List.all_eq_true.mpr (List.rdropWhile_eq_nil_iff.mp hnil))
    have hmod : ((s.rdropWhile isBlank).length - 1 + 1) % 2 ^ 64 = (s.rdropWhile isBlank).length := by
      unfold npos at hlen
      omega
    rw [hmod]
    exact (List.prefix_iff_eq_take.mp hprefix).symm

/-- On a string that is no longer than strings can be, `trim` is what the two calls leave. -/
theorem trim_eq (hlen : tag.length ≤ npos) : eraseBlanks tag = trim tag := by
  have hdrop : (tag.dropWhile isBlank).length ≤ npos := (List.dropWhile_suffix isBlank).length_le.trans hlen
  unfold eraseBlanks trim
  rw [erase_front hlen, erase_back hdrop]

/-! ## Splitting -/

/-- The byte string neither begins nor ends with a blank. -/
structure Bare (tag : Bytes) : Prop where
  front : ∀ c ∈ tag.head?, ¬ isBlank c
  back : ∀ c ∈ tag.getLast?, ¬ isBlank c

/-- The tag is the piece without the blanks at both ends. -/
structure Stripped (piece tag : Bytes) : Prop where
  around : ∃ before after, piece = before ++ tag ++ after ∧ (∀ c ∈ before, isBlank c) ∧ ∀ c ∈ after, isBlank c
  bare : Bare tag

theorem stripped_trim (piece : Bytes) : Stripped piece (trim piece) where
  around := by
    refine ⟨piece.takeWhile isBlank, (piece.dropWhile isBlank).rtakeWhile isBlank, ?_, ?_, ?_⟩
    · unfold trim
      rw [List.append_assoc, List.rdropWhile_append_rtakeWhile, List.takeWhile_append_dropWhile]
    · intro c hc
      exact List.mem_takeWhile_imp hc
    · intro c hc
      exact List.mem_rtakeWhile_imp hc
  bare := by
    have hback : ∀ c ∈ (trim piece).getLast?, ¬ isBlank c := by
      intro c hc
      obtain ⟨hne, rfl⟩ := List.mem_getLast?_eq_getLast hc
      exact List.rdropWhile_last_not isBlank _ hne
    refine ⟨fun c hc => ?_, hback⟩
    -- the front of what is left is the front of what the first call has left
    have hprefix := List.rdropWhile_prefix isBlank (l := piece.dropWhile isBlank)
    have hhead : c ∈ (piece.dropWhile isBlank).head? := by
      obtain ⟨t, ht⟩ := hprefix
      have hc : c ∈ ((piece.dropWhile isBlank).rdropWhile isBlank).head? := hc
      rw [← ht, List.head?_append]
      simp only [Option.mem_def] at hc ⊢
      rw [hc]
      rfl
    intro hblank
    have hnot := List.head?_dropWhile_not isBlank piece
    rw [Option.mem_def.mp hhead] at hnot
    simp [hblank] at hnot

theorem Stripped.trim_eq (h : Stripped piece tag) : trim piece = tag := by
  obtain ⟨before, after, rfl, hbefore, hafter⟩ := h.around
  unfold trim
  by_cases hnil : tag = []
  · subst hnil
    have hall : (before ++ [] ++ after).all isBlank = true := by
      rw [List.append_nil, List.all_eq_true]
      intro c hc
      rcases List.mem_append.mp hc with hc | hc
      · exact hbefore c hc
      · exact hafter c hc
    rw [List.dropWhile_eq_nil_iff.mpr (List.all_eq_true.mp hall)]
    rfl
  · have hdrop : (before ++ tag ++ after).dropWhile isBlank = tag ++ after := by
      obtain ⟨c, t, rfl⟩ := List.exists_cons_of_ne_nil hnil
      have hc := h.bare.front c rfl
      rw [List.append_assoc, List.dropWhile_append_of_pos hbefore, List.cons_append, List.dropWhile_cons_of_neg hc]
    have hlast : tag.rdropWhile isBlank = tag := by
      rw [List.rdropWhile_eq_self_iff]
      intro hne
      exact h.bare.back _ (List.getLast?_eq_some_getLast hne)
    have happend : (tag ++ after).rdropWhile isBlank = tag.rdropWhile isBlank := by
      unfold List.rdropWhile
      rw [List.reverse_append, List.dropWhile_append_of_pos]
      exact fun c hc => hafter c (List.mem_reverse.mp hc)
    rw [hdrop, happend, hlast]

/-- The tags are the stripped pieces between the commas, apart from the empty ones. -/
theorem splitTags_eq (input : Bytes) :
    splitTags input = ((input.splitOn 44).map trim).filter fun tag => tag ≠ [] := by
  unfold splitTags
  rcases splitOn_getlines 44 input with h | h
  · rw [h]
  · rw [h, List.map_append, List.filter_append]
    have hempty : ([[]].map trim).filter (fun tag => tag ≠ []) = [] := by decide
    rw [hempty, List.append_nil]

/-- A stored tag is not empty, has no comma and is bare. -/
structure IsTag (tag : Bytes) : Prop where
  nonempty : tag ≠ []
  plain : 44 ∉ tag
  bare : Bare tag

theorem isTag_splitTags {input : Bytes} (h : tag ∈ splitTags input) : IsTag tag := by
  obtain ⟨hmem, hne⟩ := List.mem_filter.mp h
  obtain ⟨piece, hpiece, rfl⟩ := List.mem_map.mp hmem
  refine ⟨of_decide_eq_true hne, fun hcomma => ?_, (stripped_trim piece).bare⟩
  obtain ⟨before, after, hsplit, -⟩ := (stripped_trim piece).around
  apply not_mem_of_mem_getlines hpiece
  rw [hsplit]
  simp [hcomma]

/-! ## Printing -/

/-- The loop over the tags in `print_entry`. -/
def printTags (tags : List Bytes) : Bytes :=
  (tags.mapIdx fun i tag => if i < tags.length - 1 then tag ++ ascii ", " else tag).flatten

theorem printTags_cons (tag next : Bytes) (tags : List Bytes) :
    printTags (tag :: next :: tags) = tag ++ 44 :: 32 :: printTags (next :: tags) := by
  have hcomma : ascii ", " = [44, 32] := by decide +kernel
  unfold printTags
  rw [List.mapIdx_cons, List.flatten_cons]
  simp [hcomma]

theorem IsTag.trim_eq (h : IsTag tag) : trim tag = tag := by
  apply Stripped.trim_eq
  exact ⟨⟨[], [], by simp, by simp, by simp⟩, h.bare⟩

/-- What is shown of some tags has these between its commas. -/
theorem splitOn_printTags {tags : List Bytes} (h : ∀ tag ∈ tags, IsTag tag) (hne : tags ≠ []) :
    ((printTags tags).splitOn 44).map trim = tags := by
  induction tags with
  | nil => exact absurd rfl hne
  | cons tag tags ih =>
    have htag := h tag List.mem_cons_self
    cases tags with
    | nil =>
      have hone : printTags [tag] = tag := by simp [printTags]
      rw [hone, List.splitOn_eq_singleton htag.plain, List.map_singleton, htag.trim_eq]
    | cons next tags =>
      have hrest := ih (fun t ht => h t (List.mem_cons_of_mem tag ht)) (List.cons_ne_nil next tags)
      -- the blank behind the comma goes to the next tag, and is trimmed
      have hblank : ((32 :: printTags (next :: tags)).splitOn 44).map trim = next :: tags := by
        rw [List.splitOn_cons_eq_if_modifyHead, if_neg (by decide)]
        refine Eq.trans ?_ hrest
        cases (printTags (next :: tags)).splitOn 44 with
        | nil => rfl
        | cons piece pieces => rfl
      rw [printTags_cons, List.splitOn_append_cons_self_of_not_mem htag.plain, List.map_cons, hblank, htag.trim_eq]

theorem splitTags_printTags {tags : List Bytes} (h : ∀ tag ∈ tags, IsTag tag) : splitTags (printTags tags) = tags := by
  by_cases hne : tags = []
  · rw [hne]
    rfl
  · rw [splitTags_eq, splitOn_printTags h hne, List.filter_eq_self]
    intro tag htag
    exact decide_eq_true (h tag htag).nonempty

/-- The tags of an input are its stripped pieces that are not empty; each is a tag that can be stored; and what is shown of
them is read back as the same tags. -/
theorem tags_normalised (input : Bytes) :
    (∃ pieces, List.Forall₂ Stripped (input.splitOn 44) pieces ∧ splitTags input = pieces.filter fun tag => tag ≠ []) ∧
    (∀ tag ∈ splitTags input, IsTag tag) ∧ splitTags (printTags (splitTags input)) = splitTags input := by
  refine ⟨⟨(input.splitOn 44).map trim, ?_, splitTags_eq input⟩, fun tag => isTag_splitTags, ?_⟩
  · rw [List.forall₂_map_right_iff, List.forall₂_same]
    exact fun piece _ => stripped_trim piece
  · exact splitTags_printTags fun tag => isTag_splitTags

end Passdoq.Cli
