import Passdoq.Runcom.Language
import Mathlib

/-!
# The lines of a runcom file

* `parsePrl_true` : what `parse_prl` accepts, and the values it leaves;
* `LineLanguage` : the files made of lines that are blank, a comment or an assignment;
* `accepts_lines` : when `parse_prl` accepts exactly these files. A statement of the grammar ends with a comment and an
  empty line, so that a file of plain assignments is refused.
-/

namespace Passdoq.Runcom

open Peg

variable {content : Bytes} {values after : OrdMap Bytes Value}

/-! ## What is accepted -/

theorem parsePrl_true : (∃ fuel, parsePrl fuel content values = some (true, after)) ↔
    ∃ xs, Blocks content xs ∧ after = xs.foldl stored values := by
  constructor
  · rintro ⟨fuel, h⟩
    obtain ⟨o, ho, h⟩ := Option.map_eq_some_iff.mp h
    cases o with
    | ok r st =>
      obtain ⟨xs, hxs, rfl, rfl⟩ := grammar_ok.mp ⟨fuel, ho⟩
      exact ⟨xs, hxs, (Prod.mk.inj h).2.symm⟩
    | _ => cases (Prod.mk.inj h).1
  · rintro ⟨xs, hxs, rfl⟩
    obtain ⟨fuel, h⟩ := grammar_ok.mpr ⟨xs, hxs, rfl, rfl⟩
    exact ⟨fuel, Option.map_eq_some_iff.mpr ⟨_, h, rfl⟩⟩

theorem returns_true : Returns content values true ↔ ∃ xs, Blocks content xs := by
  constructor
  · rintro ⟨fuel, after, h⟩
    obtain ⟨xs, hxs, -⟩ := parsePrl_true.mp ⟨fuel, h⟩
    exact ⟨xs, hxs⟩
  · rintro ⟨xs, hxs⟩
    obtain ⟨fuel, h⟩ := parsePrl_true.mpr ⟨xs, hxs, rfl⟩
    exact ⟨fuel, _, h⟩

theorem Blocks.mem_comment {xs : List (Bytes × Value)} (h : Blocks content xs) : content = [] ∨ 35 ∈ content := by
  cases h with
  | nil => exact .inl rfl
  | cons hw hr => cases hw <;> simp

/-- A file with something in it and no comment is refused, or the parser does not come back from it. -/
theorem not_returns_of_no_comment (hne : content ≠ []) (h : 35 ∉ content) : ¬ Returns content values true := by
  intro hret
  obtain ⟨xs, hxs⟩ := returns_true.mp hret
  rcases hxs.mem_comment with rfl | hmem
  · exact hne rfl
  · exact h hmem

/-! ## The line language -/

/-- Spaces and tabs. -/
def Blank (w : Bytes) : Prop := ∀ c ∈ w, c = 32 ∨ c = 9

/-- An item of a list: a quoted string or a word. -/
inductive Item : Bytes → Prop
  | quoted {u : Bytes} (hu : 34 ∉ u ∧ 10 ∉ u) : Item (34 :: u ++ [34])
  | word {w : Bytes} (hne : w ≠ []) (hw : ∀ c ∈ w, isBare c ∧ c ≠ 34 ∧ c ≠ 44 ∧ c ≠ 91 ∧ c ≠ 93) : Item w

/-- Items with commas between. -/
inductive Items : Bytes → Prop
  | last {a w b : Bytes} (ha : Blank a) (hw : Item w) (hb : Blank b) : Items (a ++ w ++ b)
  | cons {a w b r : Bytes} (ha : Blank a) (hw : Item w) (hb : Blank b) (hr : Items r) : Items (a ++ w ++ b ++ 44 :: r)

/-- The text of a value: a list, a boolean, an integer in the range of `int64_t`, a quoted or an unquoted string. -/
inductive ValueText : Bytes → Prop
  | list {w : Bytes} (h : Items w) : ValueText (91 :: w ++ [93])
  | boolean {w : Bytes} (h : w ∈ booleans) : ValueText w
  | integer {w : Bytes} (h : IsInteger w) (hrange : (Action.stoll w).isSome) : ValueText w
  | quoted {u : Bytes} (hu : 34 ∉ u ∧ 10 ∉ u) : ValueText (34 :: u ++ [34])
  | unquoted {w : Bytes} (hne : w ≠ []) (hw : ∀ c ∈ w, isBare c) (hinteger : ¬ IsInteger w) : ValueText w

/-- The end of a line, in front of the newline: maybe a comment. -/
inductive Trailer : Bytes → Prop
  | none : Trailer []
  | comment {t : Bytes} (ht : 10 ∉ t) : Trailer (35 :: t)

/-- A line without its newline: nothing or an assignment, up to spaces and tabs, and maybe a comment. -/
inductive Line : Bytes → Prop
  | blank {w t : Bytes} (hw : Blank w) (ht : Trailer t) : Line (w ++ t)
  | assignment {w₁ k w₂ w₃ v w₄ t : Bytes} (hw₁ : Blank w₁) (hk : IsIdentifier k) (hw₂ : Blank w₂) (hw₃ : Blank w₃)
    (hv : ValueText v) (hw₄ : Blank w₄) (ht : Trailer t) : Line (w₁ ++ k ++ w₂ ++ 61 :: (w₃ ++ v ++ w₄ ++ t))

/-- A file made of such lines, each with its newline. -/
inductive LineLanguage : Bytes → Prop
  | nil : LineLanguage []
  | cons {l e r : Bytes} (hl : Line l) (he : e = [10] ∨ e = [13, 10]) (hr : LineLanguage r) : LineLanguage (l ++ e ++ r)

/-- `parse_prl` accepts a file exactly when it is made of such lines if and only if this agrees with the file being a
sequence of statements that each end with a comment and an empty line. -/
theorem accepts_lines (content : Bytes) (values : OrdMap Bytes Value) :
    (Returns content values true ↔ LineLanguage content) ↔ ((∃ xs, Blocks content xs) ↔ LineLanguage content) := by
  rw [returns_true]

/-- One assignment on a line of its own is refused. -/
theorem accepts_lines_plain : LineLanguage (ascii "key = value\n") ∧ Returns (ascii "key = value\n") OrdMap.empty false ∧
    ¬ Returns (ascii "key = value\n") OrdMap.empty true := by
  have hline : Line (ascii "key = value") := by
    have hkey : IsIdentifier (ascii "key") := ⟨107, ascii "ey", by decide +kernel, by decide, by decide +kernel⟩
    have hvalue : ValueText (ascii "value") := by
      refine .unquoted (by decide +kernel) (by decide +kernel) ?_
      rintro ⟨ds, hw, -, hds⟩
      have hhead : (ascii "value").head? = some 118 := by decide +kernel
      rcases hw with rfl | hw
      · exact absurd (hds 118 (List.mem_of_mem_head? hhead)) (by decide)
      · rw [hw] at hhead
        cases hhead
    have hblank : Blank [] ∧ Blank [32] := by simp [Blank]
    exact .assignment hblank.1 hkey hblank.2 hblank.2 hvalue hblank.1 .none
  have hfalse : (parsePrl 60 (ascii "key = value\n") OrdMap.empty).any fun x => x.1 = false := by decide +kernel
  obtain ⟨⟨b, values⟩, hx, hb⟩ := (Option.any_eq_true _ _).mp hfalse
  obtain rfl : b = false := of_decide_eq_true hb
  have hnone : ¬ Returns (ascii "key = value\n") OrdMap.empty true :=
    not_returns_of_no_comment (by decide +kernel) (by decide +kernel)
  refine ⟨?_, ⟨60, values, hx⟩, hnone⟩
  exact .cons hline (.inl rfl) .nil

end Passdoq.Runcom
