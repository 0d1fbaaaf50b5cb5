import Passdoq.Lib.PegScan
import Passdoq.Runcom.Grammar
import Mathlib

/-!
# The language that the runcom grammar accepts

* the tokens of the rules: `Spaces`, `CommentText`, `IsIdentifier`, `Quoted`, `Word`, `StringToken`, `IntegerToken`;
* `Reads w r v` : in front of `r` the text `w` is read as the value `v`;
* `listValue_cases` : the rule for lists has no match, it fails or does not end;
* `Statement w r x` : in front of `r` the text `w` is one statement, which assigns `x`;
* `Blocks` : the sequences of statements; `grammar_ok` : these are what the grammar matches.
-/

namespace Passdoq.Runcom

open Peg

/-! ## Tokens -/

def Spaces (w r : Bytes) : Prop := (∀ c ∈ w, isSpace c) ∧ Stops isSpace r

def CommentText (w r : Bytes) : Prop := ∃ t, w = 35 :: t ∧ ((∃ u, t = u ++ [10] ∧ 10 ∉ u) ∨ r = [] ∧ 10 ∉ t)

def IsIdentifier (w : Bytes) : Prop := ∃ c u, w = c :: u ∧ isIdentFirst c ∧ ∀ d ∈ u, isIdentOther d

def Quoted (w : Bytes) : Prop := ∃ u, w = 34 :: u ++ [34] ∧ 34 ∉ u

def Word (w r : Bytes) : Prop := w ≠ [] ∧ (∀ c ∈ w, isBare c) ∧ Stops isBare r

def StringToken (w r : Bytes) : Prop := Quoted w ∨ Absent (fun w _ => Quoted w) (w ++ r) ∧ Word w r

def IsInteger (w : Bytes) : Prop := ∃ ds, (w = ds ∨ w = 45 :: ds) ∧ ds ≠ [] ∧ ∀ c ∈ ds, Decimal.isDigit c

def IntegerToken (w r : Bytes) : Prop := IsInteger w ∧ Stops Decimal.isDigit r

def booleans : List Bytes := [ascii "true", ascii "false", ascii "yes", ascii "no", [49], [48]]

def BooleanToken (w _r : Bytes) : Prop := w ∈ booleans

theorem scans_ws : Scans ws Spaces := scans_star_byte

theorem scans_comment : Scans comment CommentText := by
  refine (scans_one.seq scans_upto_eolf).congr fun w r => ?_
  constructor
  · rintro ⟨_, t, rfl, rfl, h⟩
    exact ⟨t, rfl, h⟩
  · rintro ⟨t, rfl, h⟩
    exact ⟨[35], t, rfl, rfl, h⟩

theorem scans_identifier : Scans (seq (byte isIdentFirst) (star (byte isIdentOther)) : Peg ParseState) fun w r =>
    IsIdentifier w ∧ Stops isIdentOther r := by
  refine (scans_byte.seq scans_star_byte).congr fun w r => ?_
  constructor
  · rintro ⟨_, u, rfl, ⟨c, rfl, hc⟩, hu, hr⟩
    exact ⟨⟨c, u, rfl, hc, hu⟩, hr⟩
  · rintro ⟨⟨c, u, rfl, hc, hu⟩, hr⟩
    exact ⟨[c], u, rfl, ⟨c, rfl, hc⟩, hu, hr⟩

theorem scans_quotedString : Scans quotedString fun w _ => Quoted w := by
  refine (scans_one.seq scans_upto_one).congr fun w r => ?_
  constructor
  · rintro ⟨_, _, rfl, rfl, u, rfl, hu⟩
    exact ⟨u, rfl, hu⟩
  · rintro ⟨u, rfl, hu⟩
    exact ⟨[34], u ++ [34], rfl, rfl, u, rfl, hu⟩

theorem scans_string : Scans (sor quotedString unquotedString) StringToken := scans_quotedString.sor scans_plus_byte

theorem scans_integer : Scans (seq (opt (one 45)) (plus (byte Decimal.isDigit)) : Peg ParseState) IntegerToken := by
  refine (scans_one.opt.seq scans_plus_byte).congr fun w r => ?_
  constructor
  · rintro ⟨w₁, ds, rfl, rfl | ⟨-, rfl⟩, hne, hds, hr⟩
    · exact ⟨⟨ds, .inr rfl, hne, hds⟩, hr⟩
    · exact ⟨⟨ds, .inl rfl, hne, hds⟩, hr⟩
  · rintro ⟨⟨ds, rfl | rfl, hne, hds⟩, hr⟩
    · refine ⟨[], w, rfl, .inr ⟨?_, rfl⟩, hne, hds, hr⟩
      rintro _ r' hi rfl
      obtain ⟨d, w, rfl⟩ := List.exists_cons_of_ne_nil hne
      obtain ⟨rfl, -⟩ := List.cons.inj hi
      exact absurd (hds 45 (by simp)) (by decide)
    · exact ⟨[45], ds, rfl, .inl rfl, hne, hds, hr⟩

theorem scans_boolean : Scans (sor (str (ascii "true")) (sor (str (ascii "false")) (sor (str (ascii "yes"))
    (sor (str (ascii "no")) (sor (one 49) (one 48))))) : Peg ParseState) BooleanToken := by
  have hzero : Scans (one 48 : Peg ParseState) fun w _ => w ∈ [[48]] := scans_one.congr fun w _ => by simp
  have hdigits := Scans.sor_literal [49] scans_one hzero (by decide)
  have hno := Scans.sor_literal (ascii "no") scans_str hdigits (by decide)
  have hyes := Scans.sor_literal (ascii "yes") scans_str hno (by decide)
  have hfalse := Scans.sor_literal (ascii "false") scans_str hyes (by decide)
  exact Scans.sor_literal (ascii "true") scans_str hfalse (by decide)

/-! ## Values -/

/-- What the action of a value does with it: a text waits in `currentString` for the end of the assignment. -/
def Value.give (v : Value) (st : ParseState) : ParseState :=
  if v.type = .string then { st with currentString := v.stringValue } else st.assign v

/-- No item stands behind the bracket that `i` may begin with. -/
def Listless (i : Bytes) : Prop := ∀ w j, i = 91 :: (w ++ j) → Spaces w j → Absent StringToken j

/-- In front of `r` the text `w` is read as the value `v`. -/
inductive Reads (w r : Bytes) : Value → Prop
  | boolean (h : BooleanToken w r) : Reads w r (.fromBool (w = ascii "true" ∨ w = ascii "yes" ∨ w = ascii "1"))
  | integer {i : Int} (hboolean : Absent BooleanToken (w ++ r)) (h : IntegerToken w r) (hi : Action.stoll w = some i) :
    Reads w r (.fromInt i)
  | string (hlist : Listless (w ++ r)) (hboolean : Absent BooleanToken (w ++ r)) (hinteger : Absent IntegerToken (w ++ r))
    (h : StringToken w r) : Reads w r (.fromString (Action.unquote w))

section Value

variable {i r : Bytes} {s s' : ParseState} {o : Outcome ParseState}

theorem stringValue_cases (h : Yields stringValue i s o) :
    (∃ w r s', i = w ++ r ∧ StringToken w r ∧ Action.stringValue w s = some s' ∧ o = .ok r s') ∨
    Absent StringToken i ∧ o = .fail s := by
  obtain ⟨w, r, hi, hw, ho⟩ | habs := scans_string.act_cases h
  · exact .inl ⟨w, r, _, hi, hw, rfl, ho⟩
  · exact .inr habs

/-- A list with an item is never read to its end: what repeats between the items matches the empty text. -/
theorem not_yields_items : ¬ Yields (star (seq (pad (one 44) ws) listItem)) i s o := by
  intro h
  obtain ⟨x, hx, -⟩ := yields_star.mp h
  obtain ⟨y, hy, -⟩ := yields_seq.mp hx
  obtain ⟨z, hz, -⟩ := yields_seq.mp hy
  refine not_yields_star (fun i s => ?_) hz
  obtain ⟨w, r, rfl, hw⟩ := exists_run isSpace i
  exact ⟨r, s, scans_ws.ok w r s hw⟩

/-- `ws` always matches. -/
theorem ws_cases (h : Yields ws i s o) : ∃ w r, i = w ++ r ∧ Spaces w r ∧ o = .ok r s := by
  obtain hmatch | ⟨habs, -⟩ := scans_ws.cases h
  · exact hmatch
  · obtain ⟨w, r, hi, hw⟩ := exists_run isSpace i
    exact absurd hw (habs w r hi)

theorem listItem_cases (h : Yields listItem i s o) :
    (∃ r s', o = .ok r s') ∨ o = .fail s ∧ ∀ w j, i = w ++ j → Spaces w j → Absent StringToken j := by
  obtain ⟨x, hx, h⟩ := yields_seq.mp h
  obtain ⟨w, j, rfl, hw, rfl⟩ := ws_cases hx
  obtain ⟨y, hy, h⟩ := yields_seq.mp h
  obtain ⟨t, r, s', rfl, ht, -, rfl⟩ | ⟨habs, rfl⟩ := stringValue_cases hy
  · obtain ⟨w', r', rfl, -, rfl⟩ := ws_cases h
    exact .inl ⟨r', s', rfl⟩
  · refine .inr ⟨h, fun w' j' hsplit hw' => ?_⟩
    obtain ⟨-, rfl⟩ := scans_ws.unique s hw hw' hsplit
    exact habs

/-- `list_value` never matches: behind an item it does not end. -/
theorem listValue_cases (h : Yields listValue i s o) : o = .fail s ∧ Listless i := by
  obtain ⟨x, hx, h⟩ := yields_act.mp h
  obtain ⟨y, hy, hx⟩ := yields_seq.mp hx
  obtain ⟨_, j, rfl, rfl, rfl⟩ | ⟨habs, rfl⟩ := scans_one.cases hy
  · obtain ⟨z, hz, hx⟩ := yields_seq.mp hx
    obtain ⟨u, hu, hz⟩ := yields_seq.mp hz
    obtain ⟨r', s', rfl⟩ | ⟨rfl, hnone⟩ := listItem_cases hu
    · exact absurd hz not_yields_items
    · obtain rfl := hz
      obtain rfl := hx
      refine ⟨h, fun w j' hsplit => hnone w j' (List.cons.inj hsplit).2⟩
  · obtain rfl := hx
    exact ⟨h, fun w j hsplit => absurd rfl (habs [91] (w ++ j) hsplit)⟩

theorem yields_listValue_fail (h : Listless i) : Yields listValue i s (.fail s) := by
  refine yields_act.mpr ⟨.fail s, ?_, rfl⟩
  by_cases hi : i.head? = some 91
  · obtain ⟨j, rfl⟩ := List.head?_eq_some_iff.mp hi
    obtain ⟨w, j, rfl, hw⟩ := exists_run isSpace j
    have hstring : Yields stringValue j s (.fail s) := scans_string.act_fail (h w j rfl hw)
    have hitem : Yields listItem (w ++ j) s (.fail s) :=
      yields_seq.mpr ⟨_, scans_ws.ok w j s hw, yields_seq.mpr ⟨_, hstring, rfl⟩⟩
    refine yields_seq.mpr ⟨_, scans_one.ok [91] (w ++ j) s rfl, yields_seq.mpr ⟨.fail s, ?_, rfl⟩⟩
    exact yields_seq.mpr ⟨_, hitem, rfl⟩
  · refine yields_seq.mpr ⟨.fail s, scans_one.fail i s ?_, rfl⟩
    rintro _ r rfl rfl
    exact hi rfl

theorem integer_cases (hkey : s.currentKey ≠ []) (h : Yields integer i s o) :
    (∃ w r, i = w ++ r ∧ IntegerToken w r ∧ o = match Action.stoll w with
      | some n => .ok r (s.assign (.fromInt n))
      | none => .thrown s) ∨ Absent IntegerToken i ∧ o = .fail s := by
  obtain ⟨w, r, hi, hw, ho⟩ | habs := scans_integer.act_cases h
  · refine .inl ⟨w, r, hi, hw, ?_⟩
    rw [ho, Action.integer, if_neg hkey]
    cases Action.stoll w <;> rfl
  · exact .inr habs

theorem boolean_cases (hkey : s.currentKey ≠ []) (h : Yields boolean i s o) :
    (∃ w r, i = w ++ r ∧ BooleanToken w r ∧
      o = .ok r (s.assign (.fromBool (w = ascii "true" ∨ w = ascii "yes" ∨ w = ascii "1")))) ∨
    Absent BooleanToken i ∧ o = .fail s := by
  obtain ⟨w, r, hi, hw, ho⟩ | habs := scans_boolean.act_cases h
  · refine .inl ⟨w, r, hi, hw, ?_⟩
    rw [ho, Action.boolean, if_neg hkey]
  · exact .inr habs

theorem listless_of_head (h : i.head? ≠ some 91) : Listless i := fun _ _ hi => absurd (hi ▸ rfl) h

theorem BooleanToken.listless {w : Bytes} (h : BooleanToken w r) : Listless (w ++ r) := by
  have hhead : ∀ w ∈ booleans, w ≠ [] ∧ w.head? ≠ some 91 := by decide
  obtain ⟨hne, hw⟩ := hhead w h
  refine listless_of_head ?_
  rw [List.head?_append_of_ne_nil _ hne]
  exact hw

theorem IsInteger.listless {w : Bytes} (h : IsInteger w) : Listless (w ++ r) := by
  obtain ⟨ds, hw, hne, hds⟩ := h
  obtain ⟨d, ds, rfl⟩ := List.exists_cons_of_ne_nil hne
  refine listless_of_head ?_
  rcases hw with rfl | rfl
  · intro hd
    obtain rfl := Option.some.inj hd
    exact absurd (hds 91 (by simp)) (by decide)
  · simp

/-- A value that is read. -/
theorem value_ok (hkey : s.currentKey ≠ []) (hlist : s.inList = false) :
    Yields value i s (.ok r s') ↔ ∃ w v, i = w ++ r ∧ Reads w r v ∧ s' = v.give s := by
  constructor
  · intro h
    obtain ⟨x, hx, h⟩ := yields_sor.mp h
    obtain ⟨rfl, hlistless⟩ := listValue_cases hx
    obtain ⟨x, hx, h⟩ := yields_sor.mp h
    obtain ⟨w, r', rfl, hw, rfl⟩ | ⟨hboolean, rfl⟩ := boolean_cases hkey hx
    · obtain ⟨rfl, rfl⟩ := Outcome.ok.inj h
      exact ⟨w, _, rfl, .boolean hw, rfl⟩
    obtain ⟨x, hx, h⟩ := yields_sor.mp h
    obtain ⟨w, r', rfl, hw, rfl⟩ | ⟨hinteger, rfl⟩ := integer_cases hkey hx
    · cases hi : Action.stoll w with
      | none =>
        rw [hi] at h
        cases h
      | some n =>
        rw [hi] at h
        obtain ⟨rfl, rfl⟩ := Outcome.ok.inj h
        exact ⟨w, _, rfl, .integer hboolean hw hi, rfl⟩
    obtain ⟨w, r', s'', rfl, hw, hs, ho⟩ | ⟨-, ho⟩ := stringValue_cases h
    · obtain ⟨rfl, rfl⟩ := Outcome.ok.inj ho
      refine ⟨w, _, rfl, .string hlistless hboolean hinteger hw, ?_⟩
      simpa [Action.stringValue, hlist, Value.give, Value.fromString, eq_comm] using hs
    · cases ho
  · rintro ⟨w, v, rfl, hv, rfl⟩
    cases hv with
    | boolean hw =>
      refine yields_sor.mpr ⟨_, yields_listValue_fail hw.listless, yields_sor.mpr ⟨_, scans_boolean.act_ok hw ?_, rfl⟩⟩
      rw [Action.boolean, if_neg hkey]
      rfl
    | integer hboolean hw hi =>
      refine yields_sor.mpr ⟨_, yields_listValue_fail hw.1.listless, ?_⟩
      refine yields_sor.mpr ⟨_, scans_boolean.act_fail hboolean, yields_sor.mpr ⟨_, scans_integer.act_ok hw ?_, rfl⟩⟩
      rw [Action.integer, if_neg hkey, hi]
      rfl
    | string hlistless hboolean hinteger hw =>
      refine yields_sor.mpr ⟨_, yields_listValue_fail hlistless, yields_sor.mpr ⟨_, scans_boolean.act_fail hboolean, ?_⟩⟩
      refine yields_sor.mpr ⟨_, scans_integer.act_fail hinteger, scans_string.act_ok hw ?_⟩
      simp [Action.stringValue, hlist, Value.give, Value.fromString]

end Value

/-! ## Statements -/

/-- What an assignment of `v` to `k` leaves in the values: an empty string is not assigned. -/
def stored (values : OrdMap Bytes Value) (x : Bytes × Value) : OrdMap Bytes Value :=
  if x.2 = .fromString [] then values else values.insert x.1 x.2

/-- In front of `r` the text `w` assigns `x.2` to `x.1`. -/
inductive Assigns : Bytes → Bytes → Bytes × Value → Prop
  | mk {k w₁ w₂ t r : Bytes} {v : Value} (hk : IsIdentifier k) (hw₁ : ∀ c ∈ w₁, isSpace c) (hw₂ : Spaces w₂ (t ++ r))
    (hv : Reads t r v) : Assigns (k ++ (w₁ ++ 61 :: (w₂ ++ t))) r (k, v)

/-- In front of `r` the text `w` is one statement: maybe an assignment, then a comment, then an empty line. -/
inductive Statement : Bytes → Bytes → List (Bytes × Value) → Prop
  | comment {w t e r : Bytes} (hw : ∀ c ∈ w, isSpace c) (ht : 10 ∉ t) (he : e = [10] ∨ e = [13, 10]) :
    Statement (w ++ 35 :: (t ++ 10 :: e)) r []
  | assignment {w₁ a w₂ t e r : Bytes} {x : Bytes × Value} (hw₁ : ∀ c ∈ w₁, isSpace c)
    (ha : Assigns a (w₂ ++ 35 :: (t ++ 10 :: (e ++ r))) x) (hw₂ : ∀ c ∈ w₂, isSpace c) (ht : 10 ∉ t)
    (he : e = [10] ∨ e = [13, 10]) : Statement (w₁ ++ (a ++ (w₂ ++ 35 :: (t ++ 10 :: e)))) r [x]

/-- A sequence of statements, with what they assign. -/
inductive Blocks : Bytes → List (Bytes × Value) → Prop
  | nil : Blocks [] []
  | cons {w r : Bytes} {x xs : List (Bytes × Value)} (h : Statement w r x) (hr : Blocks r xs) : Blocks (w ++ r) (x ++ xs)

section Statement

variable {i r : Bytes} {s s' : ParseState} {o : Outcome ParseState} {values : OrdMap Bytes Value}

theorem identifier_cases (h : Yields identifier i s o) :
    (∃ k r, i = k ++ r ∧ IsIdentifier k ∧ Stops isIdentOther r ∧ o = .ok r { s with currentKey := k }) ∨
    Absent (fun w r => IsIdentifier w ∧ Stops isIdentOther r) i ∧ o = .fail s := by
  obtain ⟨k, r, hi, ⟨hk, hr⟩, ho⟩ | habs := scans_identifier.act_cases h
  · exact .inl ⟨k, r, hi, hk, hr, ho⟩
  · exact .inr habs

theorem IsIdentifier.ne_nil {k : Bytes} (hk : IsIdentifier k) : k ≠ [] := by
  obtain ⟨c, u, rfl, -⟩ := hk
  simp

theorem not_identOther_of_isSpace {c : UInt8} (h : isSpace c) : isIdentOther c = false := by
  simp only [isSpace, Decimal.isSpace, isIdentOther, isIdentFirst, isLetter, Decimal.isDigit] at h ⊢
  grind

theorem not_isSpace_of_identFirst {c : UInt8} (h : isIdentFirst c) : isSpace c = false := by
  simp only [isSpace, Decimal.isSpace, isIdentFirst, isLetter] at h ⊢
  grind

/-- The end of an assignment, from the state that a statement starts with. -/
theorem assignment_give {k t : Bytes} {v : Value} (hv : Reads t r v) (hk : k ≠ []) (w : Bytes) :
    Action.assignment w (v.give { ParseState.start values with currentKey := k }) = some (.start (stored values (k, v))) := by
  unfold Action.assignment Value.give stored
  cases hv with
  | boolean h => simp [Value.fromBool, Value.fromString, ParseState.start, ParseState.assign]
  | integer hboolean h hi => simp [Value.fromInt, Value.fromString, ParseState.start, ParseState.assign]
  | string hlist hboolean hinteger h =>
    by_cases hu : Action.unquote t = []
    · simp [hu, Value.fromString, ParseState.start]
    · simp [hu, hk, Value.fromString, ParseState.start, ParseState.assign]

theorem assignment_ok : Yields assignment i (.start values) (.ok r s') ↔
    ∃ a x, i = a ++ r ∧ Assigns a r x ∧ s' = .start (stored values x) := by
  constructor
  · intro h
    obtain ⟨x, hx, h⟩ := yields_act.mp h
    obtain ⟨y, hy, hx⟩ := yields_seq.mp hx
    obtain ⟨k, j, rfl, hk, hj, rfl⟩ | ⟨-, rfl⟩ := identifier_cases hy
    · obtain ⟨y, hy, hx⟩ := yields_seq.mp hx
      obtain ⟨w₁, j, rfl, hw₁, rfl⟩ := ws_cases hy
      obtain ⟨y, hy, hx⟩ := yields_seq.mp hx
      obtain ⟨_, j, rfl, rfl, rfl⟩ | ⟨-, rfl⟩ := scans_one.cases hy
      · obtain ⟨y, hy, hx⟩ := yields_seq.mp hx
        obtain ⟨w₂, j, rfl, hw₂, rfl⟩ := ws_cases hy
        cases x with
        | ok r' s'' =>
          obtain ⟨t, v, rfl, hv, rfl⟩ := (value_ok hk.ne_nil rfl).mp hx
          rw [Outcome.thenOk_ok, assignment_give hv hk.ne_nil] at h
          obtain ⟨rfl, rfl⟩ := Outcome.ok.inj h
          exact ⟨_, (k, v), by simp, .mk hk hw₁.1 hw₂ hv, rfl⟩
        | _ => cases h
      · obtain rfl := hx
        cases h
    · obtain rfl := hx
      cases h
  · rintro ⟨_, _, rfl, @⟨k, w₁, w₂, t, _, v, hk, hw₁, hw₂, hv⟩, rfl⟩
    have hkey : Stops isIdentOther (w₁ ++ 61 :: (w₂ ++ (t ++ r))) :=
      stops_append (fun c hc => not_identOther_of_isSpace (hw₁ c hc)) (stops_cons (by decide))
    have hequal : Spaces w₁ (61 :: (w₂ ++ (t ++ r))) := ⟨hw₁, stops_cons (by decide)⟩
    have hid : Yields identifier (k ++ (w₁ ++ 61 :: (w₂ ++ (t ++ r)))) (.start values)
        (.ok (w₁ ++ 61 :: (w₂ ++ (t ++ r))) { ParseState.start values with currentKey := k }) :=
      scans_identifier.act_ok ⟨hk, hkey⟩ rfl
    refine yields_act.mpr ⟨.ok r (v.give { ParseState.start values with currentKey := k }), ?_, ?_⟩
    · simp only [List.append_assoc, List.cons_append]
      refine yields_seq.mpr ⟨_, hid, yields_seq.mpr ⟨_, scans_ws.ok _ _ _ hequal, ?_⟩⟩
      refine yields_seq.mpr ⟨_, scans_one.ok [61] _ _ rfl, yields_seq.mpr ⟨_, scans_ws.ok _ _ _ hw₂, ?_⟩⟩
      exact (value_ok hk.ne_nil rfl).mpr ⟨t, v, rfl, hv, rfl⟩
    · rw [Outcome.thenOk_ok, assignment_give hv hk.ne_nil]

/-- An assignment that fails has done nothing, or it stands at an identifier. -/
theorem assignment_fail (h : Yields assignment i s (.fail s')) : s' = s ∨ ∃ c j, i = c :: j ∧ isIdentFirst c := by
  obtain ⟨x, hx, h⟩ := yields_act.mp h
  obtain ⟨y, hy, hx⟩ := yields_seq.mp hx
  obtain ⟨k, j, rfl, ⟨c, u, rfl, hc, -⟩, -⟩ | ⟨-, rfl⟩ := identifier_cases hy
  · exact .inr ⟨c, u ++ j, rfl, hc⟩
  · obtain rfl := hx
    exact .inl (Outcome.fail.inj h)

theorem yields_assignment_fail {j : Bytes} : Yields assignment (35 :: j) s (.fail s) := by
  refine yields_act.mpr ⟨.fail s, yields_seq.mpr ⟨.fail s, scans_identifier.act_fail ?_, rfl⟩, rfl⟩
  rintro _ r hi ⟨⟨c, u, rfl, hc, -⟩, -⟩
  obtain ⟨rfl, -⟩ := List.cons.inj hi
  cases hc

theorem Assigns.stops_isSpace {a : Bytes} {x : Bytes × Value} (h : Assigns a r x) : Stops isSpace (a ++ i) := by
  obtain ⟨⟨c, u, rfl, hc, -⟩, -, -, -⟩ := h
  exact stops_cons (not_isSpace_of_identFirst hc)

/-- What closes a statement: blanks, a comment and, directly behind it, an empty line. -/
def Closing (w _r : Bytes) : Prop :=
  ∃ u t e, w = u ++ 35 :: (t ++ 10 :: e) ∧ (∀ c ∈ u, isSpace c) ∧ 10 ∉ t ∧ (e = [10] ∨ e = [13, 10])

theorem scans_closing : Scans (seq ws (seq (opt comment) eol)) Closing := by
  refine (scans_ws.seq (scans_comment.opt.seq scans_eol)).congr fun w r => ?_
  constructor
  · rintro ⟨u, _, rfl, hu, c, e, rfl, hc | ⟨-, rfl⟩, he⟩
    · obtain ⟨t, rfl, ⟨v, rfl, hv⟩ | ⟨hnil, -⟩⟩ := hc
      · exact ⟨u, v, e, by simp, hu.1, hv, he⟩
      · rcases he with rfl | rfl <;> cases hnil
    · -- the blanks before would have taken the line end
      rcases he with rfl | rfl
      · exact absurd (hu.2 10 rfl) (by decide)
      · exact absurd (hu.2 13 rfl) (by decide)
  · rintro ⟨u, t, e, rfl, hu, ht, he⟩
    refine ⟨u, 35 :: (t ++ 10 :: e), rfl, ⟨hu, stops_cons (by decide)⟩, 35 :: (t ++ [10]), e, by simp, .inl ?_, he⟩
    exact ⟨t ++ [10], rfl, .inl ⟨t, rfl, ht⟩⟩

theorem statement_ok : Yields statement i (.start values) (.ok r s') ↔
    ∃ w x, i = w ++ r ∧ Statement w r x ∧ s' = .start (x.foldl stored values) := by
  constructor
  · intro h
    obtain ⟨x, hx, h⟩ := yields_seq.mp h
    obtain ⟨w₁, j, rfl, hw₁, rfl⟩ := ws_cases hx
    obtain ⟨x, hx, h⟩ := yields_seq.mp h
    obtain ⟨y, hy, hx⟩ := yields_sor.mp hx
    cases y with
    | ok r' s'' =>
      obtain ⟨a, x, rfl, ha, rfl⟩ := assignment_ok.mp hy
      obtain rfl := hx
      obtain ⟨rfl, _, rfl, u, t, e, rfl, hu, ht, he⟩ := scans_closing.of_ok h
      refine ⟨w₁ ++ (a ++ (u ++ 35 :: (t ++ 10 :: e))), [x], by simp, ?_, rfl⟩
      refine .assignment hw₁.1 ?_ hu ht he
      simpa using ha
    | fail s'' =>
      obtain rfl := yields_eps.mp hx
      obtain ⟨rfl, _, rfl, u, t, e, rfl, hu, ht, he⟩ := scans_closing.of_ok h
      obtain rfl | ⟨c, j, hj, hc⟩ := assignment_fail hy
      · refine ⟨(w₁ ++ u) ++ 35 :: (t ++ 10 :: e), [], by simp, .comment ?_ ht he, rfl⟩
        intro c hc
        obtain hc | hc := List.mem_append.mp hc
        · exact hw₁.1 c hc
        · exact hu c hc
      · -- an assignment has begun here, so that no closing can follow
        exfalso
        cases u with
        | nil =>
          obtain ⟨rfl, -⟩ := List.cons.inj hj
          cases hc
        | cons d u =>
          obtain ⟨rfl, -⟩ := List.cons.inj hj
          have hspace := hu d (by simp)
          rw [not_isSpace_of_identFirst hc] at hspace
          cases hspace
    | thrown s'' =>
      obtain rfl := hx
      cases h
  · rintro ⟨w, x, rfl, hw, rfl⟩
    cases hw with
    | @comment w t e _ hw ht he =>
      have hws : Spaces w (35 :: (t ++ 10 :: e) ++ r) := ⟨hw, stops_cons (by decide)⟩
      have hclosing : Closing (35 :: (t ++ 10 :: e)) r := ⟨[], t, e, rfl, by simp, ht, he⟩
      have hnone : Yields (opt assignment) (35 :: (t ++ 10 :: e) ++ r) (.start values)
          (.ok (35 :: (t ++ 10 :: e) ++ r) (.start values)) :=
        yields_sor.mpr ⟨_, yields_assignment_fail, yields_eps.mpr rfl⟩
      rw [List.append_assoc]
      exact yields_seq.mpr ⟨_, scans_ws.ok _ _ _ hws, yields_seq.mpr ⟨_, hnone, scans_closing.ok _ _ _ hclosing⟩⟩
    | @assignment w₁ a w₂ t e _ x hw₁ ha hw₂ ht he =>
      have hclosing : Closing (w₂ ++ 35 :: (t ++ 10 :: e)) r := ⟨w₂, t, e, rfl, hw₂, ht, he⟩
      have hws : Spaces w₁ (a ++ (w₂ ++ 35 :: (t ++ 10 :: e) ++ r)) := ⟨hw₁, ha.stops_isSpace⟩
      have hassigned : Yields (opt assignment) (a ++ (w₂ ++ 35 :: (t ++ 10 :: e) ++ r)) (.start values)
          (.ok (w₂ ++ 35 :: (t ++ 10 :: e) ++ r) (.start (stored values x))) := by
        refine yields_sor.mpr ⟨_, assignment_ok.mpr ⟨a, x, rfl, ?_, rfl⟩, rfl⟩
        simpa using ha
      rw [List.append_assoc, List.append_assoc]
      exact yields_seq.mpr ⟨_, scans_ws.ok _ _ _ hws, yields_seq.mpr ⟨_, hassigned, scans_closing.ok _ _ _ hclosing⟩⟩

theorem Statement.ne_nil {w : Bytes} {x : List (Bytes × Value)} (h : Statement w r x) : w ≠ [] := by
  cases h <;> simp

/-- The grammar matches the sequences of statements, to the end of the input. -/
theorem grammar_ok : Yields grammar i (.start values) (.ok r s') ↔
    ∃ xs, Blocks i xs ∧ r = [] ∧ s' = .start (xs.foldl stored values) := by
  constructor
  · intro h
    induction hlen : i.length using Nat.strongRecOn generalizing i values with
    | ind n ih =>
      obtain ⟨x, hx, h⟩ := yields_upto.mp h
      obtain ⟨_, j, rfl, ⟨rfl, rfl⟩, rfl⟩ | ⟨-, rfl⟩ := scans_eof.cases hx
      · obtain ⟨rfl, rfl⟩ := Outcome.ok.inj h
        exact ⟨[], .nil, rfl, rfl⟩
      · obtain ⟨y, hy, h⟩ := h
        cases y with
        | ok j s'' =>
          obtain ⟨w, x, rfl, hw, rfl⟩ := statement_ok.mp hy
          have hshort : j.length < n := by
            have := List.length_pos_of_ne_nil hw.ne_nil
            simp only [List.length_append] at hlen
            omega
          obtain ⟨xs, hxs, rfl, rfl⟩ := ih j.length hshort h rfl
          exact ⟨x ++ xs, .cons hw hxs, rfl, by rw [List.foldl_append]⟩
        | _ => cases h
  · rintro ⟨xs, hxs, rfl, rfl⟩
    induction hxs generalizing values with
    | nil => exact yields_upto.mpr ⟨_, scans_eof.ok [] [] _ ⟨rfl, rfl⟩, rfl⟩
    | @cons w r x xs hw hr ih =>
      have heof : Absent (fun w r => w = [] ∧ r = []) (w ++ r) := by
        rintro _ _ hi ⟨rfl, rfl⟩
        exact hw.ne_nil (List.append_eq_nil_iff.mp hi).1
      rw [List.foldl_append]
      exact yields_upto.mpr ⟨_, scans_eof.fail _ _ heof, _, statement_ok.mpr ⟨w, x, rfl, hw, rfl⟩, ih⟩

end Statement

end Passdoq.Runcom
