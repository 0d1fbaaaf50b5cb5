import Passdoq.Runcom.Failure
import Passdoq.Runcom.Literals

/-!
# Contents that are accepted

* `Parses content values after` : `parse_prl` accepts the content and leaves these values;
* `Blocks.unique` : the assignments of a content are determined by it;
* `nothing_lost_iff` : the last assignment to every key wins exactly when no empty string is assigned last;
* `Blocks.append` : what a content assigns it also assigns in front of another, unless it leaves a quote open that the
  other one closes;
* `parse_append` : parsing two contents one after the other.
-/

namespace Passdoq.Runcom

open Peg

variable {content k t r : Bytes} {values after : OrdMap Bytes Value} {v : Value} {xs ys : List (Bytes × Value)}

def Parses (content : Bytes) (values after : OrdMap Bytes Value) : Prop :=
  ∃ fuel, parsePrl fuel content values = some (true, after)

theorem parses_iff : Parses content values after ↔ ∃ xs, Blocks content xs ∧ after = xs.foldl stored values :=
  parsePrl_true

/-! ## The assignments of a content -/

/-- The value that the action of a value has left in a state without values. -/
def given (k : Bytes) (s : ParseState) : Value :=
  match s.values.find? k with
  | some v => v
  | none => .fromString s.currentString

theorem Reads.given (h : Reads t r v) : given k (v.give { ParseState.start ∅ with currentKey := k }) = v := by
  cases h with
  | boolean h => simp [Value.give, Value.fromBool, Runcom.given, ParseState.assign, ParseState.start]
  | integer hboolean h hi => simp [Value.give, Value.fromInt, Runcom.given, ParseState.assign, ParseState.start]
  | string hlist hboolean hinteger h => simp [Value.give, Value.fromString, Runcom.given, ParseState.start]

theorem Reads.unique {t' r' : Bytes} {v' : Value} (h : Reads t r v) (h' : Reads t' r' v') (hsplit : t ++ r = t' ++ r') :
    t = t' ∧ v = v' := by
  have hkey : ({ ParseState.start ∅ with currentKey := [97] } : ParseState).currentKey ≠ [] := by simp
  have hok := (value_ok hkey rfl).mpr ⟨t, v, rfl, h, rfl⟩
  have hok' := (value_ok hkey rfl).mpr ⟨t', v', rfl, h', rfl⟩
  rw [hsplit] at hok
  obtain ⟨rfl, hgive⟩ := Outcome.ok.inj (hok.unique hok')
  refine ⟨List.append_cancel_right hsplit, ?_⟩
  rw [← h.given (k := [97]), hgive, h'.given]

theorem Assigns.unique {a a' r' : Bytes} {x x' : Bytes × Value} (h : Assigns a r x) (h' : Assigns a' r' x')
    (hsplit : a ++ r = a' ++ r') : a = a' ∧ x = x' := by
  cases h with
  | @mk k w₁ w₂ t _ v hk hw₁ hw₂ hv =>
    have hparts : a' ++ r' = k ++ (w₁ ++ 61 :: (w₂ ++ (t ++ r))) := by simpa using hsplit.symm
    obtain ⟨hkey, w₂', t', rfl, hrest, hw₂', hv'⟩ := h'.parts hk hw₁ hparts
    obtain ⟨rfl, htoken⟩ := scans_ws.unique (.start ∅) hw₂ hw₂' hrest
    obtain ⟨rfl, hvalue⟩ := hv.unique hv' htoken
    exact ⟨rfl, Prod.ext hkey.symm hvalue⟩

theorem Statement.yields {w : Bytes} {x : List (Bytes × Value)} (h : Statement w r x) (values : OrdMap Bytes Value) :
    Yields statement (w ++ r) (.start values) (.ok r (.start (x.foldl stored values))) :=
  statement_ok.mpr ⟨w, x, rfl, h, rfl⟩

theorem Statement.unique {w w' r' : Bytes} {x x' : List (Bytes × Value)} (h : Statement w r x) (h' : Statement w' r' x')
    (hsplit : w ++ r = w' ++ r') : w = w' ∧ x = x' := by
  have hok := h.yields ∅
  rw [hsplit] at hok
  obtain ⟨rfl, -⟩ := Outcome.ok.inj (hok.unique (h'.yields ∅))
  have hsame := List.append_cancel_right hsplit
  refine ⟨hsame, ?_⟩
  -- behind the blanks stands a comment sign or the first letter of a key
  have hapart : ∀ {u u' j a : Bytes} {x : Bytes × Value} {i : Bytes}, (∀ c ∈ u, isSpace c) → (∀ c ∈ u', isSpace c) →
      Assigns a i x → u ++ 35 :: j ≠ u' ++ (a ++ i) := by
    intro u u' j a x i hu hu' ha hsplit
    obtain ⟨rfl, hrest⟩ := scans_ws.unique (.start ∅) ⟨hu, stops_cons (by decide)⟩ ⟨hu', ha.stops_isSpace⟩ hsplit
    obtain ⟨⟨c, v, rfl, hc, -⟩, -, -, -⟩ := ha
    obtain ⟨rfl, -⟩ := List.cons.inj hrest
    cases hc
  cases h with
  | @comment u t e _ hu ht he =>
    cases h' with
    | comment hu' ht' he' => rfl
    | @assignment w₁ a w₂ t' e' _ x' hw₁ ha hw₂ ht' he' =>
      refine absurd (congrArg (· ++ r) hsame) ?_
      have hne := hapart (j := t ++ 10 :: (e ++ r)) hu hw₁ ha
      simpa using hne
  | @assignment w₁ a w₂ t e _ x hw₁ ha hw₂ ht he =>
    cases h' with
    | @comment u t' e' _ hu ht' he' =>
      refine absurd (congrArg (· ++ r) hsame.symm) ?_
      have hne := hapart (j := t' ++ 10 :: (e' ++ r)) hu hw₁ ha
      simpa using hne
    | @assignment w₁' a' w₂' t' e' _ x' hw₁' ha' hw₂' ht' he' =>
      have hboth : w₁ ++ (a ++ (w₂ ++ 35 :: (t ++ 10 :: (e ++ r)))) =
          w₁' ++ (a' ++ (w₂' ++ 35 :: (t' ++ 10 :: (e' ++ r)))) := by
        simpa using congrArg (· ++ r) hsame
      obtain ⟨rfl, hrest⟩ := scans_ws.unique (.start ∅) ⟨hw₁, ha.stops_isSpace⟩ ⟨hw₁', ha'.stops_isSpace⟩ hboth
      obtain ⟨-, rfl⟩ := ha.unique ha' hrest
      rfl

theorem Blocks.unique (h : Blocks content xs) (h' : Blocks content ys) : xs = ys := by
  induction h generalizing ys with
  | nil =>
    generalize hnil : ([] : Bytes) = content at h'
    cases h' with
    | nil => rfl
    | cons hw hr => exact absurd (List.append_eq_nil_iff.mp hnil.symm).1 hw.ne_nil
  | @cons w r x xs hw hr ih =>
    generalize hcontent : w ++ r = content at h'
    cases h' with
    | nil => exact absurd (List.append_eq_nil_iff.mp hcontent).1 hw.ne_nil
    | @cons w' r' x' xs' hw' hr' =>
      obtain ⟨rfl, rfl⟩ := hw.unique hw' hcontent
      obtain rfl := List.append_cancel_left hcontent
      rw [ih hr']

/-! ## The last assignment -/

/-- The value of the last assignment to `k`. -/
def lastValue (k : Bytes) : List (Bytes × Value) → Option Value
  | [] => none
  | x :: xs => (lastValue k xs).or (if x.1 = k then some x.2 else none)

/-- Every key that is assigned holds the value of its last assignment, and the others hold what they held. -/
def LastWins (xs : List (Bytes × Value)) (values after : OrdMap Bytes Value) : Prop :=
  ∀ k, after.find? k = (lastValue k xs).or (values.find? k)

/-- No assignment of an accepted content is lost. -/
def NothingLost (content : Bytes) (values : OrdMap Bytes Value) : Prop :=
  ∀ xs after, Blocks content xs → Parses content values after → LastWins xs values after

/-- A key to which an empty string is assigned last held the empty string, and is assigned nothing else. -/
def EmptyHarmless (xs : List (Bytes × Value)) (values : OrdMap Bytes Value) : Prop :=
  ∀ k, lastValue k xs = some (.fromString []) →
    (∀ x ∈ xs, x.1 = k → x.2 = .fromString []) ∧ values.find? k = some (.fromString [])

def effective (xs : List (Bytes × Value)) : List (Bytes × Value) := xs.filter fun x => x.2 ≠ .fromString []

theorem find?_assigned : (assigned xs).find? k = lastValue k (effective xs) := by
  induction xs with
  | nil => rfl
  | cons x xs ih =>
    have hcons : assigned (x :: xs) = xs.foldl stored (stored ∅ x) := rfl
    rw [hcons, find?_foldl_stored, ih]
    unfold effective stored
    by_cases hx : x.2 = .fromString []
    · simp [hx]
    · simp [hx, lastValue, OrdMap.find?_insert, eq_comm]

theorem lastValue_none : lastValue k xs = none ↔ ∀ x ∈ xs, x.1 ≠ k := by
  induction xs with
  | nil => simp [lastValue]
  | cons x xs ih =>
    rw [lastValue, Option.or_eq_none_iff, ih, List.forall_mem_cons]
    split_ifs with hx <;> simp [hx]

theorem lastValue_mem (h : lastValue k xs = some v) : (k, v) ∈ xs := by
  induction xs with
  | nil => cases h
  | cons x xs ih =>
    rw [lastValue, Option.or_eq_some_iff] at h
    rcases h with h | ⟨-, h⟩
    · exact List.mem_cons_of_mem x (ih h)
    · split_ifs at h with hx
      obtain rfl := Option.some.inj h
      subst hx
      exact List.mem_cons_self

theorem lastValue_effective (h : lastValue k xs = some v) (hv : v ≠ .fromString []) :
    lastValue k (effective xs) = some v := by
  induction xs with
  | nil => cases h
  | cons x xs ih =>
    have hcons : effective (x :: xs) = if x.2 ≠ .fromString [] then x :: effective xs else effective xs := by
      simp [effective, List.filter_cons]
    rw [hcons]
    rw [lastValue, Option.or_eq_some_iff] at h
    rcases h with h | ⟨hnone, h⟩
    · split_ifs
      · rw [lastValue, ih h, Option.some_or]
      · exact ih h
    · split_ifs at h with hx
      obtain rfl := Option.some.inj h
      have hrest : lastValue k (effective xs) = none :=
        lastValue_none.mpr fun y hy => lastValue_none.mp hnone y (List.mem_of_mem_filter hy)
      rw [if_pos hv, lastValue, hrest, if_pos hx, Option.none_or]

theorem lastValue_effective_ne : lastValue k (effective xs) ≠ some (.fromString []) := by
  intro h
  have hmem := List.of_mem_filter (lastValue_mem h)
  simp at hmem

theorem lastValue_effective_none : lastValue k (effective xs) = none ↔ ∀ x ∈ xs, x.1 = k → x.2 = .fromString [] := by
  rw [lastValue_none]
  constructor
  · intro h x hx hk
    by_contra hne
    exact h x (List.mem_filter.mpr ⟨hx, by simpa using hne⟩) hk
  · intro h x hx hk
    have hne := (List.mem_filter.mp hx).2
    simp [h x (List.mem_of_mem_filter hx) hk] at hne

theorem lastWins_iff : LastWins xs values (xs.foldl stored values) ↔ EmptyHarmless xs values := by
  refine forall_congr' fun k => ?_
  rw [find?_foldl_stored, find?_assigned]
  cases hlast : lastValue k xs with
  | none =>
    have hnone : lastValue k (effective xs) = none :=
      lastValue_effective_none.mpr fun x hx hk => absurd hk (lastValue_none.mp hlast x hx)
    simp [hnone]
  | some v =>
    by_cases hv : v = .fromString []
    · subst hv
      rw [← lastValue_effective_none]
      cases heff : lastValue k (effective xs) with
      | none => simp
      | some v =>
        have hne : v ≠ .fromString [] := fun hv => lastValue_effective_ne (hv ▸ heff)
        simp [hne]
    · simp [lastValue_effective hlast hv, hv]

/-- In an accepted content the last assignment to every key wins exactly when an empty string is assigned last only to a key
that held it, and to which nothing else is assigned. -/
theorem nothing_lost_iff (content : Bytes) (values : OrdMap Bytes Value) :
    NothingLost content values ↔ ∀ xs, Blocks content xs → EmptyHarmless xs values := by
  constructor
  · intro h xs hxs
    exact lastWins_iff.mp (h xs _ hxs (parses_iff.mpr ⟨xs, hxs, rfl⟩))
  · intro h xs after hxs hparses
    obtain ⟨xs', hxs', rfl⟩ := parses_iff.mp hparses
    obtain rfl := hxs.unique hxs'
    exact lastWins_iff.mpr (h xs hxs)

theorem absent_of_head {T : Bytes → Bytes → Prop} {c : UInt8} {j : Bytes} (hT : ∀ w r, T w r → w ≠ [] ∧ w.head? ≠ some c) :
    Absent T (c :: j) := by
  intro w r hi hw
  obtain ⟨hne, hhead⟩ := hT w r hw
  obtain ⟨d, u, rfl⟩ := List.exists_cons_of_ne_nil hne
  obtain ⟨rfl, -⟩ := List.cons.inj hi
  exact hhead rfl

theorem BooleanToken.head {w : Bytes} (h : BooleanToken w r) : w ≠ [] ∧ w.head? ≠ some 34 ∧ 35 ∉ w := by
  have hhead : ∀ w ∈ booleans, w ≠ [] ∧ w.head? ≠ some 34 ∧ 35 ∉ w := by decide
  exact hhead w h

theorem IsInteger.head {w : Bytes} (h : IsInteger w) : w ≠ [] ∧ w.head? ≠ some 34 ∧ 35 ∉ w := by
  have hbare := h.isBare
  have hhash : 35 ∉ w := fun hmem => by cases hbare 35 hmem
  obtain ⟨ds, hw, hne, hds⟩ := h
  obtain ⟨d, ds, rfl⟩ := List.exists_cons_of_ne_nil hne
  rcases hw with rfl | rfl
  · refine ⟨hne, fun hd => ?_, hhash⟩
    obtain rfl := Option.some.inj hd
    exact absurd (hds 34 (by simp)) (by decide)
  · exact ⟨by simp, by simp, hhash⟩

theorem absent_quoted_of_head (h : t.head? ≠ some 34) (hne : t ≠ []) : Absent (fun w _ => Quoted w) (t ++ r) := by
  obtain ⟨c, t, rfl⟩ := List.exists_cons_of_ne_nil hne
  rintro _ r' hi ⟨u, rfl, -⟩
  obtain ⟨rfl, -⟩ := List.cons.inj hi
  exact h rfl

theorem unquote_quoted (u : Bytes) : Action.unquote (34 :: u ++ [34]) = u := by
  unfold Action.unquote
  rw [if_pos ⟨rfl, by simp [List.getLast?_cons]⟩]
  simp

theorem unquote_of_head (h : t.head? ≠ some 34) : Action.unquote t = t := by
  unfold Action.unquote
  rw [if_neg fun hq => h hq.1]

theorem reads_quoted {u : Bytes} (hu : 34 ∉ u) (r : Bytes) : Reads (34 :: (u ++ [34])) r (.fromString u) := by
  have hread : Reads (34 :: (u ++ [34])) r (.fromString (Action.unquote (34 :: (u ++ [34])))) := by
    refine .string (listless_of_head (by simp)) ?_ ?_ (.inl ⟨u, rfl, hu⟩)
    · exact absent_of_head fun w r h => ⟨h.head.1, h.head.2.1⟩
    · exact absent_of_head fun w r h => ⟨h.1.head.1, h.1.head.2.1⟩
  have hunquote : Action.unquote (34 :: (u ++ [34])) = u := unquote_quoted u
  rwa [hunquote] at hread

/-- An assignment with one blank around the equals sign, a comment behind it and an empty line. -/
theorem statement_front (hk : IsIdentifier k) (hv : Reads t (32 :: 35 :: 10 :: 10 :: r) v)
    (hstops : Stops isSpace (t ++ 32 :: 35 :: 10 :: 10 :: r)) :
    Statement (k ++ ascii " = " ++ (t ++ ascii " #\n\n")) r [(k, v)] := by
  have hequals : ascii " = " = [32, 61, 32] := by decide
  have hclosing : ascii " #\n\n" = [32, 35, 10, 10] := by decide
  have hblank : ∀ c ∈ ([32] : Bytes), isSpace c := by simp [isSpace, Decimal.isSpace]
  have hvalue : Assigns (k ++ ([32] ++ 61 :: ([32] ++ t))) ([32] ++ 35 :: ([] ++ 10 :: ([10] ++ r))) (k, v) :=
    .mk hk hblank ⟨hblank, hstops⟩ hv
  have hnone : ∀ c ∈ ([] : Bytes), isSpace c := by simp
  have hstatement := Statement.assignment hnone hvalue hblank (by simp) (.inl rfl)
  rw [hequals, hclosing]
  simpa using hstatement

theorem statement_of_reads (hk : IsIdentifier k) {v : Value} (hv : ∀ r, Reads t (32 :: 35 :: 10 :: r) v)
    (ht : ∀ c ∈ t.head?, isSpace c = false) (r : Bytes) :
    Statement (k ++ ascii " = " ++ (t ++ ascii " #\n\n")) r [(k, v)] := by
  obtain ⟨c, u, rfl⟩ := List.exists_cons_of_ne_nil (hv []).ne_nil
  exact statement_front hk (hv (10 :: r)) (stops_cons (ht c rfl))

theorem statement_quoted {u : Bytes} (hk : IsIdentifier k) (hu : 34 ∉ u) (r : Bytes) :
    Statement (k ++ ascii " = " ++ 34 :: (u ++ 34 :: ascii " #\n\n")) r [(k, .fromString u)] := by
  have hstatement := statement_of_reads hk (fun r => reads_quoted hu (32 :: 35 :: 10 :: r)) (by simp; decide) r
  simpa using hstatement

/-- The empty string is not assigned, so that the key is not there. -/
theorem nothing_lost_iff_empty : ¬ NothingLost (ascii "key = \"\" #\n\n") ∅ := by
  have hcontent : ascii "key = \"\" #\n\n" = ascii "key" ++ ascii " = " ++ 34 :: ([] ++ 34 :: ascii " #\n\n") ++ [] := by
    decide +kernel
  have hblocks : Blocks (ascii "key = \"\" #\n\n") ([(ascii "key", .fromString [])] ++ []) := by
    rw [hcontent]
    exact .cons (statement_quoted identifier_key (by simp) []) .nil
  intro hlost
  have hwins := hlost _ _ hblocks (parses_iff.mpr ⟨_, hblocks, rfl⟩) (ascii "key")
  simp [lastValue, stored] at hwins

/-! ## One content in front of another -/

/-- Behind some statements an assignment begins whose value opens a quote that is not closed. -/
inductive Unclosed : Bytes → Prop
  | here {w₁ k w₂ w₃ j : Bytes} (hw₁ : ∀ c ∈ w₁, isSpace c) (hk : IsIdentifier k) (hw₂ : ∀ c ∈ w₂, isSpace c)
      (hw₃ : ∀ c ∈ w₃, isSpace c) (hj : 34 ∉ j) : Unclosed (w₁ ++ (k ++ (w₂ ++ 61 :: (w₃ ++ 34 :: j))))
  | later {w r : Bytes} {x : List (Bytes × Value)} (h : Statement w r x) (hr : Unclosed r) : Unclosed (w ++ r)

theorem prefix_before {c : UInt8} {b i j : Bytes} (hb : c ∉ b) (h : b <+: i ++ c :: j) : b <+: i := by
  obtain hp | ⟨u, rfl⟩ := List.prefix_or_prefix_of_prefix h (List.prefix_append i (c :: j))
  · exact hp
  · cases u with
    | nil => simp
    | cons d u =>
      obtain ⟨u', hu⟩ := (List.prefix_append_right_inj i).mp h
      obtain ⟨rfl, -⟩ := List.cons.inj hu
      simp at hb

theorem infix_split {c : UInt8} {l i j : Bytes} (hc : c ∉ l) (h : l <:+: i ++ c :: j) : l <:+: i ∨ l <:+: j := by
  obtain ⟨a, b, heq⟩ := h
  rw [List.append_assoc] at heq
  rcases List.append_eq_append_iff.mp heq with ⟨m, rfl, htail⟩ | ⟨m, rfl, htail⟩
  · have hfront : l <+: m := prefix_before hc ⟨b, htail⟩
    exact .inl (hfront.isInfix.trans (List.suffix_append a m).isInfix)
  · cases m with
    | nil =>
      cases l with
      | nil => exact .inl List.nil_infix
      | cons d l =>
        obtain ⟨rfl, -⟩ := List.cons.inj htail
        exact absurd List.mem_cons_self hc
    | cons d m =>
      have hrest : m ++ (l ++ b) = j := (List.cons.inj htail).2.symm
      exact .inr ⟨m, b, by rw [← hrest, List.append_assoc]⟩

section Extend

variable {i j B : Bytes}

/-- Tokens that stop in front of a comment sign, and look at one byte behind them, do not depend on what is appended. -/
theorem absent_extend {T : Bytes → Bytes → Prop} (hT : ∀ w r, T w r → 35 ∉ w)
    (hlocal : ∀ w c r r', T w (c :: r) → T w (c :: r')) (habs : Absent T (i ++ 35 :: j)) :
    Absent T (i ++ 35 :: (j ++ B)) := by
  intro w r hi hw
  obtain ⟨u, rfl⟩ := prefix_before (hT w r hw) ⟨r, hi.symm⟩
  have hr : r = u ++ 35 :: (j ++ B) := by
    rw [List.append_assoc] at hi
    exact (List.append_cancel_left hi).symm
  subst hr
  cases u with
  | nil => exact habs w (35 :: j) (by simp) (hlocal w 35 _ _ hw)
  | cons c u => exact habs w (c :: u ++ 35 :: j) (by simp) (hlocal w c _ _ hw)

theorem stringToken_head {w : Bytes} (h : StringToken w r) : w ≠ [] ∧ w.head? ≠ some 35 := by
  rcases h with ⟨u, rfl, -⟩ | ⟨-, hne, hw, -⟩
  · simp
  · refine ⟨hne, fun hhead => ?_⟩
    have hbare := hw 35 (List.mem_of_mem_head? hhead)
    cases hbare

/-- Where a comment sign is ahead, only that sign can stand where no string does. -/
theorem listless_extend (h : Listless (i ++ 35 :: j)) : Listless (i ++ 35 :: (j ++ B)) := by
  intro w u hi hw
  cases i with
  | nil =>
    obtain ⟨hc, -⟩ := List.cons.inj hi
    cases hc
  | cons c i =>
    obtain ⟨rfl, hi⟩ := List.cons.inj hi
    obtain ⟨w', u', hsplit, hw'⟩ := exists_run isSpace (i ++ 35 :: j)
    have habs := h w' u' (by rw [List.cons_append, hsplit]) hw'
    have hu' : ∃ v, u' = 35 :: v := by
      cases u' with
      | nil =>
        -- the comment sign is no blank
        have hmem : (35 : UInt8) ∈ w' := by
          rw [List.append_nil] at hsplit
          rw [← hsplit]
          simp
        exact absurd (hw'.1 35 hmem) (by decide)
      | cons d v =>
        by_contra hne
        have hd : d ≠ 35 := fun hd => hne ⟨v, by rw [hd]⟩
        obtain ⟨t, r, ht, htoken⟩ := exists_stringToken (j := v) (isBare_of_not_isSpace (hw'.2 d rfl) hd)
        exact habs t r ht htoken
    obtain ⟨v, rfl⟩ := hu'
    have hlong : w' ++ 35 :: (v ++ B) = w ++ u := by
      have happend := congrArg (· ++ B) hsplit
      simp only [List.append_assoc, List.cons_append] at happend
      rw [← happend]
      exact (List.cons.inj hi).2
    have hw'' : Spaces w' (35 :: (v ++ B)) := ⟨hw'.1, stops_cons (by decide)⟩
    obtain ⟨-, rfl⟩ := scans_ws.unique (.start ∅) hw'' hw hlong
    exact absent_of_head fun w r h => stringToken_head h

/-- What is appended changes no value, unless it closes a quote. -/
theorem Reads.extend (h : Reads t (i ++ 35 :: j) v)
    (hquote : ∀ u, t ++ (i ++ 35 :: j) = 34 :: u → 34 ∉ u → 34 ∉ B) : Reads t (i ++ 35 :: (j ++ B)) v := by
  have hnumber : ∀ w r, IntegerToken w r → 35 ∉ w := fun w r h => h.1.head.2.2
  have hlocal : ∀ w c r r', IntegerToken w (c :: r) → IntegerToken w (c :: r') := fun w c r r' h => ⟨h.1, h.2.swap⟩
  have hstops : ∀ {p : UInt8 → Bool}, Stops p (i ++ 35 :: j) → Stops p (i ++ 35 :: (j ++ B)) := by
    intro p hp
    cases i with
    | nil => exact hp.swap
    | cons c i => exact hp.swap
  have hboolean : Absent BooleanToken (t ++ (i ++ 35 :: j)) → Absent BooleanToken (t ++ (i ++ 35 :: (j ++ B))) := by
    rw [← List.append_assoc, ← List.append_assoc]
    exact absent_extend (fun w r h => h.head.2.2) fun w c r r' h => h
  cases h with
  | boolean h => exact .boolean h
  | integer habs h hi => exact .integer (hboolean habs) ⟨h.1, hstops h.2⟩ hi
  | string hlist habs hinteger h =>
    have hlist' : Listless (t ++ (i ++ 35 :: (j ++ B))) := by
      rw [← List.append_assoc] at hlist ⊢
      exact listless_extend hlist
    have hinteger' : Absent IntegerToken (t ++ (i ++ 35 :: (j ++ B))) := by
      rw [← List.append_assoc] at hinteger ⊢
      exact absent_extend hnumber hlocal hinteger
    refine .string hlist' (hboolean habs) hinteger' ?_
    rcases h with hquoted | ⟨hnone, hne, hw, hr⟩
    · exact .inl hquoted
    · refine .inr ⟨?_, hne, hw, hstops hr⟩
      intro q r' hi hq
      obtain ⟨u, rfl, hu⟩ := hq
      obtain ⟨c, t, rfl⟩ := List.exists_cons_of_ne_nil hne
      obtain ⟨rfl, hrest⟩ := List.cons.inj hi
      by_cases hmem : 34 ∈ t ++ (i ++ 35 :: j)
      · -- the quote was closed already
        obtain ⟨a, b, hab, ha⟩ := List.eq_append_cons_of_mem hmem
        exact hnone (34 :: a ++ [34]) b (by simp [hab]) ⟨a, rfl, ha⟩
      · have hB := hquote (t ++ (i ++ 35 :: j)) rfl hmem
        have hall : 34 ∉ t ++ (i ++ 35 :: (j ++ B)) := by
          simp only [List.mem_append, List.mem_cons, not_or] at hmem ⊢
          exact ⟨hmem.1, hmem.2.1, hmem.2.2.1, hmem.2.2.2, hB⟩
        refine hall ?_
        have hrest' : t ++ (i ++ 35 :: (j ++ B)) = u ++ [34] ++ r' := hrest
        rw [hrest']
        simp

end Extend

theorem Statement.extend {w B : Bytes} {x : List (Bytes × Value)} (h : Statement w r x)
    (hquote : Unclosed (w ++ r) → 34 ∉ B) : Statement w (r ++ B) x := by
  cases h with
  | comment hw ht he => exact .comment hw ht he
  | @assignment w₁ a w₂ t e _ x hw₁ ha hw₂ ht he =>
    refine .assignment hw₁ ?_ hw₂ ht he
    cases ha with
    | @mk k u₁ u₂ q _ v hk hu₁ hu₂ hv =>
      have hspaces : Spaces u₂ (q ++ (w₂ ++ 35 :: (t ++ 10 :: (e ++ (r ++ B))))) := by
        refine ⟨hu₂.1, ?_⟩
        obtain ⟨c, q, rfl⟩ := List.exists_cons_of_ne_nil hv.ne_nil
        exact hu₂.2.swap
      have hread := hv.extend (B := B) fun u hu hnone => hquote <| by
        have hfront : q ++ (w₂ ++ 35 :: (t ++ 10 :: (e ++ r))) = 34 :: u := hu
        have hunclosed := Unclosed.here hw₁ hk hu₁ hu₂.1 hnone
        rw [← hfront] at hunclosed
        simpa using hunclosed
      refine .mk hk hu₁ hspaces ?_
      simpa using hread

theorem Blocks.append {A B : Bytes} (hA : Blocks A xs) (hB : Blocks B ys) (hquote : Unclosed A → 34 ∉ B) :
    Blocks (A ++ B) (xs ++ ys) := by
  induction hA with
  | nil => exact hB
  | @cons w r x xs hw hr ih =>
    have hstatement := hw.extend (B := B) hquote
    have hrest := ih fun hunclosed => hquote (.later hw hunclosed)
    rw [List.append_assoc, List.append_assoc]
    exact .cons hstatement hrest

/-- Two accepted contents, the first of which leaves no quote open or the second of which has none, are accepted one after
the other, and come to what parsing the first and then the second comes to. -/
theorem parse_append {A B : Bytes} {values₁ values₂ : OrdMap Bytes Value} (hA : Returns A values₁ true)
    (hB : Returns B values₂ true) (hquote : Unclosed A → 34 ∉ B) (prior : OrdMap Bytes Value) :
    Returns (A ++ B) prior true ∧
      ∀ after, Parses (A ++ B) prior after ↔ ∃ mid, Parses A prior mid ∧ Parses B mid after := by
  obtain ⟨xs, hxs⟩ := returns_true.mp hA
  obtain ⟨ys, hys⟩ := returns_true.mp hB
  have hboth := hxs.append hys hquote
  refine ⟨returns_true.mpr ⟨_, hboth⟩, fun after => ?_⟩
  constructor
  · intro h
    obtain ⟨zs, hzs, rfl⟩ := parses_iff.mp h
    obtain rfl := hboth.unique hzs
    exact ⟨xs.foldl stored prior, parses_iff.mpr ⟨xs, hxs, rfl⟩, parses_iff.mpr ⟨ys, hys, List.foldl_append⟩⟩
  · rintro ⟨mid, hmid, hafter⟩
    obtain ⟨xs', hxs', rfl⟩ := parses_iff.mp hmid
    obtain ⟨ys', hys', rfl⟩ := parses_iff.mp hafter
    obtain rfl := hxs.unique hxs'
    obtain rfl := hys.unique hys'
    exact parses_iff.mpr ⟨_, hboth, List.foldl_append.symm⟩

theorem returns_of_run (fuel : Nat) (h : (parsePrl fuel content ∅).any fun x => x.1 = true) : Returns content ∅ true := by
  obtain ⟨⟨b, after⟩, hx, hb⟩ := (Option.any_eq_true _ _).mp h
  obtain rfl : b = true := of_decide_eq_true hb
  exact ⟨fuel, after, hx⟩

/-- Two assignments to one key. -/
theorem parse_append_twice : Returns (ascii "key = a #\n\n" ++ ascii "key = b #\n\n") ∅ true ∧
    ∀ after, Parses (ascii "key = a #\n\n" ++ ascii "key = b #\n\n") ∅ after ↔
      ∃ mid, Parses (ascii "key = a #\n\n") ∅ mid ∧ Parses (ascii "key = b #\n\n") mid after := by
  have hfirst : Returns (ascii "key = a #\n\n") ∅ true := returns_of_run 40 (by decide +kernel)
  have hsecond : Returns (ascii "key = b #\n\n") ∅ true := returns_of_run 40 (by decide +kernel)
  exact parse_append hfirst hsecond (fun _ => by decide +kernel) ∅

/-- The quote that the first content leaves open is closed by the second. -/
theorem parse_append_quote : Returns (ascii "key = \"a #\n\n") ∅ true ∧ Returns (ascii "key = \"b\" #\n\n") ∅ true ∧
    ¬ Returns (ascii "key = \"a #\n\n" ++ ascii "key = \"b\" #\n\n") ∅ true := by
  refine ⟨returns_of_run 40 (by decide +kernel), returns_of_run 40 (by decide +kernel), ?_⟩
  intro hboth
  obtain ⟨xs, hxs⟩ := returns_true.mp hboth
  have hfalse : (parsePrl 60 (ascii "key = \"a #\n\n" ++ ascii "key = \"b\" #\n\n") ∅).any fun x => x.1 = false := by
    decide +kernel
  obtain ⟨⟨b, after⟩, hx, hb⟩ := (Option.any_eq_true _ _).mp hfalse
  have htrue := (hxs.parsePrl hx).1
  rw [htrue] at hb
  cases of_decide_eq_true hb

end Passdoq.Runcom
