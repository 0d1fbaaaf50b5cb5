import Passdoq.Runcom.Config
import Passdoq.Runcom.Lines
import Mathlib

/-!
# Loads that fail

The actions of the parser assign to the values of the configuration while the parse goes on, and a parse that fails does
not take them back.

* `Halts i xs` : the text `i` stands in an error behind the assignments `xs`; `grammar_halts`, `Halts.leaves` : these are
  the texts that the grammar refuses, and the values it leaves;
* `assigned xs` : the values that assignments come to;
* `load_cases`, `load_false` : what a load leaves;
* `Defaults` : what the default files assign; `failed_load_keeps` : when a load that fails leaves the values as they were,
  and the default files only those of the one that loads.
-/

namespace Passdoq.Runcom

open Peg

/-! ## A text with an error -/

/-- The text stands in an error behind the assignments: where no statement can be read, an assignment may still be. -/
inductive Halts : Bytes → List (Bytes × Value) → Prop
  | assigned {w a r : Bytes} {x : Bytes × Value} (hno : ∀ w' r' xs, w ++ (a ++ r) = w' ++ r' → ¬ Statement w' r' xs)
    (hw : ∀ c ∈ w, isSpace c) (ha : Assigns a r x) : Halts (w ++ (a ++ r)) [x]
  | plain {i : Bytes} (hne : i ≠ []) (hno : ∀ w' r' xs, i = w' ++ r' → ¬ Statement w' r' xs)
    (ha : ∀ w a r x, i = w ++ (a ++ r) → (∀ c ∈ w, isSpace c) → ¬ Assigns a r x) : Halts i []
  | cons {w r : Bytes} {x xs : List (Bytes × Value)} (hw : Statement w r x) (hr : Halts r xs) : Halts (w ++ r) (x ++ xs)

/-- A parse that ends without a match, and the values it leaves. -/
def Failed (o : Outcome ParseState) (values : OrdMap Bytes Value) : Prop :=
  ∃ s, (o = .fail s ∨ o = .thrown s) ∧ s.values = values

section Parse

variable {i r : Bytes} {s s' : ParseState} {o : Outcome ParseState} {values after : OrdMap Bytes Value}
  {xs : List (Bytes × Value)}

theorem failed_fail : Failed (.fail s) s.values := ⟨s, .inl rfl, rfl⟩

theorem failed_thrown : Failed (.thrown s) s.values := ⟨s, .inr rfl, rfl⟩

theorem not_failed_ok : ¬ Failed (.ok r s) values := by
  rintro ⟨_, h | h, -⟩ <;> cases h

theorem Failed.unique {values' : OrdMap Bytes Value} (h : Failed o values) (h' : Failed o values') : values = values' := by
  obtain ⟨s, hs, rfl⟩ := h
  obtain ⟨s', hs', rfl⟩ := h'
  rcases hs with rfl | rfl <;> rcases hs' with h | h <;> cases h <;> rfl

theorem value_failed (hkey : s.currentKey ≠ []) (h : Yields value i s o) : (∃ r s', o = .ok r s') ∨ Failed o s.values := by
  obtain ⟨x, hx, h⟩ := yields_sor.mp h
  obtain ⟨rfl, -⟩ := listValue_cases hx
  obtain ⟨x, hx, h⟩ := yields_sor.mp h
  obtain ⟨w, r, -, -, rfl⟩ | ⟨-, rfl⟩ := boolean_cases hkey hx
  · exact .inl ⟨_, _, h⟩
  obtain ⟨x, hx, h⟩ := yields_sor.mp h
  obtain ⟨w, r, -, -, rfl⟩ | ⟨-, rfl⟩ := integer_cases hkey hx
  · cases hi : Action.stoll w with
    | none =>
      rw [hi] at h
      obtain rfl := h
      exact .inr failed_thrown
    | some n =>
      rw [hi] at h
      exact .inl ⟨_, _, h⟩
  obtain ⟨w, r, s', -, -, -, rfl⟩ | ⟨-, rfl⟩ := stringValue_cases h
  · exact .inl ⟨r, s', rfl⟩
  · exact .inr failed_fail

theorem assignment_failed (h : Yields assignment i s o) : (∃ r s', o = .ok r s') ∨ Failed o s.values := by
  obtain ⟨x, hx, h⟩ := yields_act.mp h
  have hx : (∃ r s', x = .ok r s') ∨ Failed x s.values := by
    obtain ⟨y, hy, hx⟩ := yields_seq.mp hx
    obtain ⟨k, j, -, hk, -, rfl⟩ | ⟨-, rfl⟩ := identifier_cases hy
    · obtain ⟨y, hy, hx⟩ := yields_seq.mp hx
      obtain ⟨w, j, rfl, -, rfl⟩ := ws_cases hy
      obtain ⟨y, hy, hx⟩ := yields_seq.mp hx
      obtain ⟨_, j, -, -, rfl⟩ | ⟨-, rfl⟩ := scans_one.cases hy
      · obtain ⟨y, hy, hx⟩ := yields_seq.mp hx
        obtain ⟨w, j, rfl, -, rfl⟩ := ws_cases hy
        exact value_failed (s := { s with currentKey := k }) hk.ne_nil hx
      · obtain rfl := hx
        exact .inr failed_fail
    · obtain rfl := hx
      exact .inr failed_fail
  obtain ⟨r, s', rfl⟩ | ⟨s', rfl | rfl, hs'⟩ := hx
  · exact .inl ⟨r, _, h⟩
  · obtain rfl := h
    exact .inr ⟨s', .inl rfl, hs'⟩
  · obtain rfl := h
    exact .inr ⟨s', .inr rfl, hs'⟩

/-- A statement that is not read leaves what its assignment has stored, if that was read. -/
theorem statement_failed (h : Yields statement i (.start values) o) (hno : ∀ w r x, i = w ++ r → ¬ Statement w r x) :
    (∃ w a r x, i = w ++ (a ++ r) ∧ (∀ c ∈ w, isSpace c) ∧ Assigns a r x ∧ Failed o (stored values x)) ∨
    (∀ w a r x, i = w ++ (a ++ r) → (∀ c ∈ w, isSpace c) → ¬ Assigns a r x) ∧ Failed o values := by
  have hnot : ∀ r s', o ≠ .ok r s' := by
    rintro r s' rfl
    obtain ⟨w, x, hi, hw, -⟩ := statement_ok.mp h
    exact hno w r x hi hw
  obtain ⟨y, hy, h⟩ := yields_seq.mp h
  obtain ⟨w, j, rfl, hw, rfl⟩ := ws_cases hy
  obtain ⟨y, hy, h⟩ := yields_seq.mp h
  obtain ⟨z, hz, hy⟩ := yields_sor.mp hy
  have hclosing : ∀ j (s : ParseState), Yields (seq ws (seq (opt comment) eol)) j s o → Failed o s.values := by
    intro j s h
    obtain ⟨_, r, -, -, rfl⟩ | ⟨-, rfl⟩ := scans_closing.cases h
    · exact absurd rfl (hnot r s)
    · exact failed_fail
  obtain ⟨r', s', rfl⟩ | hz' := assignment_failed hz
  · obtain ⟨a, x, rfl, ha, rfl⟩ := assignment_ok.mp hz
    obtain rfl := hy
    exact .inl ⟨w, a, r', x, rfl, hw.1, ha, hclosing r' _ h⟩
  · refine .inr ⟨fun w' a r' x hsplit hw' ha => ?_, ?_⟩
    · obtain ⟨-, rfl⟩ := scans_ws.unique (ParseState.start values) hw ⟨hw', ha.stops_isSpace⟩ hsplit
      obtain rfl := hz.unique (assignment_ok.mpr ⟨a, x, rfl, ha, rfl⟩)
      exact not_failed_ok hz'
    · obtain ⟨s', rfl | rfl, hs'⟩ := hz'
      · obtain rfl := yields_eps.mp hy
        have hfailed := hclosing j s' h
        rw [hs'] at hfailed
        exact hfailed
      · obtain rfl := hy
        obtain rfl := h
        exact ⟨s', .inr rfl, hs'⟩

theorem yields_grammar (hne : i ≠ []) :
    Yields grammar i s o ↔ ∃ y, Yields statement i s y ∧ y.ThenOk (Yields grammar) o := by
  have heof : Absent (fun w r => w = [] ∧ r = []) i := by
    rintro w r rfl ⟨rfl, rfl⟩
    exact hne rfl
  constructor
  · intro h
    obtain ⟨x, hx, h⟩ := yields_upto.mp h
    obtain rfl := hx.unique (scans_eof.fail i s heof)
    exact h
  · exact fun h => yields_upto.mpr ⟨.fail s, scans_eof.fail i s heof, h⟩

theorem grammar_failed (hne : i ≠ []) (hno : ∀ w r x, i = w ++ r → ¬ Statement w r x) :
    Yields grammar i (.start values) o ↔ Yields statement i (.start values) o := by
  rw [yields_grammar hne]
  have hfail : ∀ y, Yields statement i (.start values) y → ∃ values, Failed y values := by
    intro y hy
    obtain ⟨w, a, r, x, -, -, -, hfailed⟩ | ⟨-, hfailed⟩ := statement_failed hy hno
    · exact ⟨_, hfailed⟩
    · exact ⟨_, hfailed⟩
  constructor
  · rintro ⟨y, hy, h⟩
    obtain ⟨_, s, rfl | rfl, -⟩ := hfail y hy
    · obtain rfl := h
      exact hy
    · obtain rfl := h
      exact hy
  · intro h
    obtain ⟨_, s, rfl | rfl, -⟩ := hfail o h
    · exact ⟨_, h, rfl⟩
    · exact ⟨_, h, rfl⟩

/-- Behind an error the grammar finds no match, and leaves the assignments in front of it. -/
theorem Halts.leaves (h : Halts i xs) (hi : Yields grammar i (.start values) o) : Failed o (xs.foldl stored values) := by
  induction h generalizing values with
  | @assigned w a r x hno hw ha =>
    have hne : w ++ (a ++ r) ≠ [] := by
      obtain ⟨⟨c, u, rfl, -⟩, -⟩ := ha
      simp
    rw [grammar_failed hne hno] at hi
    obtain ⟨w', a', r', x', hsplit, hw', ha', hfailed⟩ | ⟨hnone, -⟩ := statement_failed hi hno
    · obtain ⟨rfl, hrest⟩ :=
        scans_ws.unique (ParseState.start values) ⟨hw, ha.stops_isSpace⟩ ⟨hw', ha'.stops_isSpace⟩ hsplit
      have hok : Yields assignment (a ++ r) (.start values) (.ok r (.start (stored values x))) :=
        assignment_ok.mpr ⟨a, x, rfl, ha, rfl⟩
      obtain ⟨rfl, hvalues⟩ := Outcome.ok.inj (hok.unique (assignment_ok.mpr ⟨a', x', hrest, ha', rfl⟩))
      have hstored : stored values x = stored values x' := congrArg ParseState.values hvalues
      rw [← hstored] at hfailed
      exact hfailed
    · exact absurd ha (hnone w a r x rfl hw)
  | @plain i hne hno ha =>
    rw [grammar_failed hne hno] at hi
    obtain ⟨w, a, r, x, hsplit, hw, ha', -⟩ | ⟨-, hfailed⟩ := statement_failed hi hno
    · exact absurd ha' (ha w a r x hsplit hw)
    · exact hfailed
  | @cons w r x xs hw hr ih =>
    have hne : w ++ r ≠ [] := fun hnil => hw.ne_nil (List.append_eq_nil_iff.mp hnil).1
    obtain ⟨y, hy, hi⟩ := (yields_grammar hne).mp hi
    obtain rfl := hy.unique (statement_ok.mpr ⟨w, x, rfl, hw, rfl⟩)
    rw [List.foldl_append]
    exact ih hi

/-- What the grammar refuses stands in an error. -/
theorem grammar_halts (h : Yields grammar i (.start values) o) (ho : Failed o after) : ∃ xs, Halts i xs := by
  induction hlen : i.length using Nat.strongRecOn generalizing i values with
  | ind n ih =>
    have hne : i ≠ [] := by
      rintro rfl
      obtain rfl := h.unique (grammar_ok.mpr ⟨[], .nil, rfl, rfl⟩)
      exact not_failed_ok ho
    by_cases hyes : ∃ w r x, i = w ++ r ∧ Statement w r x
    · obtain ⟨w, r, x, rfl, hw⟩ := hyes
      have hshort : r.length < n := by
        have := List.length_pos_of_ne_nil hw.ne_nil
        simp only [List.length_append] at hlen
        omega
      obtain ⟨y, hy, h⟩ := (yields_grammar hne).mp h
      obtain rfl := hy.unique (statement_ok.mpr ⟨w, x, rfl, hw, rfl⟩)
      obtain ⟨xs, hxs⟩ := ih r.length hshort h rfl
      exact ⟨x ++ xs, .cons hw hxs⟩
    · have hno : ∀ w r x, i = w ++ r → ¬ Statement w r x := fun w r x hi hw => hyes ⟨w, r, x, hi, hw⟩
      obtain ⟨w, a, r, x, rfl, hw, ha, -⟩ | ⟨hnone, -⟩ := statement_failed ((grammar_failed hne hno).mp h) hno
      · exact ⟨[x], .assigned hno hw ha⟩
      · exact ⟨[], .plain hne hno hnone⟩

/-! ### What `parse_prl` leaves -/

variable {content : Bytes} {fuel : Nat} {b : Bool}

theorem parsePrl_yields (h : parsePrl fuel content values = some (b, after)) :
    ∃ o, Yields grammar content (.start values) o ∧
      ((∃ r s, o = .ok r s ∧ b = true ∧ after = s.values) ∨ b = false ∧ Failed o after) := by
  obtain ⟨o, ho, h⟩ := Option.map_eq_some_iff.mp h
  refine ⟨o, ⟨fuel, ho⟩, ?_⟩
  cases o with
  | ok r s =>
    obtain ⟨rfl, rfl⟩ := Prod.mk.inj h
    exact .inl ⟨r, s, rfl, rfl, rfl⟩
  | fail s =>
    obtain ⟨rfl, rfl⟩ := Prod.mk.inj h
    exact .inr ⟨rfl, failed_fail⟩
  | thrown s =>
    obtain ⟨rfl, rfl⟩ := Prod.mk.inj h
    exact .inr ⟨rfl, failed_thrown⟩

theorem Blocks.parsePrl (hxs : Blocks content xs) (h : parsePrl fuel content values = some (b, after)) :
    b = true ∧ after = xs.foldl stored values := by
  obtain ⟨o, ho, h⟩ := parsePrl_yields h
  obtain rfl := ho.unique (grammar_ok.mpr ⟨xs, hxs, rfl, rfl⟩)
  obtain ⟨r, s, hs, rfl, rfl⟩ | ⟨-, hfailed⟩ := h
  · obtain ⟨-, rfl⟩ := Outcome.ok.inj hs
    exact ⟨rfl, rfl⟩
  · exact absurd hfailed not_failed_ok

theorem Halts.parsePrl (hxs : Halts content xs) (h : parsePrl fuel content values = some (b, after)) :
    b = false ∧ after = xs.foldl stored values := by
  obtain ⟨o, ho, h⟩ := parsePrl_yields h
  have hleft := hxs.leaves ho
  obtain ⟨r, s, rfl, -, -⟩ | ⟨rfl, hfailed⟩ := h
  · exact absurd hleft not_failed_ok
  · exact ⟨rfl, hfailed.unique hleft⟩

theorem blocks_or_halts (h : parsePrl fuel content values = some (b, after)) :
    (∃ xs, Blocks content xs) ∨ ∃ xs, Halts content xs := by
  obtain ⟨o, ho, ⟨r, s, rfl, -, -⟩ | ⟨-, hfailed⟩⟩ := parsePrl_yields h
  · obtain ⟨xs, hxs, -⟩ := grammar_ok.mp ho
    exact .inl ⟨xs, hxs⟩
  · exact .inr (grammar_halts ho hfailed)

end Parse

/-! ## The values that assignments come to -/

/-- What the assignments leave of no values. -/
def assigned (xs : List (Bytes × Value)) : OrdMap Bytes Value := xs.foldl stored ∅

section Assigned

variable {values : OrdMap Bytes Value} {xs ys : List (Bytes × Value)} {k : Bytes}

theorem find?_stored (x : Bytes × Value) :
    (stored values x).find? k = ((stored ∅ x).find? k).or (values.find? k) := by
  unfold stored
  split_ifs
  · rfl
  · rw [OrdMap.find?_insert, OrdMap.find?_insert]
    split_ifs
    · rfl
    · rfl

theorem find?_foldl_stored : (xs.foldl stored values).find? k = ((assigned xs).find? k).or (values.find? k) := by
  unfold assigned
  induction xs generalizing values with
  | nil => rfl
  | cons x xs ih =>
    rw [List.foldl_cons, List.foldl_cons, ih, @ih (stored ∅ x), find?_stored, Option.or_assoc]

/-- Assignments that later ones follow leave no trace, unless of a key that the later ones spare. -/
theorem foldl_stored_append_eq_iff : (xs ++ ys).foldl stored values = ys.foldl stored values ↔
    ∀ k v, (assigned xs).find? k = some v → (assigned ys).find? k ≠ none ∨ values.find? k = some v := by
  have hfind : ∀ k, ((xs ++ ys).foldl stored values).find? k =
      ((assigned ys).find? k).or (((assigned xs).find? k).or (values.find? k)) := by
    intro k
    rw [List.foldl_append, find?_foldl_stored, find?_foldl_stored]
  constructor
  · intro h k v hk
    by_cases hy : (assigned ys).find? k = none
    · have hv := hfind k
      rw [h, find?_foldl_stored, hy, hk] at hv
      exact .inr hv
    · exact .inl hy
  · intro h
    refine OrdMap.ext_find? fun k => ?_
    rw [hfind, find?_foldl_stored]
    cases hy : (assigned ys).find? k with
    | some v => rfl
    | none =>
      cases hk : (assigned xs).find? k with
      | none => rfl
      | some v => exact ((h k v hk).resolve_left fun hne => hne hy).symm

theorem foldl_stored_eq_iff : xs.foldl stored values = values ↔
    ∀ k v, (assigned xs).find? k = some v → values.find? k = some v := by
  have h := @foldl_stored_append_eq_iff values xs []
  simpa [assigned] using h

end Assigned

/-! ## Loads -/

section Load

variable (found : Bytes → Except Exn Bool) (read : Bytes → Reading) (fuel : Nat)

/-- The file is not read, or it stands in an error and assigns in front of it only what the values hold already. -/
def Harmless (path : Bytes) (c : Config) : Prop :=
  path ∈ c.loadedFiles ∨ read path = .closed ∨ ∃ content x xs, read path = .contents content ∧
    c.expand read fuel path content = some x ∧ x.thrown = none ∧ Halts x.text xs ∧
    ∀ k v, (assigned xs).find? k = some v → c.values.find? k = some v

/-- Reading the file throws, or reading what it includes does. -/
def Throws (path : Bytes) (loaded : List Bytes) (e : Exn) : Prop :=
  read path = .throws e ∨ ∃ content x, read path = .contents content ∧
    preprocess read fuel [path] content (parentPath path) (loaded ++ [path]) = some x ∧ x.thrown = some e

/-- The default files, tried with these files loaded: what comes back, what the files that fail assign in front of their
errors, and what the one that loads assigns, if one does. -/
inductive Defaults : List Bytes → List Bytes → Except Exn Bool → List (Bytes × Value) → List (Bytes × Value) → Prop
  | nil {loaded : List Bytes} : Defaults [] loaded (.ok false) [] []
  | unanswered {path : Bytes} {paths loaded : List Bytes} {e : Exn} (h : found path = .error e) :
    Defaults (path :: paths) loaded (.error e) [] []
  | missing {path : Bytes} {paths loaded : List Bytes} {r : Except Exn Bool} {xs ys : List (Bytes × Value)}
    (h : found path = .ok false ∨ found path = .ok true ∧ (path ∈ loaded ∨ read path = .closed))
    (hrest : Defaults paths loaded r xs ys) : Defaults (path :: paths) loaded r xs ys
  | throws {path : Bytes} {paths loaded : List Bytes} {e : Exn} (hfound : found path = .ok true) (hnew : path ∉ loaded)
    (h : Throws read fuel path loaded e) : Defaults (path :: paths) loaded (.error e) [] []
  | failed {path content : Bytes} {paths loaded : List Bytes} {x : Expansion} {r : Except Exn Bool}
    {ws xs ys : List (Bytes × Value)} (hfound : found path = .ok true) (hnew : path ∉ loaded)
    (hread : read path = .contents content)
    (hx : preprocess read fuel [path] content (parentPath path) (loaded ++ [path]) = some x) (hend : x.thrown = none)
    (hws : Halts x.text ws) (hrest : Defaults paths x.loaded r xs ys) : Defaults (path :: paths) loaded r (ws ++ xs) ys
  | loads {path content : Bytes} {paths loaded : List Bytes} {x : Expansion} {ys : List (Bytes × Value)}
    (hfound : found path = .ok true) (hnew : path ∉ loaded) (hread : read path = .contents content)
    (hx : preprocess read fuel [path] content (parentPath path) (loaded ++ [path]) = some x) (hend : x.thrown = none)
    (hys : Blocks x.text ys) : Defaults (path :: paths) loaded (.ok true) [] ys

variable {found read fuel} {path : Bytes} {paths : List Bytes} {c c' : Config} {r : Except Exn Bool}
  {xs ys : List (Bytes × Value)}

theorem load_unread (h : path ∈ c.loadedFiles ∨ read path = .closed) : load read fuel path c = some (.ok false, c) := by
  unfold load
  rcases h with hloaded | hclosed
  · rw [if_pos hloaded]
  · rw [hclosed, ite_self]

/-- A load does not come to read, or throws, or parses. -/
theorem load_cases (h : load read fuel path c = some (r, c')) :
    ((path ∈ c.loadedFiles ∨ read path = .closed) ∧ r = .ok false ∧ c' = c) ∨
    path ∉ c.loadedFiles ∧ ((∃ e, Throws read fuel path c.loadedFiles e ∧ r = .error e ∧ c'.values = c.values) ∨
    ∃ content x b, read path = .contents content ∧ c.expand read fuel path content = some x ∧ x.thrown = none ∧
      r = .ok b ∧ c'.loadedFiles = x.loaded ∧ parsePrl fuel x.text c.values = some (b, c'.values)) := by
  unfold load at h
  split_ifs at h with hloaded
  · obtain ⟨rfl, rfl⟩ := Prod.mk.inj (Option.some.inj h)
    exact .inl ⟨.inl hloaded, rfl, rfl⟩
  cases hread : read path with
  | closed =>
    rw [hread] at h
    obtain ⟨rfl, rfl⟩ := Prod.mk.inj (Option.some.inj h)
    exact .inl ⟨.inr rfl, rfl, rfl⟩
  | throws e =>
    rw [hread] at h
    obtain ⟨rfl, rfl⟩ := Prod.mk.inj (Option.some.inj h)
    exact .inr ⟨hloaded, .inl ⟨e, .inl hread, rfl, rfl⟩⟩
  | contents content =>
    rw [hread] at h
    obtain ⟨x, hx, h⟩ := Option.bind_eq_some_iff.mp h
    refine .inr ⟨hloaded, ?_⟩
    cases hthrown : x.thrown with
    | some e =>
      rw [hthrown] at h
      obtain ⟨rfl, rfl⟩ := Prod.mk.inj (Option.some.inj h)
      exact .inl ⟨e, .inr ⟨content, x, hread, hx, hthrown⟩, rfl, rfl⟩
    | none =>
      rw [hthrown] at h
      obtain ⟨⟨b, values⟩, hparse, h⟩ := Option.bind_eq_some_iff.mp h
      obtain ⟨rfl, rfl⟩ := Prod.mk.inj (Option.some.inj h)
      exact .inr ⟨content, x, b, rfl, hx, hthrown, rfl, rfl, hparse⟩

theorem load_parses (h : load read fuel path c = some (r, c')) (hnew : path ∉ c.loadedFiles) {content : Bytes}
    (hread : read path = .contents content) {x : Expansion} (hx : c.expand read fuel path content = some x)
    (hend : x.thrown = none) :
    ∃ b, r = .ok b ∧ c'.loadedFiles = x.loaded ∧ parsePrl fuel x.text c.values = some (b, c'.values) := by
  obtain ⟨hloaded | hclosed, -, -⟩ | ⟨-, ⟨e, hthrows, -, -⟩ | ⟨content', x', b, hread', hx', -, hb, hloaded, hparse⟩⟩ :=
    load_cases h
  · exact absurd hloaded hnew
  · rw [hread] at hclosed
    cases hclosed
  · obtain hthrows | ⟨content', x', hread', hx', hthrown⟩ := hthrows
    · rw [hread] at hthrows
      cases hthrows
    · rw [hread] at hread'
      obtain rfl := Reading.contents.inj hread'
      obtain rfl := Option.some.inj (hx.symm.trans hx')
      rw [hend] at hthrown
      cases hthrown
  · rw [hread] at hread'
    obtain rfl := Reading.contents.inj hread'
    obtain rfl := Option.some.inj (hx.symm.trans hx')
    exact ⟨b, hb, hloaded, hparse⟩

theorem load_throws (h : load read fuel path c = some (r, c')) (hnew : path ∉ c.loadedFiles) {e : Exn}
    (hthrows : Throws read fuel path c.loadedFiles e) : r = .error e ∧ c'.values = c.values := by
  unfold load at h
  rw [if_neg hnew] at h
  obtain hread | ⟨content, x, hread, hx, hthrown⟩ := hthrows
  · rw [hread] at h
    obtain ⟨rfl, rfl⟩ := Prod.mk.inj (Option.some.inj h)
    exact ⟨rfl, rfl⟩
  · have hexpand : c.expand read fuel path content = some x := hx
    rw [hread] at h
    simp only [hexpand, Option.bind_eq_bind, Option.bind_some, hthrown] at h
    obtain ⟨rfl, rfl⟩ := Prod.mk.inj (Option.some.inj h)
    exact ⟨rfl, rfl⟩

/-- A load that fails leaves the values as they were exactly when it is harmless. -/
theorem load_false (h : load read fuel path c = some (.ok false, c')) :
    c'.values = c.values ↔ Harmless read fuel path c := by
  obtain ⟨hnot, -, rfl⟩ | ⟨hnew, ⟨e, -, hr, -⟩ | ⟨content, x, b, hread, hx, hend, hb, -, hparse⟩⟩ := load_cases h
  · refine iff_of_true rfl ?_
    rcases hnot with hloaded | hread
    · exact .inl hloaded
    · exact .inr (.inl hread)
  · cases hr
  obtain rfl := Except.ok.inj hb
  constructor
  · intro hsame
    obtain ⟨ys, hys⟩ | ⟨xs, hxs⟩ := blocks_or_halts hparse
    · cases (hys.parsePrl hparse).1
    · rw [(hxs.parsePrl hparse).2] at hsame
      exact .inr (.inr ⟨content, x, xs, hread, hx, hend, hxs, foldl_stored_eq_iff.mp hsame⟩)
  · rintro (hloaded | hclosed | ⟨content', x', xs, hread', hx', hend', hxs, hagree⟩)
    · exact absurd hloaded hnew
    · rw [hread] at hclosed
      cases hclosed
    · obtain ⟨b, hb, -, hparse'⟩ := load_parses h hnew hread' hx' hend'
      rw [(hxs.parsePrl hparse').2]
      exact foldl_stored_eq_iff.mpr hagree

theorem loadDefaults_found (h : loadDefaults found read fuel (path :: paths) c = some (r, c'))
    (hfound : found path = .ok true) : ∃ r₁ c₁, load read fuel path c = some (r₁, c₁) ∧
      ((∃ e, r₁ = .error e ∧ r = .error e ∧ c' = c₁) ∨ (r₁ = .ok true ∧ r = .ok true ∧ c' = c₁) ∨
        (r₁ = .ok false ∧ loadDefaults found read fuel paths c₁ = some (r, c'))) := by
  rw [loadDefaults, hfound] at h
  obtain ⟨⟨r₁, c₁⟩, hload, hgo⟩ := Option.bind_eq_some_iff.mp h
  refine ⟨r₁, c₁, hload, ?_⟩
  rcases r₁ with e | (_ | _)
  · obtain ⟨rfl, rfl⟩ := Prod.mk.inj (Option.some.inj hgo)
    exact .inl ⟨e, rfl, rfl, rfl⟩
  · exact .inr (.inr ⟨rfl, hgo⟩)
  · obtain ⟨rfl, rfl⟩ := Prod.mk.inj (Option.some.inj hgo)
    exact .inr (.inl ⟨rfl, rfl, rfl⟩)

theorem loadDefaults_notFound (hfound : found path = .ok false) :
    loadDefaults found read fuel (path :: paths) c = loadDefaults found read fuel paths c := by
  rw [loadDefaults, hfound]

theorem exists_defaults (h : loadDefaults found read fuel paths c = some (r, c')) :
    ∃ xs ys, Defaults found read fuel paths c.loadedFiles r xs ys := by
  induction paths generalizing c with
  | nil =>
    obtain ⟨rfl, -⟩ := Prod.mk.inj (Option.some.inj h)
    exact ⟨[], [], .nil⟩
  | cons path paths ih =>
    rcases hfound : found path with e | (_ | _)
    · rw [loadDefaults, hfound] at h
      obtain ⟨rfl, -⟩ := Prod.mk.inj (Option.some.inj h)
      exact ⟨[], [], .unanswered hfound⟩
    · rw [loadDefaults_notFound hfound] at h
      obtain ⟨xs, ys, hrest⟩ := ih h
      exact ⟨xs, ys, .missing (.inl hfound) hrest⟩
    obtain ⟨r₁, c₁, hload, hgo⟩ := loadDefaults_found h hfound
    obtain ⟨hnot, rfl, rfl⟩ | ⟨hnew, ⟨e, hthrows, rfl, -⟩ | ⟨content, x, b, hread, hx, hend, rfl, hloaded, hparse⟩⟩ :=
      load_cases hload
    · obtain ⟨e, hr, -⟩ | ⟨hr, -⟩ | ⟨-, hgo⟩ := hgo
      · cases hr
      · cases hr
      · obtain ⟨xs, ys, hrest⟩ := ih hgo
        exact ⟨xs, ys, .missing (.inr ⟨hfound, hnot⟩) hrest⟩
    · obtain ⟨e', hr, rfl, -⟩ | ⟨hr, -⟩ | ⟨hr, -⟩ := hgo
      · obtain rfl := Except.error.inj hr
        exact ⟨[], [], .throws hfound hnew hthrows⟩
      · cases hr
      · cases hr
    · obtain ⟨e', hr, -⟩ | ⟨hr, rfl, -⟩ | ⟨hr, hgo⟩ := hgo
      · cases hr
      · obtain rfl := Except.ok.inj hr
        obtain ⟨ys, hys⟩ | ⟨ws, hws⟩ := blocks_or_halts hparse
        · exact ⟨[], ys, .loads hfound hnew hread hx hend hys⟩
        · cases (hws.parsePrl hparse).1
      · obtain rfl := Except.ok.inj hr
        obtain ⟨ys, hys⟩ | ⟨ws, hws⟩ := blocks_or_halts hparse
        · cases (hys.parsePrl hparse).1
        · obtain ⟨xs, ys, hrest⟩ := ih hgo
          rw [hloaded] at hrest
          exact ⟨ws ++ xs, ys, .failed hfound hnew hread hx hend hws hrest⟩

/-- What the default files leave is what they assign, one after the other. -/
theorem Defaults.values {loaded : List Bytes} (hdefaults : Defaults found read fuel paths loaded r xs ys)
    (hc : c.loadedFiles = loaded) {r' : Except Exn Bool} (h : loadDefaults found read fuel paths c = some (r', c')) :
    r' = r ∧ c'.values = (xs ++ ys).foldl stored c.values := by
  induction hdefaults generalizing c with
  | nil =>
    obtain ⟨rfl, rfl⟩ := Prod.mk.inj (Option.some.inj h)
    exact ⟨rfl, rfl⟩
  | unanswered hfound =>
    rw [loadDefaults, hfound] at h
    obtain ⟨rfl, rfl⟩ := Prod.mk.inj (Option.some.inj h)
    exact ⟨rfl, rfl⟩
  | @missing path paths loaded r xs ys hmissing hrest ih =>
    obtain hfound | ⟨hfound, hnot⟩ := hmissing
    · rw [loadDefaults_notFound hfound] at h
      exact ih hc h
    · obtain ⟨r₁, c₁, hload, hgo⟩ := loadDefaults_found h hfound
      obtain ⟨rfl, rfl⟩ := Prod.mk.inj (Option.some.inj ((load_unread (hc ▸ hnot)).symm.trans hload))
      obtain ⟨e, hr, -⟩ | ⟨hr, -⟩ | ⟨-, hgo⟩ := hgo
      · cases hr
      · cases hr
      · exact ih hc hgo
  | @throws path paths loaded e hfound hnew hthrows =>
    subst hc
    obtain ⟨r₁, c₁, hload, hgo⟩ := loadDefaults_found h hfound
    obtain ⟨rfl, hvalues⟩ := load_throws hload hnew hthrows
    obtain ⟨e', hr, rfl, rfl⟩ | ⟨hr, -⟩ | ⟨hr, -⟩ := hgo
    · obtain rfl := Except.error.inj hr
      exact ⟨rfl, hvalues⟩
    · cases hr
    · cases hr
  | @failed path content paths loaded x r ws xs ys hfound hnew hread hx hend hws hrest ih =>
    subst hc
    obtain ⟨r₁, c₁, hload, hgo⟩ := loadDefaults_found h hfound
    obtain ⟨b, rfl, hloaded, hparse⟩ := load_parses hload hnew hread hx hend
    obtain ⟨rfl, hvalues⟩ := hws.parsePrl hparse
    obtain ⟨e, hr, -⟩ | ⟨hr, -⟩ | ⟨-, hgo⟩ := hgo
    · cases hr
    · cases hr
    · obtain ⟨hb, hrest⟩ := ih hloaded hgo
      rw [hvalues, ← List.foldl_append, ← List.append_assoc] at hrest
      exact ⟨hb, hrest⟩
  | @loads path content paths loaded x ys hfound hnew hread hx hend hys =>
    subst hc
    obtain ⟨r₁, c₁, hload, hgo⟩ := loadDefaults_found h hfound
    obtain ⟨b, rfl, -, hparse⟩ := load_parses hload hnew hread hx hend
    obtain ⟨rfl, hvalues⟩ := hys.parsePrl hparse
    obtain ⟨e, hr, -⟩ | ⟨-, rfl, rfl⟩ | ⟨hr, -⟩ := hgo
    · cases hr
    · exact ⟨rfl, hvalues⟩
    · cases hr

/-- A load that fails leaves the values as they were exactly when it is harmless, and the default files leave what the one
that loads assigns, on top of the values before, exactly when every key that an error left assigned is assigned again by
that one or had this value before. This is so however `load_defaults` ends. -/
theorem failed_load_keeps (found : Bytes → Except Exn Bool) (read : Bytes → Reading) (fuel : Nat) :
    (∀ path c c', load read fuel path c = some (.ok false, c') → (c'.values = c.values ↔ Harmless read fuel path c)) ∧
    ∀ paths c r c', loadDefaults found read fuel paths c = some (r, c') →
      (∃ xs ys, Defaults found read fuel paths c.loadedFiles r xs ys) ∧
      ∀ xs ys, Defaults found read fuel paths c.loadedFiles r xs ys → (c'.values = ys.foldl stored c.values ↔
        ∀ k v, (assigned xs).find? k = some v → (assigned ys).find? k ≠ none ∨ c.values.find? k = some v) := by
  refine ⟨fun path c c' h => load_false h, fun paths c r c' h => ⟨exists_defaults h, fun xs ys hdefaults => ?_⟩⟩
  rw [(hdefaults.values rfl h).2]
  exact foldl_stored_append_eq_iff

/-- What opens where there is one file, with one assignment and no comment behind it. -/
def plainFile (path : Bytes) : Reading := if path = ascii "/runcom" then .contents (ascii "key = value\n") else .closed

theorem load_plainFile : ∃ c', load plainFile 60 (ascii "/runcom") ⟨∅, []⟩ = some (.ok false, c') ∧ c'.values ≠ ∅ := by
  have hcheck : (load plainFile 60 (ascii "/runcom") ⟨∅, []⟩).any fun x =>
      decide (x.1.toOption = some false ∧ x.2.values ≠ ∅) := by decide
  obtain ⟨⟨r, c'⟩, hload, h⟩ := (Option.any_eq_true _ _).mp hcheck
  obtain ⟨hfalse, hne⟩ := of_decide_eq_true h
  cases r with
  | error e => cases hfalse
  | ok b =>
    obtain rfl := Option.some.inj hfalse
    exact ⟨c', hload, hne⟩

theorem failed_load_keeps_plain : ∃ c', load plainFile 60 (ascii "/runcom") ⟨∅, []⟩ = some (.ok false, c') ∧
    loadDefaults (fun _ => .ok true) plainFile 60 [ascii "/runcom"] ⟨∅, []⟩ = some (.ok false, c') ∧
    ¬ Harmless plainFile 60 (ascii "/runcom") ⟨∅, []⟩ ∧
    ∃ xs ys, Defaults (fun _ => .ok true) plainFile 60 [ascii "/runcom"] [] (.ok false) xs ys := by
  obtain ⟨c', hload, hne⟩ := load_plainFile
  have hdefaults : loadDefaults (fun _ => .ok true) plainFile 60 [ascii "/runcom"] ⟨∅, []⟩ = some (.ok false, c') := by
    rw [loadDefaults, hload]
    rfl
  obtain ⟨hone, hall⟩ := failed_load_keeps (fun _ => .ok true) plainFile 60
  exact ⟨c', hload, hdefaults, fun hharmless => hne ((hone _ _ _ hload).mpr hharmless), (hall _ _ _ _ hdefaults).1⟩

/-- The key is there although the load fails. -/
theorem failed_load_keeps_not :
    ¬ ∀ c', load plainFile 60 (ascii "/runcom") ⟨∅, []⟩ = some (.ok false, c') → c'.values = ∅ := by
  intro hkeeps
  obtain ⟨c', hload, hne⟩ := load_plainFile
  exact hne (hkeeps c' hload)

end Load

end Passdoq.Runcom
