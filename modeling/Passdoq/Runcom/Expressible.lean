import Passdoq.Runcom.Lookup

/-!
# What a configuration file can say

A configuration can be set key by key to any values; a file can give some of them only.

* `Writable v` : some assignment in a file has the value `v`: no empty string, no number whose first digit would be read as a
  boolean, and a string with a quote in it only as a bare text;
* `Opens v` : such a text that no quote can stand behind;
* `Reads.writable`, `Writable.reads` : what is read is writable, and what is writable is read off some text;
* `expressible_iff` : a file loads into an empty configuration what is `Expressible`, and nothing else.
-/

namespace Passdoq.Runcom

open Peg

/-! ## Values that a file can give -/

/-- A text that is read as a string without quotes around it. No quote ends it, so that one at its front stays in it; then
no other may stand in it. -/
structure BareText (t : Bytes) : Prop where
  ne_nil : t ≠ []
  bare : ∀ c ∈ t, isBare c
  stops : Stops isSpace t
  no_list : t.head? ≠ some 91
  no_boolean : ∀ w ∈ booleans, ¬ w <+: t
  no_integer : ∀ w, w <+: t → ¬ IsInteger w
  quote : t.head? = some 34 → t.tail ≠ [] ∧ 34 ∉ t.tail

/-- The values that an assignment in a file can have. A number begins with neither `0` nor `1`, or has a sign; a line behind
the first of a quoted string is no include. -/
inductive Writable : Value → Prop
  | boolean (b : Bool) : Writable (.fromBool b)
  | integer {i : Int} (hrange : -2 ^ 63 ≤ i ∧ i < 2 ^ 63)
      (hdigit : i ≤ 0 ∨ ∃ n : Nat, 2 * 10 ^ n ≤ i ∧ i < 10 ^ (n + 1)) : Writable (.fromInt i)
  | quoted {u : Bytes} (hne : u ≠ []) (hu : 34 ∉ u) (hline : ¬ 10 :: includeSign <:+: u) : Writable (.fromString u)
  | bare {t : Bytes} (h : BareText t) : Writable (.fromString t)

/-- A string that begins with a quote. -/
def Opens (v : Value) : Prop := ∃ u, v = .fromString (34 :: u)

section Values

variable {t r : Bytes} {v : Value}

/-- No boolean begins like a number below zero or one that begins with `2` or more. -/
theorem not_boolean_of_head (h : ∀ c ∈ t.head?, c.toNat = 45 ∨ 50 ≤ c.toNat ∧ c.toNat ≤ 57) :
    ∀ w ∈ booleans, ¬ w <+: t := by
  have hheads : ∀ w ∈ booleans, w.head?.any (fun d => d.toNat ≠ 45 ∧ ¬ (50 ≤ d.toNat ∧ d.toNat ≤ 57)) = true := by decide
  rintro w hw ⟨u, rfl⟩
  have hhead := hheads w hw
  cases w with
  | nil => cases hhead
  | cons d w =>
    have hd := h d rfl
    simp at hhead
    omega

theorem absent_quoted {j : Bytes} : Absent (fun w _ => Quoted w) (34 :: j) ↔ 34 ∉ j := by
  constructor
  · intro habs hmem
    obtain ⟨a, b, rfl, ha⟩ := List.eq_append_cons_of_mem hmem
    exact habs (34 :: a ++ [34]) b (by simp) ⟨a, rfl, ha⟩
  · rintro hj _ b hi ⟨u, rfl, -⟩
    refine hj ?_
    rw [(List.cons.inj hi).2]
    simp

theorem unquote_open {u : Bytes} (hne : u ≠ []) (hu : 34 ∉ u) : Action.unquote (34 :: u) = 34 :: u := by
  unfold Action.unquote
  rw [if_neg]
  rintro ⟨-, hlast⟩
  obtain ⟨c, u, rfl⟩ := List.exists_cons_of_ne_nil hne
  rw [List.getLast?_cons_cons] at hlast
  exact hu (List.mem_of_getLast? hlast)

theorem BareText.unquote (h : BareText t) : Action.unquote t = t := by
  by_cases hquote : t.head? = some 34
  · obtain ⟨u, rfl⟩ := List.head?_eq_some_iff.mp hquote
    obtain ⟨hne, hu⟩ := h.quote rfl
    exact unquote_open hne hu
  · exact unquote_of_head hquote

theorem BareText.reads (h : BareText t) (hr : Stops isBare r) (hopen : t.head? = some 34 → 34 ∉ r) :
    Reads t r (.fromString t) := by
  have habsent : Absent (fun w _ => Quoted w) (t ++ r) := by
    by_cases hquote : t.head? = some 34
    · obtain ⟨u, rfl⟩ := List.head?_eq_some_iff.mp hquote
      obtain ⟨-, hu⟩ := h.quote rfl
      refine absent_quoted.mpr fun hmem => ?_
      obtain hmem | hmem := List.mem_append.mp hmem
      · exact hu hmem
      · exact hopen rfl hmem
    · exact absent_quoted_of_head hquote h.ne_nil
  have hhead : (t ++ r).head? ≠ some 91 := by
    rw [List.head?_append_of_ne_nil _ h.ne_nil]
    exact h.no_list
  have hread : Reads t r (.fromString (Action.unquote t)) :=
    .string (listless_of_head hhead) ((absent_booleanToken hr).mpr h.no_boolean) ((absent_integerToken hr).mpr h.no_integer)
      (.inr ⟨habsent, h.ne_nil, h.bare, hr⟩)
  rwa [h.unquote] at hread

/-- A string that begins with a quote was opened by it, and no quote stands behind. -/
theorem Reads.opens (h : Reads t r v) (hv : Opens v) : 34 ∈ t ∧ 34 ∉ r := by
  obtain ⟨u, hu⟩ := hv
  cases h with
  | boolean => cases (congrArg Value.type hu : ValueType.boolean = ValueType.string)
  | integer => cases (congrArg Value.type hu : ValueType.integer = ValueType.string)
  | string hlist hboolean hinteger htoken =>
    have htext : Action.unquote t = 34 :: u := congrArg Value.stringValue hu
    by_cases hquote : t.head? = some 34
    · obtain ⟨j, rfl⟩ := List.head?_eq_some_iff.mp hquote
      refine ⟨List.mem_cons_self, ?_⟩
      obtain ⟨m, hm, hnone⟩ | ⟨habs, -⟩ := htoken
      · rw [hm, unquote_quoted] at htext
        exact absurd (by rw [htext]; simp) hnone
      · exact fun hmem => absent_quoted.mp habs (List.mem_append_right j hmem)
    · rw [unquote_of_head hquote] at htext
      exact absurd (by rw [htext]; rfl) hquote

theorem stops_front {p : UInt8 → Bool} (ht : t ≠ []) : Stops p (t ++ r) ↔ Stops p t := by
  unfold Stops
  rw [List.head?_append_of_ne_nil _ ht]

theorem Listless.head_ne (h : Listless (t ++ r)) (hbare : ∀ c ∈ t, isBare c) (hmem : 34 ∈ t) : t.head? ≠ some 91 := by
  intro hhead
  obtain ⟨j, rfl⟩ := List.head?_eq_some_iff.mp hhead
  obtain ⟨w, u, hj, hw, hu⟩ := exists_run isSpace j
  have hquote : 34 ∈ u := by
    have hmem : 34 ∈ w ++ u := by
      rw [← hj]
      exact (List.mem_cons.mp hmem).resolve_left (by decide)
    refine (List.mem_append.mp hmem).resolve_left fun hin => ?_
    exact absurd (hw 34 hin) (by decide)
  obtain ⟨c, u, rfl⟩ := List.exists_cons_of_ne_nil (List.ne_nil_of_mem hquote)
  have hc : isBare c := hbare c (by rw [hj]; simp)
  obtain ⟨w', r', hsplit, htoken⟩ := exists_stringToken (j := u ++ r) hc
  refine h w (c :: u ++ r) ?_ ⟨hw, stops_cons (hu c rfl)⟩ w' r' hsplit htoken
  rw [hj]
  simp

/-- A number is not read where a boolean begins, such as `1`. -/
theorem integer_writable (h : IsInteger t) (hboolean : ∀ w ∈ booleans, ¬ w <+: t)
    (hrange : -2 ^ 63 ≤ denoted t ∧ denoted t < 2 ^ 63) : Writable (.fromInt (denoted t)) := by
  refine .integer hrange ?_
  obtain ⟨ds, hds, hne, hdigits⟩ := h
  obtain ⟨c, ds, rfl⟩ := List.exists_cons_of_ne_nil hne
  have hc := Decimal.toNat_of_isDigit (hdigits c List.mem_cons_self)
  rcases hds with rfl | rfl
  · right
    have hfirst : ∀ d : UInt8, [d] ∈ booleans → c.toNat ≠ d.toNat := by
      rintro d hd heq
      obtain rfl := UInt8.toNat_inj.mp heq
      exact hboolean [c] hd (List.prefix_append [c] ds)
    have h48 : c.toNat ≠ 48 := hfirst 48 (by decide)
    have h49 : c.toNat ≠ 49 := hfirst 49 (by decide)
    have hhead : ∀ d ∈ (c :: ds).head?, 50 ≤ d.toNat := by
      intro d hd
      obtain rfl := Option.some.inj hd
      omega
    obtain ⟨n, hlow, hhigh⟩ := Decimal.numeral_bounds (List.cons_ne_nil c ds) hdigits hhead
    have hsign : c ≠ 45 := by
      rintro rfl
      simp at hc
    have hdenoted : denoted (c :: ds) = Decimal.valueOf 0 (c :: ds) := if_neg fun h => hsign (Option.some.inj h)
    rw [hdenoted]
    exact ⟨n, by exact_mod_cast hlow, by exact_mod_cast hhigh⟩
  · left
    have hdenoted : denoted (45 :: c :: ds) = -Decimal.valueOf 0 (c :: ds) := if_pos rfl
    rw [hdenoted]
    omega

theorem Reads.writable (h : Reads t r v) (hstops : Stops isSpace (t ++ r)) (hv : v ≠ .fromString [])
    (hline : ¬ 10 :: includeSign <:+: t) : Writable v := by
  have hne := h.ne_nil
  cases h with
  | boolean => exact .boolean _
  | @integer i hboolean htoken hi =>
    obtain ⟨hrange, rfl⟩ := stoll_eq_some.mp hi
    refine integer_writable htoken.1 ?_ hrange
    rintro w hw ⟨u, rfl⟩
    exact hboolean w (u ++ r) (List.append_assoc w u r) hw
  | string hlist hboolean hinteger htoken =>
    obtain ⟨m, rfl, hm⟩ | ⟨habs, -, hbare, hr⟩ := htoken
    · rw [unquote_quoted] at hv ⊢
      refine .quoted (fun hnil => hv (by rw [hnil])) hm fun hin => hline (hin.trans ?_)
      exact ⟨[34], [34], by simp⟩
    · have hno : 10 ∉ t := fun hmem => by cases hbare 10 hmem
      by_cases hmem : 34 ∈ t
      · have hquote : t.head? = some 34 → t.tail ≠ [] ∧ 34 ∉ t.tail := by
          intro hhead
          obtain ⟨u, rfl⟩ := List.head?_eq_some_iff.mp hhead
          refine ⟨?_, fun hu => absent_quoted.mp habs (List.mem_append_left r hu)⟩
          rintro (rfl : u = [])
          exact hv rfl
        have htext : BareText t := ⟨hne, hbare, (stops_front hne).mp hstops, hlist.head_ne hbare hmem,
          (absent_booleanToken hr).mp hboolean, (absent_integerToken hr).mp hinteger, hquote⟩
        rw [htext.unquote]
        exact .bare htext
      · have hhead : t.head? ≠ some 34 := fun h => hmem (List.mem_of_mem_head? h)
        rw [unquote_of_head hhead]
        exact .quoted hne hmem (not_infix_of_not_mem hno)

theorem infix_quoted {u : Bytes} (h : 10 :: includeSign <:+: 34 :: (u ++ [34])) : 10 :: includeSign <:+: u := by
  have hquote : 34 ∉ 10 :: includeSign := by decide
  have hnil : ¬ 10 :: includeSign <:+: [] := by simp
  have hinner := (infix_split (i := []) hquote h).resolve_left hnil
  exact (infix_split hquote hinner).resolve_right hnil

theorem reads_integer {ds : Bytes} {i : Int} (hr : Stops isBare r) (hdigit : Stops Decimal.isDigit r)
    (hrange : -2 ^ 63 ≤ i ∧ i < 2 ^ 63) (ht : t = ds ∨ t = 45 :: ds) (hne : ds ≠ []) (hds : ∀ c ∈ ds, Decimal.isDigit c)
    (hhead : ∀ c ∈ t.head?, c.toNat = 45 ∨ 50 ≤ c.toNat ∧ c.toNat ≤ 57) (hdenoted : denoted t = i) :
    Reads t r (.fromInt i) ∧ Stops isSpace (t ++ r) ∧ ¬ 10 :: includeSign <:+: t := by
  have hinteger : IsInteger t := ⟨ds, ht, hne, hds⟩
  have hread : Reads t r (.fromInt i) := by
    refine .integer ((absent_booleanToken hr).mpr (not_boolean_of_head hhead)) ⟨hinteger, hdigit⟩ ?_
    exact stoll_eq_some.mpr ⟨by rw [hdenoted]; exact hrange, hdenoted⟩
  have hnewline : 10 ∉ t := fun hmem => absurd (hinteger.isBare 10 hmem) (by decide)
  exact ⟨hread, (stops_front hread.ne_nil).mpr hinteger.stops, not_infix_of_not_mem hnewline⟩

theorem Writable.reads (h : Writable v) (hr : Stops isBare r) (hdigit : Stops Decimal.isDigit r) (hopen : Opens v → 34 ∉ r) :
    ∃ t, Reads t r v ∧ Stops isSpace (t ++ r) ∧ ¬ 10 :: includeSign <:+: t := by
  cases h with
  | boolean b =>
    cases b with
    | true =>
      have htoken : BooleanToken (ascii "true") r := show ascii "true" ∈ booleans by decide
      exact ⟨ascii "true", .boolean htoken, stops_cons (by decide), not_infix_of_not_mem (by decide)⟩
    | false =>
      have htoken : BooleanToken (ascii "false") r := show ascii "false" ∈ booleans by decide
      exact ⟨ascii "false", .boolean htoken, stops_cons (by decide), not_infix_of_not_mem (by decide)⟩
  | @integer i hrange hdigits =>
    rcases hdigits with hle | ⟨n, hlow, hhigh⟩
    · -- the sign keeps a number that is not positive from being read as a boolean
      refine ⟨45 :: Decimal.renderNat i.natAbs,
        reads_integer hr hdigit hrange (.inr rfl) (Decimal.renderNat_ne_nil _) (Decimal.renderNat_digits _) ?_ ?_⟩
      · intro c hc
        obtain rfl := Option.some.inj hc
        exact .inl rfl
      · have hdenoted : denoted (45 :: Decimal.renderNat i.natAbs) = -Decimal.valueOf 0 (Decimal.renderNat i.natAbs) :=
          if_pos rfl
        rw [hdenoted, Decimal.valueOf_renderNat]
        omega
    · have hpos : 0 ≤ i := le_trans (by positivity) hlow
      obtain ⟨m, rfl⟩ := Int.eq_ofNat_of_zero_le hpos
      have hlow : 2 * 10 ^ n ≤ m := by exact_mod_cast hlow
      have hhigh : m < 10 ^ (n + 1) := by exact_mod_cast hhigh
      obtain ⟨ds, hne, hds, hhead, hvalue⟩ := Decimal.exists_numeral hlow hhigh
      have hfirst : ∀ c ∈ ds.head?, 50 ≤ c.toNat ∧ c.toNat ≤ 57 := fun c hc =>
        ⟨hhead c hc, (Decimal.toNat_of_isDigit (hds c (List.mem_of_mem_head? hc))).2⟩
      refine ⟨ds, reads_integer hr hdigit hrange (.inl rfl) hne hds (fun c hc => .inr (hfirst c hc)) ?_⟩
      have hsign : ds.head? ≠ some 45 := by
        intro hhead
        have hminus := (hfirst 45 hhead).1
        simp at hminus
      have hdenoted : denoted ds = Decimal.valueOf 0 ds := if_neg hsign
      rw [hdenoted, hvalue]
  | quoted hne hu hline =>
    exact ⟨34 :: (_ ++ [34]), reads_quoted hu r, stops_cons (by decide),
      fun hin => hline (infix_quoted hin)⟩
  | @bare t h =>
    refine ⟨t, h.reads hr fun hhead => hopen ?_, (stops_front h.ne_nil).mpr h.stops,
      not_infix_of_not_mem fun hmem => absurd (h.bare 10 hmem) (by decide)⟩
    obtain ⟨u, rfl⟩ := List.head?_eq_some_iff.mp hhead
    exact ⟨u, rfl⟩

end Values

/-! ## Contents -/

section Contents

variable {w r content k : Bytes} {v : Value} {x y : Bytes × Value} {xs : List (Bytes × Value)} {values : OrdMap Bytes Value}

theorem Statement.token (h : Statement w r xs) (hx : x ∈ xs) :
    ∃ a t u, w = a ++ (t ++ u) ∧ Stops isSpace (t ++ (u ++ r)) ∧ Reads t (u ++ r) x.2 := by
  cases h with
  | comment => cases hx
  | @assignment w₁ a w₂ t e _ x hw₁ ha hw₂ ht he =>
    obtain rfl := List.mem_singleton.mp hx
    cases ha with
    | @mk k u₁ u₂ q _ v hk hu₁ hu₂ hv =>
      refine ⟨w₁ ++ (k ++ (u₁ ++ 61 :: u₂)), q, w₂ ++ 35 :: (t ++ 10 :: e), by simp, ?_, ?_⟩
      · simpa using hu₂.2
      · simpa using hv

theorem Statement.subsingleton (h : Statement w r xs) (hx : x ∈ xs) (hy : y ∈ xs) : x = y := by
  cases h with
  | comment => cases hx
  | assignment hw₁ ha hw₂ ht he => rw [List.mem_singleton.mp hx, List.mem_singleton.mp hy]

theorem Blocks.token (h : Blocks content xs) (hx : x ∈ xs) :
    ∃ a t u, content = a ++ (t ++ u) ∧ Stops isSpace (t ++ u) ∧ Reads t u x.2 := by
  induction h with
  | nil => cases hx
  | @cons w r zs xs hw hr ih =>
    obtain hx | hx := List.mem_append.mp hx
    · obtain ⟨a, t, u, rfl, hstops, hread⟩ := hw.token hx
      exact ⟨a, t, u ++ r, by simp, hstops, hread⟩
    · obtain ⟨a, t, u, rfl, hstops, hread⟩ := ih hx
      exact ⟨w ++ a, t, u, by simp, hstops, hread⟩

/-- No string that begins with a quote stands in front of another. -/
theorem Blocks.opens (h : Blocks content xs) (hx : x ∈ xs) (hy : y ∈ xs) (hxo : Opens x.2) (hyo : Opens y.2) : x = y := by
  induction h generalizing x y with
  | nil => cases hx
  | @cons w r zs xs hw hr ih =>
    have hapart : ∀ {x y : Bytes × Value}, x ∈ zs → y ∈ xs → Opens x.2 → ¬ Opens y.2 := by
      intro x y hx hy hxo hyo
      obtain ⟨a, t, u, -, -, hread⟩ := hw.token hx
      obtain ⟨a', t', u', rfl, -, hread'⟩ := hr.token hy
      have hmem : 34 ∈ a' ++ (t' ++ u') := by simp [(hread'.opens hyo).1]
      exact (hread.opens hxo).2 (List.mem_append_right u hmem)
    obtain hx | hx := List.mem_append.mp hx <;> obtain hy | hy := List.mem_append.mp hy
    · exact hw.subsingleton hx hy
    · exact absurd hyo (hapart hx hy hxo)
    · exact absurd hxo (hapart hy hx hyo)
    · exact ih hx hy hxo hyo

/-- Identifiers with values that a file can give, at most one of which lets no quote stand behind it. -/
structure Expressible (values : OrdMap Bytes Value) : Prop where
  keys : Identified values
  writable : ∀ k v, values.find? k = some v → Writable v
  opens : ∀ k k' v v', values.find? k = some v → values.find? k' = some v' → Opens v → Opens v' → k = k'

theorem Blocks.expressible (h : Blocks content xs) (hlined : Lined content) : Expressible (xs.foldl stored ∅) := by
  have hmem : ∀ k v, (xs.foldl stored ∅).find? k = some v → (k, v) ∈ xs ∧ v ≠ .fromString [] := by
    intro k v hfind
    have hlast : lastValue k (effective xs) = some v := find?_assigned.symm.trans hfind
    exact ⟨List.mem_of_mem_filter (lastValue_mem hlast), fun hv => lastValue_effective_ne (hv ▸ hlast)⟩
  refine ⟨identified_empty.foldl h.keys, ?_, ?_⟩
  · intro k v hfind
    obtain ⟨hin, hv⟩ := hmem k v hfind
    obtain ⟨a, t, u, rfl, hstops, hread⟩ := h.token hin
    refine hread.writable hstops hv fun hsign => hlined.not_infix (hsign.trans ⟨a, u, ?_⟩)
    rw [List.append_assoc]
  · intro k k' v v' hk hk' hv hv'
    exact congrArg Prod.fst (h.opens (hmem k v hk).1 (hmem k' v' hk').1 hv hv')

theorem Writable.ne_empty (h : Writable v) : v ≠ .fromString [] := by
  rintro rfl
  generalize hv : Value.fromString [] = v at h
  cases h with
  | boolean => cases (congrArg Value.type hv : ValueType.string = ValueType.boolean)
  | integer => cases (congrArg Value.type hv : ValueType.string = ValueType.integer)
  | quoted hne => exact hne (congrArg Value.stringValue hv).symm
  | bare h => exact h.ne_nil (congrArg Value.stringValue hv).symm

/-- Any such assignments, the one that leaves a quote open at the end. -/
theorem exists_content (hxs : ∀ x ∈ xs, IsIdentifier x.1 ∧ Writable x.2) (hopens : xs.Pairwise fun x _ => ¬ Opens x.2) :
    ∃ content, Blocks content xs ∧ Lined content ∧ (xs = [] → content = []) := by
  induction xs with
  | nil => exact ⟨[], .nil, lined_nil, fun _ => rfl⟩
  | cons x xs ih =>
    obtain ⟨⟨hk, hv⟩, hxs⟩ := List.forall_mem_cons.mp hxs
    obtain ⟨hx, hopens⟩ := List.pairwise_cons.mp hopens
    obtain ⟨r, hblocks, hlined, hnil⟩ := ih hxs hopens
    have hquote : Opens x.2 → 34 ∉ 32 :: 35 :: 10 :: 10 :: r := by
      intro hopen
      have hlast : xs = [] := List.eq_nil_iff_forall_not_mem.mpr fun y hy => hx y hy hopen
      rw [hnil hlast]
      decide
    obtain ⟨t, hread, hstops, hline⟩ := hv.reads (stops_cons (by decide)) (stops_cons (by decide)) hquote
    exact ⟨_, .cons (statement_front hk hread hstops) hblocks, (lined_statement hk hline).append hlined, nofun⟩

theorem foldl_stored_of_perm (hperm : xs.Perm values.toList) (hxs : ∀ x ∈ xs, x.2 ≠ .fromString []) :
    xs.foldl stored ∅ = values := by
  have hinsert : ∀ {xs : List (Bytes × Value)} {values : OrdMap Bytes Value}, (∀ x ∈ xs, x.2 ≠ .fromString []) →
      xs.foldl stored values = values.insertMany xs := by
    intro xs values hxs
    induction xs generalizing values with
    | nil => rfl
    | cons x xs ih =>
      obtain ⟨hx, hxs⟩ := List.forall_mem_cons.mp hxs
      have hstored : stored values x = values.insert x.1 x.2 := if_neg hx
      rw [List.foldl_cons, ih hxs, hstored, OrdMap.insertMany_cons]
  have hsorted : (values.toList.map Prod.fst).Nodup :=
    (List.pairwise_map.mpr values.sorted).imp fun hlt => ne_of_lt hlt
  have hsame := (OrdMap.toList_ofList_perm ((hperm.map Prod.fst).nodup_iff.mpr hsorted)).trans hperm
  rw [hinsert hxs]
  refine OrdMap.ext_find? fun k => Option.ext fun v => ?_
  rw [← OrdMap.mem_iff_find?, ← OrdMap.mem_iff_find?]
  exact hsame.mem_iff

theorem Expressible.loads (h : Expressible values) :
    ∃ content xs, Blocks content xs ∧ Lined content ∧ xs.foldl stored ∅ = values := by
  classical
  have hfind : ∀ x ∈ values.toList, values.find? x.1 = some x.2 := fun x hx => (values.mem_iff_find? x.1 x.2).mp hx
  let xs := values.toList.filter (fun x => ¬ Opens x.2) ++ values.toList.filter fun x => Opens x.2
  have hperm : xs.Perm values.toList := by
    have hsplit := List.filter_append_perm (fun x : Bytes × Value => decide (¬ Opens x.2)) values.toList
    simpa [xs] using hsplit
  have hxs : ∀ x ∈ xs, IsIdentifier x.1 ∧ Writable x.2 := fun x hx =>
    have hx := hfind x (hperm.mem_iff.mp hx)
    ⟨h.keys x.1 x.2 hx, h.writable x.1 x.2 hx⟩
  have hopens : xs.Pairwise fun x _ => ¬ Opens x.2 := by
    have hclosed : ∀ x ∈ values.toList.filter (fun x => ¬ Opens x.2), ¬ Opens x.2 := fun x hx => by
      simpa using List.of_mem_filter hx
    refine List.pairwise_append.mpr ⟨List.Pairwise.imp_of_mem (fun hx _ _ => hclosed _ hx) (values.sorted.filter _), ?_,
      fun x hx y hy => hclosed x hx⟩
    refine List.Pairwise.imp_of_mem (fun hx hy hlt hopen => ?_) (values.sorted.filter _)
    obtain ⟨hx, -⟩ := List.mem_filter.mp hx
    obtain ⟨hy, hopen'⟩ := List.mem_filter.mp hy
    exact absurd (h.opens _ _ _ _ (hfind _ hx) (hfind _ hy) hopen (by simpa using hopen')) (ne_of_lt hlt)
  obtain ⟨content, hblocks, hlined, -⟩ := exists_content hxs hopens
  exact ⟨content, xs, hblocks, hlined, foldl_stored_of_perm hperm fun x hx => (hxs x hx).2.ne_empty⟩

/-- A file loads these values, and no others, into an empty configuration. -/
theorem expressible_iff (values : OrdMap Bytes Value) :
    (∃ read fuel path c, load read fuel path ⟨∅, []⟩ = some (.ok true, c) ∧ c.values = values) ↔ Expressible values := by
  constructor
  · rintro ⟨read, fuel, path, c, hload, rfl⟩
    obtain ⟨-, hfalse, -⟩ | ⟨-, ⟨e, -, hthrown, -⟩ | ⟨content, x, b, -, hexpand, -, hb, -, hparse⟩⟩ := load_cases hload
    · cases hfalse
    · cases hthrown
    · obtain rfl := Except.ok.inj hb
      obtain ⟨xs, hblocks, hvalues⟩ := parsePrl_true.mp ⟨fuel, hparse⟩
      rw [hvalues]
      exact hblocks.expressible (preprocess_lined hexpand)
  · intro h
    obtain ⟨content, xs, hblocks, hlined, hvalues⟩ := h.loads
    obtain ⟨fuel, hload⟩ := load_of_blocks hblocks hlined []
    exact ⟨_, fuel, [], _, hload, hvalues⟩

end Contents

end Passdoq.Runcom
