import Passdoq.Runcom.Language

/-!
# Literals in assignments

What `k = t` makes of a scalar token `t`, and of a list.

* `Denotes t v` : the value that a token stands for; `ReadsScalar` : the assignment takes all of `t` and stores that value;
* `scalar_iff` : it does so exactly for the tokens of `Scalar`. The alternatives of `value` are tried in order and are not
  asked whether the token has ended, so that a token which goes on behind a boolean or a number is cut;
* `ListText` : the text of a list; `list_not_read` : no list is read, since the parser does not come back from one.
-/

namespace Passdoq.Runcom

open Peg

variable {k t i r : Bytes} {s : ParseState} {o : Outcome ParseState} {values : OrdMap Bytes Value} {v : Value}

/-! ## The parts of an assignment -/

theorem stops_identOther {w : Bytes} (hw : ∀ c ∈ w, isSpace c) (j : Bytes) : Stops isIdentOther (w ++ 61 :: j) :=
  stops_append (fun c hc => not_identOther_of_isSpace (hw c hc)) (stops_cons (by decide))

/-- The text up to the equals sign determines the key; what is left is blanks and the value. -/
theorem Assigns.parts {a w j : Bytes} {x : Bytes × Value} (h : Assigns a r x) (hk : IsIdentifier k)
    (hw : ∀ c ∈ w, isSpace c) (hsplit : a ++ r = k ++ (w ++ 61 :: j)) :
    x.1 = k ∧ ∃ w₂ t, a = k ++ (w ++ 61 :: (w₂ ++ t)) ∧ j = w₂ ++ (t ++ r) ∧ Spaces w₂ (t ++ r) ∧ Reads t r x.2 := by
  cases h with
  | @mk k' w₁ w₂ t _ v hk' hw₁ hw₂ hv =>
    have hkeys : k' ++ (w₁ ++ 61 :: (w₂ ++ (t ++ r))) = k ++ (w ++ 61 :: j) := by simpa using hsplit
    obtain ⟨rfl, hrest⟩ := scans_identifier.unique (.start ∅) ⟨hk', stops_identOther hw₁ _⟩ ⟨hk, stops_identOther hw _⟩ hkeys
    have hequal : ∀ j', Stops isSpace (61 :: j') := fun j' => stops_cons (by decide)
    obtain ⟨rfl, hcons⟩ := scans_ws.unique (.start ∅) ⟨hw₁, hequal _⟩ ⟨hw, hequal _⟩ hrest
    obtain ⟨-, rfl⟩ := List.cons.inj hcons
    exact ⟨rfl, w₂, t, rfl, rfl, hw₂, hv⟩

/-! ## Scalars -/

/-- A token as it may stand for a scalar: no blank, comment sign, quote or bracket in it. -/
def Token (t : Bytes) : Prop := t ≠ [] ∧ ∀ c ∈ t, isBare c ∧ c ≠ 34 ∧ c ≠ 91

/-- The number that a sign and digits denote. -/
def denoted (t : Bytes) : Int := if t.head? = some 45 then -Decimal.valueOf 0 t.tail else Decimal.valueOf 0 t

/-- An integer in the range of `int64_t`. -/
def Fits (t : Bytes) : Prop := IsInteger t ∧ -2 ^ 63 ≤ denoted t ∧ denoted t < 2 ^ 63

/-- What a token stands for. Digits that do not fit stand for nothing. -/
inductive Denotes (t : Bytes) : Value → Prop
  | boolean (h : t ∈ booleans) : Denotes t (.fromBool (t = ascii "true" ∨ t = ascii "yes" ∨ t = ascii "1"))
  | integer (h : t ∉ booleans) (hi : Fits t) : Denotes t (.fromInt (denoted t))
  | string (h : t ∉ booleans) (hi : ¬ Fits t) (hdigits : ¬ ∀ c ∈ t, Decimal.isDigit c) : Denotes t (.fromString t)

/-- In front of `r` the assignment of `t` to `k` takes all of `t` and stores what `t` stands for. -/
def ReadsScalar (k t r : Bytes) (values : OrdMap Bytes Value) : Prop := ∀ v, Denotes t v →
  Yields assignment (k ++ ascii " = " ++ t ++ r) (.start values) (.ok r (.start (values.insert k v)))

/-- The tokens that no earlier alternative cuts: digits that do not fit, or a token which `ws` takes nothing from and
which is a boolean, or begins with no boolean and is an integer that fits or begins with no integer. -/
def Scalar (t : Bytes) : Prop :=
  ((∀ c ∈ t, Decimal.isDigit c) ∧ ¬ Fits t) ∨
  (Stops isSpace t ∧ (t ∈ booleans ∨
    ((∀ b ∈ booleans, ¬ b <+: t) ∧ (Fits t ∨ ∀ w, w <+: t → ¬ IsInteger w))))

theorem stoll_eq_some {n : Int} : Action.stoll t = some n ↔ (-2 ^ 63 ≤ denoted t ∧ denoted t < 2 ^ 63) ∧ denoted t = n := by
  unfold Action.stoll denoted
  dsimp only
  split_ifs <;> simp_all

theorem prefix_of_bare {b : Bytes} (hb : ∀ c ∈ b, isBare c) (hr : Stops isBare r) (h : b <+: t ++ r) : b <+: t := by
  obtain hp | ⟨u, rfl⟩ := List.prefix_or_prefix_of_prefix h (List.prefix_append t r)
  · exact hp
  · cases u with
    | nil => simp
    | cons c u =>
      -- the byte behind `t` would be bare
      obtain ⟨r', hr'⟩ := (List.prefix_append_right_inj t).mp h
      have hhead : r.head? = some c := by rw [← hr']; rfl
      have hbare := hb c (by simp)
      rw [hr c hhead] at hbare
      cases hbare

theorem isBare_of_isDigit {c : UInt8} (h : Decimal.isDigit c) : isBare c := by
  by_contra hbare
  simp only [isBare, Bool.not_eq_true, Bool.not_eq_false', Bool.or_eq_true, beq_iff_eq] at hbare
  rcases hbare with (((rfl | rfl) | rfl) | rfl) | rfl <;> exact absurd h (by decide)

theorem IsInteger.isBare {w : Bytes} (h : IsInteger w) : ∀ c ∈ w, isBare c := by
  obtain ⟨ds, rfl | rfl, -, hds⟩ := h
  · exact fun c hc => isBare_of_isDigit (hds c hc)
  · intro c hc
    obtain rfl | hc := List.mem_cons.mp hc
    · decide
    · exact isBare_of_isDigit (hds c hc)

theorem isBare_booleans : ∀ b ∈ booleans, ∀ c ∈ b, isBare c := by decide

theorem absent_booleanToken (hr : Stops isBare r) : Absent BooleanToken (t ++ r) ↔ ∀ b ∈ booleans, ¬ b <+: t := by
  constructor
  · rintro habs b hb ⟨u, rfl⟩
    exact habs b (u ++ r) (List.append_assoc _ _ _) hb
  · intro hno w r' hi hw
    exact hno w hw (prefix_of_bare (isBare_booleans w hw) hr ⟨r', hi.symm⟩)

theorem IsInteger.token {w : Bytes} (h : IsInteger w) (j : Bytes) : ∃ u r, w ++ j = u ++ r ∧ IntegerToken u r := by
  obtain ⟨u, r, rfl, hu, hr⟩ := exists_run Decimal.isDigit j
  refine ⟨w ++ u, r, (List.append_assoc _ _ _).symm, ?_, hr⟩
  obtain ⟨ds, hw, hne, hds⟩ := h
  refine ⟨ds ++ u, ?_, by simp [hne], ?_⟩
  · rcases hw with rfl | rfl
    · exact .inl rfl
    · exact .inr rfl
  · intro c hc
    obtain hc | hc := List.mem_append.mp hc
    · exact hds c hc
    · exact hu c hc

theorem absent_integerToken (hr : Stops isBare r) : Absent IntegerToken (t ++ r) ↔ ∀ w, w <+: t → ¬ IsInteger w := by
  constructor
  · rintro habs w ⟨u, rfl⟩ hw
    obtain ⟨v, r', hv, htoken⟩ := hw.token (u ++ r)
    exact habs v r' ((List.append_assoc _ _ _).trans hv) htoken
  · intro hno w r' hi hw
    exact hno w (prefix_of_bare hw.1.isBare hr ⟨r', hi.symm⟩) hw.1

section Token

theorem Token.head_ne (ht : Token t) {c : UInt8} (hc : c = 34 ∨ c = 91) (r : Bytes) : (t ++ r).head? ≠ some c := by
  rw [List.head?_append_of_ne_nil _ ht.1]
  intro hhead
  have hmem := ht.2 c (List.mem_of_mem_head? hhead)
  rcases hc with rfl | rfl
  · exact hmem.2.1 rfl
  · exact hmem.2.2 rfl

theorem Token.stringToken (ht : Token t) (hr : Stops isBare r) : StringToken t r := by
  refine .inr ⟨?_, ht.1, fun c hc => (ht.2 c hc).1, hr⟩
  rintro _ r' hi ⟨u, rfl, -⟩
  exact ht.head_ne (.inl rfl) r (by rw [hi]; rfl)

theorem Token.unquote (ht : Token t) : Action.unquote t = t := by
  have hhead := ht.head_ne (.inl rfl) []
  rw [List.append_nil] at hhead
  unfold Action.unquote
  rw [if_neg fun h => hhead h.1]

theorem Token.listless (ht : Token t) (r : Bytes) : Listless (t ++ r) := listless_of_head (ht.head_ne (.inr rfl) r)

theorem Token.reads_iff (ht : Token t) (hr : Stops isBare r) : Reads t r v ↔
    (t ∈ booleans ∧ v = .fromBool (t = ascii "true" ∨ t = ascii "yes" ∨ t = ascii "1")) ∨
    ((∀ b ∈ booleans, ¬ b <+: t) ∧ Fits t ∧ v = .fromInt (denoted t)) ∨
    ((∀ b ∈ booleans, ¬ b <+: t) ∧ (∀ w, w <+: t → ¬ IsInteger w) ∧ v = .fromString t) := by
  constructor
  · intro h
    cases h with
    | boolean h => exact .inl ⟨h, rfl⟩
    | @integer n hboolean h hn =>
      obtain ⟨hfits, rfl⟩ := stoll_eq_some.mp hn
      exact .inr (.inl ⟨(absent_booleanToken hr).mp hboolean, ⟨h.1, hfits⟩, rfl⟩)
    | string hlist hboolean hinteger h =>
      rw [ht.unquote]
      exact .inr (.inr ⟨(absent_booleanToken hr).mp hboolean, (absent_integerToken hr).mp hinteger, rfl⟩)
  · have hdigit : Stops Decimal.isDigit r := by
      intro c hc
      by_contra hdigit
      have hbare := isBare_of_isDigit (Bool.eq_true_of_not_eq_false hdigit)
      rw [hr c hc] at hbare
      cases hbare
    rintro (⟨h, rfl⟩ | ⟨hboolean, hfits, rfl⟩ | ⟨hboolean, hinteger, rfl⟩)
    · exact .boolean h
    · exact .integer ((absent_booleanToken hr).mpr hboolean) ⟨hfits.1, hdigit⟩ (stoll_eq_some.mpr ⟨hfits.2, rfl⟩)
    · have hread : Reads t r (.fromString (Action.unquote t)) := .string (ht.listless r)
        ((absent_booleanToken hr).mpr hboolean) ((absent_integerToken hr).mpr hinteger) (ht.stringToken hr)
      rwa [ht.unquote] at hread

end Token

/-- What is read behind the equals sign: the blanks in front of the token are dropped, also those it begins with. -/
theorem yields_literal (hk : IsIdentifier k) {s' : ParseState} :
    Yields assignment (k ++ ascii " = " ++ t ++ r) (.start values) (.ok r s') ↔
      ∃ u w v, t = u ++ w ∧ (∀ c ∈ u, isSpace c) ∧ Stops isSpace (w ++ r) ∧ Reads w r v ∧
        s' = .start (stored values (k, v)) := by
  have hequals : ascii " = " = [32, 61, 32] := by decide
  have hblank : ∀ c ∈ ([32] : Bytes), isSpace c := by simp [isSpace, Decimal.isSpace]
  rw [assignment_ok, hequals]
  constructor
  · rintro ⟨a, x, hsplit, ha, rfl⟩
    have hparts : a ++ r = k ++ ([32] ++ 61 :: (32 :: (t ++ r))) := by simpa using hsplit.symm
    obtain ⟨rfl, w₂, w, rfl, hrest, hw₂, hread⟩ := ha.parts hk hblank hparts
    have htoken : 32 :: t = w₂ ++ w := by
      have hsame : (32 :: t) ++ r = (w₂ ++ w) ++ r := by simpa using hrest
      exact List.append_cancel_right hsame
    cases w₂ with
    | nil =>
      -- the blank behind the equals sign would be left
      obtain rfl : w = 32 :: t := htoken.symm
      exact absurd (hw₂.2 32 rfl) (by decide)
    | cons c u =>
      obtain ⟨rfl, rfl⟩ := List.cons.inj htoken
      exact ⟨u, w, x.2, rfl, fun d hd => hw₂.1 d (List.mem_cons_of_mem _ hd), hw₂.2, hread, rfl⟩
  · rintro ⟨u, w, v, rfl, hu, hw, hread, rfl⟩
    have hspaces : Spaces (32 :: u) (w ++ r) := by
      refine ⟨fun c hc => ?_, hw⟩
      obtain rfl | hc := List.mem_cons.mp hc
      · decide
      · exact hu c hc
    exact ⟨_, (k, v), by simp, .mk hk hblank hspaces hread, rfl⟩

theorem stored_of_ne (values : OrdMap Bytes Value) (hv : v ≠ .fromString []) : stored values (k, v) = values.insert k v :=
  if_neg hv

theorem Reads.ne_nil (h : Reads t r v) : t ≠ [] := by
  rintro rfl
  cases h with
  | boolean h =>
    have hnil : ([] : Bytes) ∉ booleans := by decide
    exact hnil h
  | integer hboolean h hi =>
    obtain ⟨⟨ds, hds, hne, -⟩, -⟩ := h
    rcases hds with rfl | hds
    · exact hne rfl
    · cases hds
  | string hlist hboolean hinteger h =>
    rcases h with ⟨u, hu, -⟩ | ⟨-, hne, -⟩
    · cases hu
    · exact hne rfl

theorem Denotes.ne_empty (h : Denotes t v) (ht : t ≠ []) : v ≠ .fromString [] := by
  cases h with
  | boolean h => simp [Value.fromBool, Value.fromString]
  | integer h hi => simp [Value.fromInt, Value.fromString]
  | string h hi hdigits => simpa [Value.fromString] using ht

theorem Token.reads_ne_empty (ht : Token t) (hr : Stops isBare r) (h : Reads t r v) : v ≠ .fromString [] := by
  rcases (ht.reads_iff hr).mp h with ⟨-, rfl⟩ | ⟨-, -, rfl⟩ | ⟨-, -, rfl⟩
  · simp [Value.fromBool, Value.fromString]
  · simp [Value.fromInt, Value.fromString]
  · simpa [Value.fromString] using ht.1

theorem stops_booleans : ∀ b ∈ booleans, Stops isSpace b := by
  have hall : ∀ b ∈ booleans, b.head?.all (fun c => !isSpace c) = true := by decide
  intro b hb c hc
  have hspace := hall b hb
  rw [Option.mem_def.mp hc, Option.all_some, Bool.not_eq_true'] at hspace
  exact hspace

theorem digits_booleans : ∀ b ∈ booleans, (∀ c ∈ b, Decimal.isDigit c) → b = [49] ∨ b = [48] := by
  decide

theorem fits_digit {c : UInt8} (hc : c = 49 ∨ c = 48) : Fits [c] := by
  refine ⟨⟨[c], .inl rfl, by simp, ?_⟩, ?_⟩
  · rcases hc with rfl | rfl <;> simp [Decimal.isDigit]
  · rcases hc with rfl | rfl <;> decide

theorem IsInteger.stops {w : Bytes} (h : IsInteger w) : Stops isSpace w := by
  obtain ⟨ds, hw, hne, hds⟩ := h
  obtain ⟨d, ds, rfl⟩ := List.exists_cons_of_ne_nil hne
  rcases hw with rfl | rfl
  · refine stops_cons ?_
    by_contra hspace
    have hdigit := hds d (by simp)
    have hother := not_identOther_of_isSpace (Bool.eq_true_of_not_eq_false hspace)
    rw [isIdentOther, hdigit, Bool.or_true] at hother
    cases hother
  · exact stops_cons (by decide)

theorem exists_denotes (h : ¬ ((∀ c ∈ t, Decimal.isDigit c) ∧ ¬ Fits t)) : ∃ v, Denotes t v := by
  by_cases hboolean : t ∈ booleans
  · exact ⟨_, .boolean hboolean⟩
  · by_cases hfits : Fits t
    · exact ⟨_, .integer hboolean hfits⟩
    · exact ⟨_, .string hboolean hfits fun hdigits => h ⟨hdigits, hfits⟩⟩

theorem Denotes.of_blank (h : Denotes t v) (hblank : ¬ Stops isSpace t) : v = .fromString t := by
  cases h with
  | boolean hboolean => exact absurd (stops_booleans t hboolean) hblank
  | integer hboolean hfits => exact absurd hfits.1.stops hblank
  | string hboolean hfits hdigits => rfl

theorem Token.not_reads_longer {w : Bytes} (hw : Token w) (hr : Stops isBare r) (hlong : w.length < t.length) :
    ¬ Reads w r (.fromString t) := by
  intro h
  rcases (hw.reads_iff hr).mp h with ⟨-, hv⟩ | ⟨-, -, hv⟩ | ⟨-, -, hv⟩
  · simp [Value.fromString, Value.fromBool] at hv
  · simp [Value.fromString, Value.fromInt] at hv
  · have hsame := congrArg (fun v => v.stringValue.length) hv
    simp only [Value.fromString] at hsame
    omega

/-- A token that is stored as what it stands for has not been cut. -/
theorem scalar_of_reads (hk : IsIdentifier k) (ht : Token t) (hr : Stops isBare r) (h : ReadsScalar k t r values) :
    Scalar t := by
  by_cases hout : (∀ c ∈ t, Decimal.isDigit c) ∧ ¬ Fits t
  · exact .inl hout
  · right
    obtain ⟨v, hv⟩ := exists_denotes hout
    obtain ⟨u, w, v', rfl, hu, hw, hread, hstored⟩ := (yields_literal hk).mp (h v hv)
    have hword : Token w := ⟨hread.ne_nil, fun c hc => ht.2 c (List.mem_append_right u hc)⟩
    have hsame : v' = v := by
      have hvalues : values.insert k v = stored values (k, v') := congrArg ParseState.values hstored
      rw [stored_of_ne values (hword.reads_ne_empty hr hread)] at hvalues
      have hfind := congrArg (OrdMap.find? · k) hvalues
      simp only [OrdMap.find?_insert, if_true, Option.some.injEq] at hfind
      exact hfind.symm
    subst hsame
    cases u with
    | nil =>
      have hstops : Stops isSpace w := by
        intro c hc
        exact hw c (by rwa [List.head?_append_of_ne_nil _ hread.ne_nil])
      refine ⟨hstops, ?_⟩
      rcases (hword.reads_iff hr).mp hread with ⟨hboolean, -⟩ | ⟨hboolean, hfits, -⟩ | ⟨hboolean, hinteger, -⟩
      · exact .inl hboolean
      · exact .inr ⟨hboolean, .inl hfits⟩
      · exact .inr ⟨hboolean, .inr hinteger⟩
    | cons c u =>
      -- the blank that the token begins with was dropped, and what it stands for is not read without it
      exfalso
      have hblank : ¬ Stops isSpace (c :: u ++ w) := by
        intro hstops
        have hspace := hu c (by simp)
        rw [hstops c rfl] at hspace
        cases hspace
      rw [hv.of_blank hblank] at hread
      refine hword.not_reads_longer hr ?_ hread
      rw [List.length_append, List.length_cons]
      omega

theorem reads_of_scalar (hk : IsIdentifier k) (ht : Token t) (hr : Stops isBare r) (h : Scalar t) :
    ReadsScalar k t r values := by
  intro v hv
  rcases h with ⟨hdigits, hfits⟩ | ⟨hstops, h⟩
  · -- digits that do not fit stand for nothing
    exfalso
    cases hv with
    | boolean hboolean =>
      rcases digits_booleans t hboolean hdigits with rfl | rfl
      · exact hfits (fits_digit (.inl rfl))
      · exact hfits (fits_digit (.inr rfl))
    | integer hboolean hi => exact hfits hi
    | string hboolean hi hd => exact hd hdigits
  · have hread : Reads t r v := by
      refine (ht.reads_iff hr).mpr ?_
      rcases h with hboolean | ⟨hno, h⟩
      · cases hv with
        | boolean _ => exact .inl ⟨hboolean, rfl⟩
        | integer hnot _ => exact absurd hboolean hnot
        | string hnot _ _ => exact absurd hboolean hnot
      · cases hv with
        | boolean hboolean => exact absurd (List.prefix_refl t) (hno t hboolean)
        | integer _ hfits => exact .inr (.inl ⟨hno, hfits, rfl⟩)
        | string _ hnot _ =>
          rcases h with hfits | hinteger
          · exact absurd hfits hnot
          · exact .inr (.inr ⟨hno, hinteger, rfl⟩)
    have hspaces : Stops isSpace (t ++ r) := by
      intro c hc
      rw [List.head?_append_of_ne_nil _ ht.1] at hc
      exact hstops c hc
    refine (yields_literal hk).mpr ⟨[], t, v, rfl, by simp, hspaces, hread, ?_⟩
    rw [stored_of_ne values (hv.ne_empty ht.1)]

/-- A scalar is read whole and with the right type exactly when no earlier alternative cuts it. -/
theorem scalar_iff (hk : IsIdentifier k) (ht : Token t) (hr : Stops isBare r) : ReadsScalar k t r values ↔ Scalar t :=
  ⟨scalar_of_reads hk ht hr, reads_of_scalar hk ht hr⟩

theorem identifier_key : IsIdentifier (ascii "key") := ⟨107, ascii "ey", by decide, by decide, by decide⟩

/-- `no` is a Boolean. -/
theorem scalar_iff_no : ReadsScalar (ascii "key") (ascii "no") [] ∅ := by
  have htoken : Token (ascii "no") := by
    unfold Token
    decide +kernel
  have hscalar : Scalar (ascii "no") := .inr ⟨stops_booleans _ (by decide +kernel), .inl (by decide +kernel)⟩
  exact (scalar_iff identifier_key htoken stops_nil).mpr hscalar

/-- `1234` begins with the Boolean `1`, and so does not become an integer. -/
theorem scalar_iff_digits : ¬ ReadsScalar (ascii "key") (ascii "1234") [] ∅ := by
  have htoken : Token (ascii "1234") := by
    unfold Token
    decide +kernel
  have hfits : Fits (ascii "1234") :=
    ⟨⟨ascii "1234", .inl rfl, by decide +kernel, by decide +kernel⟩, by decide +kernel⟩
  intro hreads
  rcases scalar_of_reads identifier_key htoken stops_nil hreads with ⟨-, hnot⟩ | ⟨-, hboolean | ⟨hno, -⟩⟩
  · exact hnot hfits
  · revert hboolean
    decide +kernel
  · exact hno [49] (by decide +kernel) ⟨ascii "234", by decide +kernel⟩

/-! ## Lists -/

/-- `Config::get_list`. -/
def getList (values : OrdMap Bytes Value) (key : Bytes) : List Bytes :=
  match values.find? key with
  | none => []
  | some v => if v.type = .list then v.listValue else []

/-- The text of one item, and the item. -/
inductive ItemText : Bytes → Bytes → Prop
  | quoted {u : Bytes} (hu : 34 ∉ u) : ItemText (34 :: (u ++ [34])) u
  | word {w : Bytes} (hne : w ≠ [])
      (hw : ∀ c ∈ w, isSpace c = false ∧ c ≠ 35 ∧ c ≠ 44 ∧ c ≠ 91 ∧ c ≠ 93 ∧ c ≠ 34) : ItemText w w

/-- The text between the brackets of a list, and its items: commas between them, spaces and tabs around each. -/
inductive ListText : Bytes → List Bytes → Prop
  | last {a w b x : Bytes} (ha : ∀ c ∈ a, c = 32 ∨ c = 9) (h : ItemText w x) (hb : ∀ c ∈ b, c = 32 ∨ c = 9) :
      ListText (a ++ (w ++ b)) [x]
  | cons {a w b x rest : Bytes} {xs : List Bytes} (ha : ∀ c ∈ a, c = 32 ∨ c = 9) (h : ItemText w x)
      (hb : ∀ c ∈ b, c = 32 ∨ c = 9) (hrest : ListText rest xs) : ListText (a ++ (w ++ (b ++ 44 :: rest))) (x :: xs)

/-- In front of `r` the assignment of the list `text` to `k` takes all of it and stores the items. -/
def ReadsList (k text r : Bytes) (items : List Bytes) (values : OrdMap Bytes Value) : Prop :=
  ∃ after, Yields assignment (k ++ ascii " = [" ++ text ++ 93 :: r) (.start values) (.ok r (.start after)) ∧
    after = values.insert k (.fromList items) ∧ getList after k = items

theorem exists_stringToken {c : UInt8} {j : Bytes} (hc : isBare c) : ∃ w r, c :: j = w ++ r ∧ StringToken w r := by
  obtain ⟨w, r, hi, hw⟩ | habs := present_or_absent (fun w _ => Quoted w) (c :: j)
  · exact ⟨w, r, hi, .inl hw⟩
  · obtain ⟨w, r, hi, hw, hr⟩ := exists_run isBare (c :: j)
    refine ⟨w, r, hi, .inr ⟨hi ▸ habs, ?_, hw, hr⟩⟩
    rintro rfl
    obtain rfl : c :: j = r := hi
    have hbare := hr c rfl
    rw [hc] at hbare
    cases hbare

theorem isBare_of_not_isSpace {c : UInt8} (h : isSpace c = false) (hc : c ≠ 35) : isBare c := by
  by_contra hbare
  simp only [isBare, Bool.not_eq_true, Bool.not_eq_false', Bool.or_eq_true, beq_iff_eq] at hbare
  rcases hbare with (((rfl | rfl) | rfl) | rfl) | hbare
  · exact absurd h (by decide)
  · exact absurd h (by decide)
  · exact absurd h (by decide)
  · exact absurd h (by decide)
  · exact hc hbare

theorem ItemText.head {w x : Bytes} (h : ItemText w x) : ∃ c u, w = c :: u ∧ isBare c ∧ isSpace c = false := by
  cases h with
  | quoted hu => exact ⟨34, _, rfl, by decide, by decide⟩
  | word hne hw =>
    obtain ⟨c, u, rfl⟩ := List.exists_cons_of_ne_nil hne
    obtain ⟨hspace, hhash, -⟩ := hw c (by simp)
    exact ⟨c, u, rfl, isBare_of_not_isSpace hspace hhash, hspace⟩

/-- Behind the bracket and the blanks an item stands. -/
theorem ListText.front {text : Bytes} {items : List Bytes} (h : ListText text items) :
    ∃ a c j, text = a ++ c :: j ∧ (∀ d ∈ a, isSpace d) ∧ isBare c ∧ isSpace c = false := by
  have hblank : ∀ {a : Bytes}, (∀ d ∈ a, d = 32 ∨ d = 9) → ∀ d ∈ a, isSpace d := by
    intro a ha d hd
    rcases ha d hd with rfl | rfl <;> simp [isSpace, Decimal.isSpace]
  cases h with
  | @last a w b x ha hw hb =>
    obtain ⟨c, u, rfl, hbare, hspace⟩ := hw.head
    exact ⟨a, c, u ++ b, rfl, hblank ha, hbare, hspace⟩
  | @cons a w b x rest xs ha hw hb hrest =>
    obtain ⟨c, u, rfl, hbare, hspace⟩ := hw.head
    exact ⟨a, c, u ++ (b ++ 44 :: rest), rfl, hblank ha, hbare, hspace⟩

theorem ListText.not_listless {text : Bytes} {items : List Bytes} (h : ListText text items) (j : Bytes) :
    ¬ Listless (91 :: (text ++ j)) := by
  obtain ⟨a, c, u, rfl, ha, hbare, hspace⟩ := h.front
  intro hlistless
  obtain ⟨w, r, hi, hw⟩ := exists_stringToken (j := u ++ j) hbare
  have habs := hlistless a (c :: (u ++ j)) (by simp) ⟨ha, stops_cons hspace⟩
  exact habs w r hi hw

/-- The parser does not come back from a list. -/
theorem not_yields_list {text : Bytes} {items : List Bytes} (h : ListText text items) (j : Bytes) :
    ¬ Yields value (91 :: (text ++ j)) s o := by
  intro hvalue
  obtain ⟨x, hx, -⟩ := yields_sor.mp hvalue
  exact h.not_listless j (listValue_cases hx).2

theorem not_yields_assignment (hk : IsIdentifier k) {text : Bytes} {items : List Bytes} (h : ListText text items) :
    ¬ Yields assignment (k ++ ascii " = [" ++ text ++ 93 :: r) s o := by
  have hequals : ascii " = [" = [32, 61, 32, 91] := by decide
  have hblank : ∀ c ∈ ([32] : Bytes), isSpace c := by simp [isSpace, Decimal.isSpace]
  have hsplit : k ++ ascii " = [" ++ text ++ 93 :: r = k ++ (32 :: 61 :: 32 :: 91 :: (text ++ 93 :: r)) := by simp [hequals]
  rw [hsplit]
  intro hassign
  obtain ⟨x, hx, -⟩ := yields_act.mp hassign
  have hkey : Yields identifier (k ++ (32 :: 61 :: 32 :: 91 :: (text ++ 93 :: r))) s
      (.ok (32 :: 61 :: 32 :: 91 :: (text ++ 93 :: r)) { s with currentKey := k }) :=
    scans_identifier.act_ok ⟨hk, stops_identOther hblank _⟩ rfl
  have hspace : ∀ {c : UInt8} {j : Bytes} {s : ParseState}, isSpace c = false →
      Yields ws (32 :: c :: j) s (.ok (c :: j) s) :=
    fun hc => scans_ws.ok [32] _ _ ⟨hblank, stops_cons hc⟩
  obtain ⟨y, hy, hx⟩ := yields_seq.mp hx
  obtain rfl := hy.unique hkey
  obtain ⟨y, hy, hx⟩ := yields_seq.mp hx
  obtain rfl := hy.unique (hspace (by decide))
  obtain ⟨y, hy, hx⟩ := yields_seq.mp hx
  obtain rfl := hy.unique (scans_one.ok [61] _ _ rfl)
  obtain ⟨y, hy, hx⟩ := yields_seq.mp hx
  obtain rfl := hy.unique (hspace (by decide))
  exact not_yields_list h _ hx

theorem list_not_read (hk : IsIdentifier k) {text : Bytes} {items : List Bytes} (h : ListText text items) :
    ¬ ReadsList k text r items values := by
  rintro ⟨after, hyields, -⟩
  exact not_yields_assignment hk h hyields

theorem listText_word : ListText (ascii "word") [ascii "word"] := by
  have hword : ItemText (ascii "word") (ascii "word") := .word (by decide) (by decide)
  have htext := ListText.last (a := []) (b := []) (by simp) hword (by simp)
  simpa using htext

/-- The list `[word]` at the end of the input. -/
theorem list_not_read_word : ¬ ReadsList (ascii "key") (ascii "word") [] [ascii "word"] ∅ :=
  list_not_read identifier_key listText_word

/-- In front of a comment it is not read either. -/
theorem list_not_read_hangs : ¬ ReadsList (ascii "key") (ascii "word") (ascii " # comment") [ascii "word"] ∅ := by
  rintro ⟨after, hyields, -⟩
  exact not_yields_assignment identifier_key listText_word hyields

end Passdoq.Runcom
