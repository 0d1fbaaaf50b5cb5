import Passdoq.Lib.Peg
import Mathlib

/-!
# Recognisers

A parsing expression without actions takes a piece off the input and leaves the state alone. Which piece it takes
depends on what follows, so it is described by a relation between a token and the input behind it.

* `Scans g T` : `g` takes exactly the tokens `T`; one rule for each expression;
* `Scans.cases` : what a recogniser yields;
* `Scans.act_ok`, `Scans.act_cases` : a recogniser with an action;
* `Stops p r` : the input `r` does not go on with a byte of the class `p`.
-/

namespace Peg

variable {σ : Type} {T T₁ T₂ : Bytes → Bytes → Prop} {a b g : Peg σ} {p : UInt8 → Bool} {i r : Bytes} {s : σ} {o : Outcome σ}

/-- No token `T` stands at the front of `i`. -/
def Absent (T : Bytes → Bytes → Prop) (i : Bytes) : Prop := ∀ w r, i = w ++ r → ¬ T w r

/-- `g` takes a token `w` off the input when the rest `r` behind it satisfies `T w r`, fails when there is none, and has
no effects. -/
structure Scans (g : Peg σ) (T : Bytes → Bytes → Prop) : Prop where
  ok : ∀ w r s, T w r → Yields g (w ++ r) s (.ok r s)
  fail : ∀ i s, Absent T i → Yields g i s (.fail s)

theorem present_or_absent (T : Bytes → Bytes → Prop) (i : Bytes) : (∃ w r, i = w ++ r ∧ T w r) ∨ Absent T i := by
  by_cases h : ∃ w r, i = w ++ r ∧ T w r
  · exact .inl h
  · exact .inr fun w r hi hT => h ⟨w, r, hi, hT⟩

theorem Scans.cases (hg : Scans g T) (h : Yields g i s o) :
    (∃ w r, i = w ++ r ∧ T w r ∧ o = .ok r s) ∨ Absent T i ∧ o = .fail s := by
  obtain ⟨w, r, rfl, hT⟩ | habs := present_or_absent T i
  · exact .inl ⟨w, r, rfl, hT, h.unique (hg.ok w r s hT)⟩
  · exact .inr ⟨habs, h.unique (hg.fail i s habs)⟩

theorem Scans.of_ok (hg : Scans g T) {s' : σ} (h : Yields g i s (.ok r s')) : s' = s ∧ ∃ w, i = w ++ r ∧ T w r := by
  obtain ⟨w, r', hi, hT, ho⟩ | ⟨-, ho⟩ := hg.cases h
  · obtain ⟨rfl, rfl⟩ := Outcome.ok.inj ho
    exact ⟨rfl, w, hi, hT⟩
  · cases ho

/-- The input determines the token. -/
theorem Scans.unique (hg : Scans g T) (s : σ) {w w' r' : Bytes} (hT : T w r) (hT' : T w' r') (h : w ++ r = w' ++ r') :
    w = w' ∧ r = r' := by
  have hok := hg.ok w r s hT
  rw [h] at hok
  obtain ⟨rfl, -⟩ := Outcome.ok.inj (hok.unique (hg.ok w' r' s hT'))
  exact ⟨List.append_cancel_right h, rfl⟩

theorem Scans.congr (hg : Scans g T₁) (h : ∀ w r, T₁ w r ↔ T₂ w r) : Scans g T₂ where
  ok w r s hT := hg.ok w r s ((h w r).mpr hT)
  fail i s habs := hg.fail i s fun w r hi hT => habs w r hi ((h w r).mp hT)

/-! ## One rule for each expression -/

theorem Scans.seq (ha : Scans a T₁) (hb : Scans b T₂) :
    Scans (seq a b) fun w r => ∃ w₁ w₂, w = w₁ ++ w₂ ∧ T₁ w₁ (w₂ ++ r) ∧ T₂ w₂ r where
  ok := by
    rintro w r s ⟨w₁, w₂, rfl, h₁, h₂⟩
    have hfirst := ha.ok w₁ (w₂ ++ r) s h₁
    rw [← List.append_assoc] at hfirst
    exact yields_seq.mpr ⟨_, hfirst, hb.ok w₂ r s h₂⟩
  fail i s habs := by
    obtain ⟨w₁, m, rfl, h₁⟩ | habs₁ := present_or_absent T₁ i
    · refine yields_seq.mpr ⟨_, ha.ok w₁ m s h₁, hb.fail m s fun w₂ r hm h₂ => ?_⟩
      subst hm
      exact habs (w₁ ++ w₂) r (List.append_assoc _ _ _).symm ⟨w₁, w₂, rfl, h₁, h₂⟩
    · exact yields_seq.mpr ⟨_, ha.fail i s habs₁, rfl⟩

theorem Scans.sor (ha : Scans a T₁) (hb : Scans b T₂) :
    Scans (sor a b) fun w r => T₁ w r ∨ Absent T₁ (w ++ r) ∧ T₂ w r where
  ok := by
    rintro w r s (h₁ | ⟨habs, h₂⟩)
    · exact yields_sor.mpr ⟨_, ha.ok w r s h₁, rfl⟩
    · exact yields_sor.mpr ⟨_, ha.fail _ s habs, hb.ok w r s h₂⟩
  fail i s habs := by
    have habs₁ : Absent T₁ i := fun w r hi h => habs w r hi (.inl h)
    refine yields_sor.mpr ⟨_, ha.fail i s habs₁, hb.fail i s fun w r hi h => ?_⟩
    exact habs w r hi (.inr ⟨hi ▸ habs₁, h⟩)

theorem scans_eps : Scans (eps : Peg σ) fun w _ => w = [] where
  ok := by
    rintro w r s rfl
    exact yields_eps.mpr rfl
  fail i s habs := absurd rfl (habs [] i rfl)

theorem Scans.opt (ha : Scans a T) : Scans (opt a) fun w r => T w r ∨ Absent T (w ++ r) ∧ w = [] := ha.sor scans_eps

theorem scans_byte : Scans (byte p : Peg σ) fun w _ => ∃ c, w = [c] ∧ p c where
  ok := by
    rintro w r s ⟨c, rfl, hc⟩
    exact yields_byte_cons.mpr (by simp [hc])
  fail i s habs := by
    cases i with
    | nil => exact yields_byte_nil.mpr rfl
    | cons c i =>
      have hc : ¬ p c := fun hc => habs [c] i rfl ⟨c, rfl, hc⟩
      exact yields_byte_cons.mpr (by simp [hc])

theorem scans_one {c : UInt8} : Scans (one c : Peg σ) fun w _ => w = [c] :=
  scans_byte.congr fun w r => by simp

theorem scans_str {lit : Bytes} : Scans (str lit : Peg σ) fun w _ => w = lit := by
  induction lit with
  | nil => exact scans_eps
  | cons c lit ih =>
    refine (scans_one.seq ih).congr fun w r => ?_
    simp

/-- One more literal in front of a choice between literals, neither of which begins the other. -/
theorem Scans.sor_literal (lit : Bytes) {ls : List Bytes} (ha : Scans a fun w _ => w = lit)
    (hb : Scans b fun w _ => w ∈ ls) (h : ∀ w ∈ ls, ¬ lit <+: w ∧ ¬ w <+: lit) : Scans (Peg.sor a b) fun w _ => w ∈ lit :: ls := by
  refine (ha.sor hb).congr fun w r => ?_
  rw [List.mem_cons]
  refine or_congr Iff.rfl (and_iff_right_of_imp fun hw => ?_)
  rintro v r' hi hv
  rw [hv] at hi
  obtain hp | hp := List.prefix_or_prefix_of_prefix ⟨r, rfl⟩ (hi ▸ ⟨r', rfl⟩ : lit <+: w ++ r)
  · exact (h w hw).2 hp
  · exact (h w hw).1 hp

theorem scans_eof : Scans (eof : Peg σ) fun w r => w = [] ∧ r = [] where
  ok := by
    rintro w r s ⟨rfl, rfl⟩
    exact yields_eof.mpr rfl
  fail i s habs := by
    have hi : i ≠ [] := by
      rintro rfl
      exact habs [] [] rfl ⟨rfl, rfl⟩
    exact yields_eof.mpr (by simp [hi])

theorem scans_eol : Scans (eol : Peg σ) fun w _ => w = [10] ∨ w = [13, 10] where
  ok := by
    rintro w r s (rfl | rfl)
    · exact yields_eol_lf.mpr rfl
    · exact yields_eol_cr.mpr rfl
  fail i s habs := by
    refine (yields_eol_other (fun j hj => ?_) fun j hj => ?_).mpr rfl
    · exact habs [10] j hj (.inl rfl)
    · exact habs [13, 10] j hj (.inr rfl)

/-! ## Repeated bytes -/

/-- `r` does not go on with a byte of the class. -/
def Stops (p : UInt8 → Bool) (r : Bytes) : Prop := ∀ c ∈ r.head?, p c = false

theorem stops_nil : Stops p [] := fun _ hd => by cases hd

theorem stops_cons {c : UInt8} (h : p c = false) : Stops p (c :: r) := fun _ hd => Option.some.inj hd ▸ h

/-- Only the first byte counts. -/
theorem Stops.swap {c : UInt8} {r' : Bytes} (h : Stops p (c :: r)) : Stops p (c :: r') := stops_cons (h c rfl)

theorem stops_append {w : Bytes} (hw : ∀ c ∈ w, p c = false) (hr : Stops p r) : Stops p (w ++ r) := by
  cases w with
  | nil => exact hr
  | cons c w => exact stops_cons (hw c (by simp))

theorem stops_dropWhile (p : UInt8 → Bool) (i : Bytes) : Stops p (i.dropWhile p) := by
  intro c hc
  induction i with
  | nil => cases hc
  | cons d i ih =>
    rw [List.dropWhile_cons] at hc
    split_ifs at hc with hd
    · exact ih hc
    · obtain rfl := Option.some.inj hc
      exact Bool.eq_false_iff.mpr hd

theorem mem_takeWhile {i : Bytes} : ∀ c ∈ i.takeWhile p, p c := fun _ hc => List.mem_takeWhile_imp hc

/-- Some run of the class, maybe empty, stands at the front of every input. -/
theorem exists_run (p : UInt8 → Bool) (i : Bytes) : ∃ w r, i = w ++ r ∧ (∀ c ∈ w, p c) ∧ Stops p r :=
  ⟨i.takeWhile p, i.dropWhile p, List.takeWhile_append_dropWhile.symm, mem_takeWhile, stops_dropWhile p i⟩

theorem scans_star_byte : Scans (star (byte p) : Peg σ) fun w r => (∀ c ∈ w, p c) ∧ Stops p r where
  ok := by
    rintro w r s ⟨hw, hr⟩
    induction w with
    | nil =>
      refine yields_star.mpr ⟨.fail s, scans_byte.fail r s ?_, rfl⟩
      rintro _ r' rfl ⟨c, rfl, hc⟩
      have hnot := hr c rfl
      rw [hc] at hnot
      cases hnot
    | cons c w ih =>
      refine yields_star.mpr ⟨.ok (w ++ r) s, scans_byte.ok [c] (w ++ r) s ⟨c, rfl, hw c (by simp)⟩, ?_⟩
      exact ih fun d hd => hw d (List.mem_cons_of_mem c hd)
  fail i s habs := by
    obtain ⟨w, r, hi, hT⟩ := exists_run p i
    exact absurd hT (habs w r hi)

theorem scans_plus_byte : Scans (plus (byte p) : Peg σ) fun w r => w ≠ [] ∧ (∀ c ∈ w, p c) ∧ Stops p r := by
  refine (scans_byte.seq scans_star_byte).congr fun w r => ?_
  constructor
  · rintro ⟨w₁, w₂, rfl, ⟨c, rfl, hc⟩, hw, hr⟩
    refine ⟨by simp, fun d hd => ?_, hr⟩
    obtain rfl | hd := List.mem_cons.mp hd
    · exact hc
    · exact hw d hd
  · rintro ⟨hne, hw, hr⟩
    obtain ⟨c, w, rfl⟩ := List.exists_cons_of_ne_nil hne
    refine ⟨[c], w, rfl, ⟨c, rfl, hw c (by simp)⟩, fun d hd => ?_, hr⟩
    exact hw d (List.mem_cons_of_mem c hd)

/-- Any bytes up to the first token of `stop`, and that token. -/
theorem Scans.upto (hstop : Scans g T) :
    Scans (upto g any) fun w r => ∃ u v, w = u ++ v ∧ T v r ∧ ∀ u₁ u₂, u = u₁ ++ u₂ → u₂ ≠ [] → Absent T (u₂ ++ (v ++ r)) where
  ok := by
    rintro _ r s ⟨u, v, rfl, hv, hu⟩
    induction u with
    | nil => exact yields_upto.mpr ⟨_, hstop.ok v r s hv, rfl⟩
    | cons c u ih =>
      have habs : Absent T (c :: u ++ (v ++ r)) := hu [] (c :: u) rfl (by simp)
      rw [List.append_assoc]
      refine yields_upto.mpr ⟨_, hstop.fail _ s habs, .ok (u ++ (v ++ r)) s, yields_byte_cons.mpr rfl, ?_⟩
      have hrest := ih fun u₁ u₂ hu' => hu (c :: u₁) u₂ (by rw [hu']; rfl)
      rw [List.append_assoc] at hrest
      exact hrest
  fail i s habs := by
    have hnone : Absent T i := fun v r hi hv => by
      refine habs v r hi ⟨[], v, rfl, hv, fun u₁ u₂ hu hne => ?_⟩
      exact absurd (List.append_eq_nil_iff.mp hu.symm).2 hne
    induction i with
    | nil => exact yields_upto.mpr ⟨_, hstop.fail [] s hnone, .fail s, yields_byte_nil.mpr rfl, rfl⟩
    | cons c i ih =>
      have hrest : Absent (fun w r => ∃ u v, w = u ++ v ∧ T v r ∧
          ∀ u₁ u₂, u = u₁ ++ u₂ → u₂ ≠ [] → Absent T (u₂ ++ (v ++ r))) i := by
        rintro _ r rfl ⟨u, v, rfl, hv, hu⟩
        refine habs (c :: (u ++ v)) r rfl ⟨c :: u, v, rfl, hv, fun u₁ u₂ hsplit hne => ?_⟩
        cases u₁ with
        | nil =>
          obtain rfl : c :: u = u₂ := hsplit
          rw [← List.append_assoc]
          exact hnone
        | cons d u₁ => exact hu u₁ u₂ (List.cons.inj hsplit).2 hne
      have hnext : Absent T i := fun v r hi hv =>
        hrest v r hi ⟨[], v, rfl, hv, fun u₁ u₂ hu hne => absurd (List.append_eq_nil_iff.mp hu.symm).2 hne⟩
      exact yields_upto.mpr ⟨_, hstop.fail _ s hnone, .ok i s, yields_byte_cons.mpr rfl, ih hrest hnext⟩

/-- Any bytes up to one given byte, and that byte. -/
theorem scans_upto_one {c : UInt8} : Scans (upto (one c) any : Peg σ) fun w _ => ∃ u, w = u ++ [c] ∧ c ∉ u := by
  have hone : Scans (one c : Peg σ) fun w _ => w = [c] := scans_one
  refine hone.upto.congr fun w r => ?_
  constructor
  · rintro ⟨u, v, rfl, rfl, hu⟩
    refine ⟨u, rfl, fun hc => ?_⟩
    obtain ⟨u₁, u₂, rfl⟩ := List.append_of_mem hc
    exact hu u₁ (c :: u₂) rfl (by simp) [c] (u₂ ++ ([c] ++ r)) rfl rfl
  · rintro ⟨u, rfl, hc⟩
    refine ⟨u, [c], rfl, rfl, ?_⟩
    rintro u₁ u₂ rfl hne _ r' hi rfl
    cases u₂ with
    | nil => exact hne rfl
    | cons d u₂ =>
      obtain ⟨rfl, -⟩ := List.cons.inj hi
      exact hc (by simp)

/-- A line end or the end of the input. -/
def LineEnd (w r : Bytes) : Prop := w = [10] ∨ w = [13, 10] ∨ w = [] ∧ r = []

theorem scans_eolf : Scans (eolf : Peg σ) LineEnd := by
  refine (scans_eol.sor scans_eof).congr fun w r => ?_
  unfold LineEnd
  constructor
  · rintro ((rfl | rfl) | ⟨-, rfl, rfl⟩) <;> simp
  · rintro (rfl | rfl | ⟨rfl, rfl⟩)
    · exact .inl (.inl rfl)
    · exact .inl (.inr rfl)
    · refine .inr ⟨fun w r hi hw => ?_, rfl, rfl⟩
      obtain ⟨rfl, rfl⟩ := List.append_eq_nil_iff.mp hi.symm
      simp at hw

theorem absent_lineEnd {c : UInt8} : Absent LineEnd (c :: i) ↔ c ≠ 10 ∧ ¬ (c = 13 ∧ i.head? = some 10) := by
  constructor
  · intro habs
    constructor
    · rintro rfl
      exact habs [10] i rfl (.inl rfl)
    · rintro ⟨rfl, hi⟩
      obtain ⟨i, rfl⟩ := List.head?_eq_some_iff.mp hi
      exact habs [13, 10] i rfl (.inr (.inl rfl))
  · rintro ⟨hlf, hcr⟩ w r hi (rfl | rfl | ⟨rfl, rfl⟩)
    · exact hlf (List.cons.inj hi).1
    · obtain ⟨rfl, rfl⟩ := List.cons.inj hi
      exact hcr ⟨rfl, rfl⟩
    · cases hi

/-- Any bytes up to the end of the line, with it, or up to the end of the input. -/
theorem scans_upto_eolf : Scans (upto eolf any : Peg σ) fun w r => (∃ u, w = u ++ [10] ∧ 10 ∉ u) ∨ r = [] ∧ 10 ∉ w := by
  have heolf : Scans (eolf : Peg σ) LineEnd := scans_eolf
  refine heolf.upto.congr fun w r => ?_
  constructor
  · rintro ⟨u, v, rfl, hv, hu⟩
    have hno : (10 : UInt8) ∉ u := fun hc => by
      obtain ⟨u₁, u₂, rfl⟩ := List.append_of_mem hc
      exact (absent_lineEnd.mp (hu u₁ (10 :: u₂) rfl (by simp))).1 rfl
    rcases hv with rfl | rfl | ⟨rfl, rfl⟩
    · exact .inl ⟨u, rfl, hno⟩
    · exact .inl ⟨u ++ [13], by simp, by simp [hno]⟩
    · exact .inr ⟨rfl, by simpa using hno⟩
  · -- a carriage return in front of the line feed belongs to the line end
    have hsuffix : ∀ u v : Bytes, 10 ∉ u → ((v ++ r).head? = some 10 → u.getLast? ≠ some 13) →
        ∀ u₁ u₂, u = u₁ ++ u₂ → u₂ ≠ [] → Absent LineEnd (u₂ ++ (v ++ r)) := by
      rintro u v hno hlast u₁ u₂ rfl hne
      obtain ⟨c, u₂, rfl⟩ := List.exists_cons_of_ne_nil hne
      have hc : c ≠ 10 := by
        rintro rfl
        exact hno (by simp)
      refine absent_lineEnd.mpr ⟨hc, ?_⟩
      rintro ⟨rfl, hhead⟩
      cases u₂ with
      | nil => exact hlast hhead (by simp)
      | cons d u₂ =>
        obtain rfl : d = 10 := by simpa using hhead
        exact hno (by simp)
    rintro (⟨u, rfl, hno⟩ | ⟨rfl, hno⟩)
    · by_cases hcr : u.getLast? = some 13
      · obtain ⟨u, rfl⟩ := List.getLast?_eq_some_iff.mp hcr
        refine ⟨u, [13, 10], by simp, .inr (.inl rfl), hsuffix u [13, 10] ?_ ?_⟩
        · exact fun hc => hno (List.mem_append_left _ hc)
        · intro hhead
          cases hhead
      · exact ⟨u, [10], rfl, .inl rfl, hsuffix u [10] hno fun _ => hcr⟩
    · refine ⟨w, [], by simp, .inr (.inr ⟨rfl, rfl⟩), hsuffix w [] hno ?_⟩
      intro hhead
      cases hhead

/-! ## A recogniser with an action -/

theorem consumed_append (w r : Bytes) : consumed (w ++ r) r = w := by simp [consumed]

theorem Scans.act_ok {f : Bytes → σ → Option σ} (hg : Scans g T) {w : Bytes} {s' : σ} (hT : T w r) (hf : f w s = some s') :
    Yields (act g f) (w ++ r) s (.ok r s') := by
  refine yields_act.mpr ⟨_, hg.ok w r s hT, ?_⟩
  simp [consumed_append, hf]

theorem Scans.act_fail {f : Bytes → σ → Option σ} (hg : Scans g T) (habs : Absent T i) : Yields (act g f) i s (.fail s) :=
  yields_act.mpr ⟨_, hg.fail i s habs, rfl⟩

theorem Scans.act_cases {f : Bytes → σ → Option σ} (hg : Scans g T) (h : Yields (act g f) i s o) :
    (∃ w r, i = w ++ r ∧ T w r ∧ o = (match f w s with
      | some s' => .ok r s'
      | none => .thrown s)) ∨ Absent T i ∧ o = .fail s := by
  obtain ⟨x, hx, ho⟩ := yields_act.mp h
  obtain ⟨w, r, rfl, hT, rfl⟩ | ⟨habs, rfl⟩ := hg.cases hx
  · rw [Outcome.thenOk_ok, consumed_append] at ho
    exact .inl ⟨w, r, rfl, hT, ho⟩
  · exact .inr ⟨habs, ho⟩

end Peg
