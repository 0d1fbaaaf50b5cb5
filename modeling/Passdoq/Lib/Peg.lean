import Passdoq.Lib.Bytes
import Mathlib

/-!
# Parsing expressions with actions

A parsing expression grammar over bytes whose rules may carry an action on a state. An action runs when its rule has
matched; what it did stays done when the parser backtracks, and an exception that it throws ends the parse.

* `Peg` : the expressions; `opt`, `plus`, `str`, `pad`, `list` are built from them;
* `run` : the parser with fuel, `none` when the fuel does not suffice;
* `Yields g i s o` : with enough fuel `g` ends on input `i` and state `s` with the outcome `o`; one equivalence for each
  expression, and outcomes are unique (`Yields.unique`);
* `not_yields_star` : repeating an expression that never fails does not end.
-/

/-- A parsing expression with actions on states `σ`. -/
inductive Peg (σ : Type)
  /-- nothing, successfully -/
  | eps
  /-- one byte of a class -/
  | byte (p : UInt8 → Bool)
  /-- the end of the input -/
  | eof
  /-- a line end, LF or CRLF -/
  | eol
  | seq (a b : Peg σ)
  /-- ordered choice -/
  | sor (a b : Peg σ)
  /-- as often as possible -/
  | star (a : Peg σ)
  /-- `a` again and again up to where `stop` matches -/
  | upto (stop a : Peg σ)
  /-- `a` and then `f` on the text it matched; `none` is an exception -/
  | act (a : Peg σ) (f : Bytes → σ → Option σ)

namespace Peg

variable {σ : Type}

def one (c : UInt8) : Peg σ := byte (· == c)

def any : Peg σ := byte fun _ => true

def opt (a : Peg σ) : Peg σ := sor a eps

def plus (a : Peg σ) : Peg σ := seq a (star a)

def eolf : Peg σ := sor eol eof

/-- The bytes of a literal. -/
def str : Bytes → Peg σ
  | [] => eps
  | c :: s => seq (one c) (str s)

def pad (a p : Peg σ) : Peg σ := seq (star p) (seq a (star p))

/-- `a` once or more, with padded separators between. -/
def list (a separator p : Peg σ) : Peg σ := seq a (star (seq (pad separator p) a))

/-- How an expression ends: a match with the input that remains, a failure, or an exception. -/
inductive Outcome (σ : Type)
  | ok (rest : Bytes) (s : σ)
  | fail (s : σ)
  | thrown (s : σ)

namespace Outcome

/-- Go on after a match. -/
def onOk (r : Outcome σ) (k : Bytes → σ → Option (Outcome σ)) : Option (Outcome σ) :=
  match r with
  | .ok i s => k i s
  | r => some r

/-- Go on after a failure. -/
def onFail (r : Outcome σ) (k : σ → Option (Outcome σ)) : Option (Outcome σ) :=
  match r with
  | .fail s => k s
  | r => some r

end Outcome

/-- The part of `i` in front of `rest`. -/
def consumed (i rest : Bytes) : Bytes := i.take (i.length - rest.length)

/-- Run an expression with fuel. -/
def run : Nat → Peg σ → Bytes → σ → Option (Outcome σ)
  | 0, _, _, _ => none
  | _ + 1, .eps, i, s => some (.ok i s)
  | _ + 1, .byte p, i, s => match i with
    | c :: i' => some (if p c then .ok i' s else .fail s)
    | [] => some (.fail s)
  | _ + 1, .eof, i, s => some (if i = [] then .ok i s else .fail s)
  | _ + 1, .eol, i, s => match i with
    | 10 :: i' => some (.ok i' s)
    | 13 :: 10 :: i' => some (.ok i' s)
    | _ => some (.fail s)
  | n + 1, .seq a b, i, s => (run n a i s).bind fun r => r.onOk (run n b)
  | n + 1, .sor a b, i, s => (run n a i s).bind fun r => r.onFail (run n b i)
  | n + 1, .star a, i, s => (run n a i s).bind fun r => match r with
    | .fail s' => some (.ok i s')
    | r => r.onOk (run n (.star a))
  | n + 1, .upto stop a, i, s => (run n stop i s).bind fun r => r.onFail fun s' =>
    (run n a i s').bind fun r => r.onOk (run n (.upto stop a))
  | n + 1, .act a f, i, s => (run n a i s).bind fun r => r.onOk fun i' s' => match f (consumed i i') s' with
    | some s'' => some (.ok i' s'')
    | none => some (.thrown s')

/-! ## Fuel -/

theorem onOk_mono {r o : Outcome σ} {k k' : Bytes → σ → Option (Outcome σ)} (hk : ∀ i s o, k i s = some o → k' i s = some o)
    (h : r.onOk k = some o) : r.onOk k' = some o := by
  cases r with
  | ok i s => exact hk i s o h
  | _ => exact h

theorem onFail_mono {r o : Outcome σ} {k k' : σ → Option (Outcome σ)} (hk : ∀ s o, k s = some o → k' s = some o)
    (h : r.onFail k = some o) : r.onFail k' = some o := by
  cases r with
  | fail s => exact hk s o h
  | _ => exact h

theorem bind_mono {x x' : Option (Outcome σ)} {f f' : Outcome σ → Option (Outcome σ)} {o : Outcome σ}
    (hx : ∀ r, x = some r → x' = some r) (hf : ∀ r o, f r = some o → f' r = some o) (h : x.bind f = some o) :
    x'.bind f' = some o := by
  obtain ⟨r, hr, h⟩ := Option.bind_eq_some_iff.mp h
  exact Option.bind_eq_some_iff.mpr ⟨r, hx r hr, hf r o h⟩

theorem run_succ {n : Nat} {g : Peg σ} {i : Bytes} {s : σ} {o : Outcome σ} (h : run n g i s = some o) :
    run (n + 1) g i s = some o := by
  induction n generalizing g i s o with
  | zero => cases h
  | succ n ih =>
    cases g with
    | seq a b => exact bind_mono (fun _ => ih) (fun _ _ => onOk_mono fun _ _ _ => ih) h
    | sor a b => exact bind_mono (fun _ => ih) (fun _ _ => onFail_mono fun _ _ => ih) h
    | star a =>
      refine bind_mono (fun _ => ih) (fun r o hr => ?_) h
      cases r with
      | ok i' s' => exact ih hr
      | _ => exact hr
    | upto stop a =>
      exact bind_mono (fun _ => ih) (fun _ _ => onFail_mono fun _ _ => bind_mono (fun _ => ih) fun _ _ =>
        onOk_mono fun _ _ _ => ih) h
    | act a f => exact bind_mono (fun _ => ih) (fun _ _ hr => hr) h
    | _ => exact h

theorem run_mono {n m : Nat} {g : Peg σ} {i : Bytes} {s : σ} {o : Outcome σ} (hnm : n ≤ m)
    (h : run n g i s = some o) : run m g i s = some o := by
  induction hnm with
  | refl => exact h
  | step _ ih => exact run_succ ih

/-- With enough fuel `g` ends with the outcome `o`. -/
def Yields (g : Peg σ) (i : Bytes) (s : σ) (o : Outcome σ) : Prop := ∃ n, run n g i s = some o

theorem Yields.unique {g : Peg σ} {i : Bytes} {s : σ} {o o' : Outcome σ} (h : Yields g i s o) (h' : Yields g i s o') :
    o = o' := by
  obtain ⟨n, hn⟩ := h
  obtain ⟨m, hm⟩ := h'
  have h₁ := run_mono (Nat.le_max_left n m) hn
  have h₂ := run_mono (Nat.le_max_right n m) hm
  rw [h₁, Option.some.injEq] at h₂
  exact h₂

/-! ## What each expression yields -/

namespace Outcome

/-- After a match `Q` holds of the outcome, anything else is the outcome. -/
def ThenOk (r : Outcome σ) (Q : Bytes → σ → Outcome σ → Prop) (o : Outcome σ) : Prop :=
  match r with
  | .ok i s => Q i s o
  | r => o = r

/-- After a failure `Q` holds of the outcome, anything else is the outcome. -/
def ThenFail (r : Outcome σ) (Q : σ → Outcome σ → Prop) (o : Outcome σ) : Prop :=
  match r with
  | .fail s => Q s o
  | r => o = r

variable {Q : Bytes → σ → Outcome σ → Prop} {Q' : σ → Outcome σ → Prop} {o : Outcome σ} {i : Bytes} {s : σ}

@[simp] theorem thenOk_ok : (ok i s).ThenOk Q o ↔ Q i s o := Iff.rfl

@[simp] theorem thenOk_fail : (fail s).ThenOk Q o ↔ o = .fail s := Iff.rfl

@[simp] theorem thenOk_thrown : (thrown s).ThenOk Q o ↔ o = .thrown s := Iff.rfl

@[simp] theorem thenFail_ok : (ok i s).ThenFail Q' o ↔ o = .ok i s := Iff.rfl

@[simp] theorem thenFail_fail : (fail s).ThenFail Q' o ↔ Q' s o := Iff.rfl

@[simp] theorem thenFail_thrown : (thrown s).ThenFail Q' o ↔ o = .thrown s := Iff.rfl

end Outcome

section Yields

variable {a b stop : Peg σ} {f : Bytes → σ → Option σ} {p : UInt8 → Bool} {i : Bytes} {s : σ} {o : Outcome σ}

/-- A run of two parts succeeds with the fuel of the longer one. -/
theorem exists_bind {x : Nat → Option (Outcome σ)} {f : Nat → Outcome σ → Option (Outcome σ)}
    (hx : ∀ n m r, n ≤ m → x n = some r → x m = some r)
    (hf : ∀ n m r o, n ≤ m → f n r = some o → f m r = some o) :
    (∃ n, (x n).bind (f n) = some o) ↔ ∃ r, (∃ n, x n = some r) ∧ ∃ n, f n r = some o := by
  constructor
  · rintro ⟨n, h⟩
    obtain ⟨r, hr, h⟩ := Option.bind_eq_some_iff.mp h
    exact ⟨r, ⟨n, hr⟩, n, h⟩
  · rintro ⟨r, ⟨n, hr⟩, m, h⟩
    refine ⟨max n m, Option.bind_eq_some_iff.mpr ⟨r, hx _ _ r (Nat.le_max_left n m) hr, ?_⟩⟩
    exact hf _ _ r o (Nat.le_max_right n m) h

theorem yields_succ {g : Peg σ} : Yields g i s o ↔ ∃ n, run (n + 1) g i s = some o := by
  constructor
  · rintro ⟨n, h⟩
    exact ⟨n, run_succ h⟩
  · rintro ⟨n, h⟩
    exact ⟨n + 1, h⟩

theorem exists_onOk {r : Outcome σ} {g : Peg σ} : (∃ n, r.onOk (run n g) = some o) ↔ r.ThenOk (Yields g) o := by
  cases r with
  | ok i s => exact Iff.rfl
  | _ => simp [Outcome.onOk, eq_comm]

theorem exists_onFail {r : Outcome σ} {k : Nat → σ → Option (Outcome σ)} :
    (∃ n, r.onFail (k n) = some o) ↔ r.ThenFail (fun s o => ∃ n, k n s = some o) o := by
  cases r with
  | fail s => exact Iff.rfl
  | _ => simp [Outcome.onFail, eq_comm]

theorem yields_const {g : Peg σ} {o' : Outcome σ} (h : ∀ n, run (n + 1) g i s = some o') : Yields g i s o ↔ o = o' := by
  rw [yields_succ]
  simp [h, eq_comm]

@[simp] theorem yields_eps : Yields eps i s o ↔ o = .ok i s := yields_const fun _ => rfl

theorem yields_byte_nil : Yields (byte p) [] s o ↔ o = .fail s := yields_const fun _ => rfl

theorem yields_byte_cons {c : UInt8} : Yields (byte p) (c :: i) s o ↔ o = if p c then .ok i s else .fail s :=
  yields_const fun _ => rfl

theorem yields_eof : Yields eof i s o ↔ o = if i = [] then .ok i s else .fail s := yields_const fun _ => rfl

theorem yields_seq : Yields (seq a b) i s o ↔ ∃ r, Yields a i s r ∧ r.ThenOk (Yields b) o := by
  rw [yields_succ]
  refine Iff.trans (exists_bind (fun _ _ _ => run_mono) (fun _ _ _ _ hnm => ?_)) ?_
  · exact onOk_mono fun _ _ _ => run_mono hnm
  · simp only [exists_onOk]
    exact Iff.rfl

theorem yields_sor : Yields (sor a b) i s o ↔ ∃ r, Yields a i s r ∧ r.ThenFail (Yields b i) o := by
  rw [yields_succ]
  refine Iff.trans (exists_bind (fun _ _ _ => run_mono) (fun _ _ _ _ hnm => ?_)) ?_
  · exact onFail_mono fun _ _ => run_mono hnm
  · simp only [exists_onFail]
    exact Iff.rfl

theorem yields_star : Yields (star a) i s o ↔ ∃ r, Yields a i s r ∧ match r with
    | .fail s' => o = .ok i s'
    | r => r.ThenOk (Yields (star a)) o := by
  rw [yields_succ]
  refine Iff.trans (exists_bind (fun _ _ _ => run_mono) (fun n m r o hnm h => ?_)) ?_
  · cases r with
    | ok i' s' => exact run_mono hnm h
    | _ => exact h
  · refine exists_congr fun r => and_congr Iff.rfl ?_
    cases r with
    | ok i' s' => exact Iff.rfl
    | fail s' => simp [eq_comm]
    | thrown s' => simp [Outcome.onOk, eq_comm]

theorem yields_upto : Yields (upto stop a) i s o ↔ ∃ r, Yields stop i s r ∧ r.ThenFail (fun s' o =>
    ∃ r', Yields a i s' r' ∧ r'.ThenOk (Yields (upto stop a)) o) o := by
  have hinner : ∀ s' o n m, n ≤ m → ((run n a i s').bind fun r => r.onOk (run n (upto stop a))) = some o →
      ((run m a i s').bind fun r => r.onOk (run m (upto stop a))) = some o := fun s' o n m hnm =>
    bind_mono (fun _ => run_mono hnm) fun _ _ => onOk_mono fun _ _ _ => run_mono hnm
  rw [yields_succ]
  refine Iff.trans (exists_bind (fun _ _ _ => run_mono) (fun n m r o hnm => ?_)) ?_
  · exact onFail_mono fun s' o => hinner s' o n m hnm
  · simp only [exists_onFail]
    have hrest : ∀ s' o, (∃ n, ((run n a i s').bind fun r => r.onOk (run n (upto stop a))) = some o) ↔
        ∃ r', Yields a i s' r' ∧ r'.ThenOk (Yields (upto stop a)) o := by
      intro s' o
      refine Iff.trans (exists_bind (fun _ _ _ => run_mono) (fun _ _ _ _ hnm => ?_)) ?_
      · exact onOk_mono fun _ _ _ => run_mono hnm
      · simp only [exists_onOk]
        exact Iff.rfl
    simp only [hrest]
    exact Iff.rfl

theorem yields_act : Yields (act a f) i s o ↔ ∃ r, Yields a i s r ∧ r.ThenOk (fun i' s' o =>
    o = match f (consumed i i') s' with
      | some s'' => .ok i' s''
      | none => .thrown s') o := by
  rw [yields_succ]
  refine Iff.trans (exists_bind (fun _ _ _ => run_mono) (fun _ _ _ _ _ h => h)) ?_
  refine exists_congr fun r => and_congr Iff.rfl ?_
  cases r with
  | ok i' s' =>
    simp only [Outcome.onOk, exists_const, Outcome.thenOk_ok]
    cases f (consumed i i') s' <;> simp [eq_comm]
  | _ => simp [Outcome.onOk, eq_comm]

theorem yields_eol_cr : Yields eol (13 :: 10 :: i) s o ↔ o = .ok i s := yields_const fun _ => rfl

theorem yields_eol_lf : Yields eol (10 :: i) s o ↔ o = .ok i s := yields_const fun _ => rfl

theorem yields_eol_other (h : ∀ j, i ≠ 10 :: j) (h' : ∀ j, i ≠ 13 :: 10 :: j) : Yields eol i s o ↔ o = .fail s := by
  refine yields_const fun _ => ?_
  match i, h, h' with
  | [], _, _ => rfl
  | c :: i, h, h' =>
    unfold run
    split
    · next heq => exact absurd heq (h _)
    · next heq => exact absurd heq (h' _)
    · rfl

/-- Repeating an expression that never fails and never throws does not end. -/
theorem not_yields_star (h : ∀ i s, ∃ i' s', Yields a i s (.ok i' s')) : ¬ Yields (star a) i s o := by
  rintro ⟨n, hn⟩
  induction n generalizing i s with
  | zero => cases hn
  | succ n ih =>
    obtain ⟨r, hr, hn⟩ := Option.bind_eq_some_iff.mp hn
    obtain ⟨i', s', hok⟩ := h i s
    obtain rfl := Yields.unique ⟨n, hr⟩ hok
    exact ih hn

end Yields

end Peg
