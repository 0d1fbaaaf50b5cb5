import Passdoq.Lib.Bytes
import Mathlib

/-!
# Decimal numbers in text

* `renderNat`, `renderInt` : the decimal digits of a number, as an output stream writes them;
* `readLong` : what an input stream extracts into a signed 64-bit variable: leading blanks and a sign are
  skipped, the digits end at the first other character, a number that does not fit is cut off at the bound;
* `readLong_renderInt` : a number that fits is read back;
* `numeral_bounds`, `exists_numeral` : the numbers with a numeral that begins with neither `0` nor `1`.
-/

namespace Decimal

/-- `isspace` in the C locale. -/
def isSpace (c : UInt8) : Bool := c == 32 || (9 ≤ c && c ≤ 13)

def isDigit (c : UInt8) : Bool := 48 ≤ c && c ≤ 57

/-- The digits of `n` in front of `acc`; `fuel` above `n` is enough. -/
def digitsOnto : Nat → Nat → Bytes → Bytes
  | 0, _, acc => acc
  | fuel + 1, n, acc =>
    let acc := UInt8.ofNat (48 + n % 10) :: acc
    if n < 10 then acc else digitsOnto fuel (n / 10) acc

def renderNat (n : Nat) : Bytes := digitsOnto (n + 1) n []

def renderInt (i : Int) : Bytes :=
  if i < 0 then 45 :: renderNat i.natAbs else renderNat i.natAbs

/-- The number that digits denote. -/
def valueOf (v : Nat) (ds : Bytes) : Nat := ds.foldl (fun v d => 10 * v + (d.toNat - 48)) v

/-- The signed 64-bit number nearest to `i`. -/
def clampLong (i : Int) : Int := max (-2 ^ 63) (min i (2 ^ 63 - 1))

/-- Split a sign off. -/
def readSign : Bytes → Bool × Bytes
  | [] => (false, [])
  | c :: b => if c = 45 then (true, b) else if c = 43 then (false, b) else (false, c :: b)

/-- Extract a signed 64-bit number; `none` when there is nothing but blanks, so that nothing is assigned. -/
def readLong (b : Bytes) : Option Int :=
  let b := b.dropWhile isSpace
  if b = [] then none
  else
    let n : Int := valueOf 0 ((readSign b).2.takeWhile isDigit)
    some (clampLong (if (readSign b).1 then -n else n))

/-! ## Reading back what was written -/

theorem isDigit_digit (n : Nat) : isDigit (UInt8.ofNat (48 + n % 10)) = true := by
  have h : (48 + n % 10) % 256 = 48 + n % 10 := Nat.mod_eq_of_lt (by omega)
  simp only [isDigit, Bool.and_eq_true, decide_eq_true_eq, UInt8.le_iff_toNat_le, UInt8.toNat_ofNat', UInt8.toNat_ofNat]
  omega

theorem valueOf_digitsOnto (fuel n : Nat) (acc : Bytes) (h : n < fuel) :
    valueOf 0 (digitsOnto fuel n acc) = valueOf n acc := by
  induction fuel generalizing n acc with
  | zero => omega
  | succ fuel ih =>
    have hd : (UInt8.ofNat (48 + n % 10)).toNat - 48 = n % 10 := by
      rw [UInt8.toNat_ofNat', Nat.mod_eq_of_lt (by omega)]
      omega
    rw [digitsOnto]
    split_ifs with hn
    · simp only [valueOf, List.foldl_cons, hd]
      congr 1
      omega
    · rw [ih _ _ (by omega)]
      simp only [valueOf, List.foldl_cons, hd]
      congr 1
      omega

theorem digitsOnto_digits (fuel n : Nat) (acc : Bytes) (h : ∀ c ∈ acc, isDigit c = true) :
    ∀ c ∈ digitsOnto fuel n acc, isDigit c = true := by
  induction fuel generalizing n acc with
  | zero => exact h
  | succ fuel ih =>
    have hc : ∀ c ∈ UInt8.ofNat (48 + n % 10) :: acc, isDigit c = true :=
      List.forall_mem_cons.mpr ⟨isDigit_digit n, h⟩
    rw [digitsOnto]
    split_ifs
    · exact hc
    · exact ih _ _ hc

theorem digitsOnto_ne_nil (fuel n : Nat) (acc : Bytes) (h : acc ≠ []) : digitsOnto fuel n acc ≠ [] := by
  induction fuel generalizing n acc with
  | zero => exact h
  | succ fuel ih =>
    rw [digitsOnto]
    split_ifs
    · simp
    · exact ih _ _ (by simp)

theorem valueOf_renderNat (n : Nat) : valueOf 0 (renderNat n) = n := valueOf_digitsOnto _ _ _ (by omega)

theorem renderNat_digits (n : Nat) : ∀ c ∈ renderNat n, isDigit c = true := digitsOnto_digits _ _ _ (by simp)

theorem renderNat_ne_nil (n : Nat) : renderNat n ≠ [] := by
  rw [renderNat, digitsOnto]
  split_ifs
  · simp
  · exact digitsOnto_ne_nil _ _ _ (by simp)

theorem not_isSpace_of_isDigit {c : UInt8} (h : isDigit c = true) : isSpace c = false := by
  simp only [isDigit, Bool.and_eq_true, decide_eq_true_eq, UInt8.le_iff_toNat_le, UInt8.toNat_ofNat] at h
  have h32 : c ≠ 32 := by rintro rfl; simp at h
  simp only [isSpace, Bool.or_eq_false_iff, beq_eq_false_iff_ne, ne_eq, h32, not_false_eq_true, true_and,
    Bool.and_eq_false_iff, decide_eq_false_iff_not, UInt8.le_iff_toNat_le, UInt8.toNat_ofNat]
  omega

theorem readSign_renderNat (n : Nat) : readSign (renderNat n) = (false, renderNat n) := by
  cases hr : renderNat n with
  | nil => rfl
  | cons c b =>
    have hc : isDigit c = true := renderNat_digits n c (by rw [hr]; simp)
    have h45 : c ≠ 45 := by rintro rfl; simp [isDigit] at hc
    have h43 : c ≠ 43 := by rintro rfl; simp [isDigit] at hc
    rw [readSign, if_neg h45, if_neg h43]

theorem clampLong_of_fits {i : Int} (h : -2 ^ 63 ≤ i ∧ i < 2 ^ 63) : clampLong i = i := by
  unfold clampLong
  omega

theorem dropWhile_renderNat (n : Nat) : (renderNat n).dropWhile isSpace = renderNat n := by
  cases hr : renderNat n with
  | nil => rfl
  | cons c b =>
    have hc : isDigit c = true := renderNat_digits n c (by rw [hr]; exact List.mem_cons_self)
    rw [List.dropWhile_cons, not_isSpace_of_isDigit hc]
    rfl

/-- A number that fits a signed 64-bit variable is read back from its decimal digits. -/
theorem readLong_renderInt {i : Int} (h : -2 ^ 63 ≤ i ∧ i < 2 ^ 63) : readLong (renderInt i) = some i := by
  have htake : ∀ n, (renderNat n).takeWhile isDigit = renderNat n := fun n =>
    List.takeWhile_eq_self_iff.mpr (renderNat_digits n)
  have hclamp := clampLong_of_fits h
  unfold renderInt
  split_ifs with hneg
  · obtain ⟨n, rfl⟩ : ∃ n : Nat, i = -(n : Int) := ⟨i.natAbs, by omega⟩
    have hsp : isSpace 45 = false := by decide
    rw [Int.natAbs_neg, Int.natAbs_natCast]
    simp [readLong, hsp, readSign, htake, valueOf_renderNat, hclamp]
  · obtain ⟨n, rfl⟩ : ∃ n : Nat, i = (n : Int) := ⟨i.natAbs, by omega⟩
    rw [Int.natAbs_natCast]
    simp [readLong, dropWhile_renderNat, readSign_renderNat, renderNat_ne_nil, htake, valueOf_renderNat, hclamp]

/-! ## The first digit -/

section FirstDigit

variable {ds : Bytes} {c : UInt8}

theorem toNat_of_isDigit (h : isDigit c) : 48 ≤ c.toNat ∧ c.toNat ≤ 57 := by
  simpa [isDigit, UInt8.le_iff_toNat_le] using h

theorem valueOf_concat (ds : Bytes) (c : UInt8) :
    valueOf 0 (ds ++ [c]) = 10 * valueOf 0 ds + (c.toNat - 48) := by
  unfold valueOf
  rw [List.foldl_append]
  rfl

/-- A numeral that begins with `2` or more. -/
theorem numeral_bounds (hne : ds ≠ []) (hds : ∀ c ∈ ds, isDigit c) (hhead : ∀ c ∈ ds.head?, 50 ≤ c.toNat) :
    ∃ n, 2 * 10 ^ n ≤ valueOf 0 ds ∧ valueOf 0 ds < 10 ^ (n + 1) := by
  induction ds using List.reverseRecOn with
  | nil => exact absurd rfl hne
  | append_singleton ds c ih =>
    have hc := toNat_of_isDigit (hds c (by simp))
    rw [valueOf_concat]
    by_cases hnil : ds = []
    · subst hnil
      have hfirst := hhead c rfl
      refine ⟨0, ?_⟩
      simp only [valueOf, List.foldl_nil]
      omega
    · have hsame : (ds ++ [c]).head? = ds.head? := List.head?_append_of_ne_nil _ hnil
      rw [hsame] at hhead
      obtain ⟨n, hlow, hhigh⟩ := ih hnil (fun d hd => hds d (by simp [hd])) hhead
      refine ⟨n + 1, ?_⟩
      rw [Nat.pow_succ 10 (n + 1), Nat.pow_succ 10 n] at *
      omega

theorem exists_numeral {m n : Nat} (hlow : 2 * 10 ^ n ≤ m) (hhigh : m < 10 ^ (n + 1)) :
    ∃ ds : Bytes, ds ≠ [] ∧ (∀ c ∈ ds, isDigit c) ∧ (∀ c ∈ ds.head?, 50 ≤ c.toNat) ∧ valueOf 0 ds = m := by
  have hdigit : (UInt8.ofNat (48 + m % 10)).toNat = 48 + m % 10 := by
    rw [UInt8.toNat_ofNat']
    omega
  induction n generalizing m with
  | zero =>
    refine ⟨[UInt8.ofNat (48 + m % 10)], by simp, ?_, ?_, ?_⟩
    · intro c hc
      obtain rfl := List.mem_singleton.mp hc
      exact isDigit_digit m
    · intro c hc
      obtain rfl := Option.some.inj hc
      omega
    · simp only [valueOf, List.foldl_cons, List.foldl_nil]
      omega
  | succ n ih =>
    rw [Nat.pow_succ 10 (n + 1), Nat.pow_succ 10 n] at *
    have hdigit' : (UInt8.ofNat (48 + m / 10 % 10)).toNat = 48 + m / 10 % 10 := by
      rw [UInt8.toNat_ofNat']
      omega
    obtain ⟨ds, hne, hds, hhead, hvalue⟩ := ih (m := m / 10) (by omega) (by omega) hdigit'
    refine ⟨ds ++ [UInt8.ofNat (48 + m % 10)], by simp, ?_, ?_, ?_⟩
    · intro c hc
      obtain hc | hc := List.mem_append.mp hc
      · exact hds c hc
      · obtain rfl := List.mem_singleton.mp hc
        exact isDigit_digit m
    · rw [List.head?_append_of_ne_nil _ hne]
      exact hhead
    · rw [valueOf_concat, hvalue, hdigit]
      omega

end FirstDigit

end Decimal
