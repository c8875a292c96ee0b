import Mathlib.Algebra.Order.Group.Int
import Mathlib.Tactic.Linarith

/-!
# Signed 64-bit machine arithmetic

The two families of `i64` operations a compiled program uses, over Lean's
`Int64`. The plain operators (`+`, `-`, `*`, unary `-`, `abs`) wrap; the
`checked` ones return `none` exactly when the exact integer result is not
representable. Both are characterised through `Int64.toInt`: a result that
`Fits` is the exact integer, so proofs about programs move to `Int` and stay
there.
-/

namespace I64

/-! ### Representable integers -/

/-- The integers an `i64` can hold. -/
def Fits (n : Int) : Prop := -2 ^ 63 ≤ n ∧ n < 2 ^ 63

instance : DecidablePred Fits := fun n =>
  inferInstanceAs (Decidable (-2 ^ 63 ≤ n ∧ n < 2 ^ 63))

theorem fits_toInt (a : Int64) : Fits a.toInt := ⟨a.le_toInt, a.toInt_lt⟩

theorem toInt_ofInt {n : Int} (h : Fits n) : (Int64.ofInt n).toInt = n :=
  Int64.toInt_ofInt_of_le h.1 h.2

/-- An exact result that fits is not changed by reduction to 64 bits. -/
theorem bmod_of_fits {n : Int} (h : Fits n) : n.bmod (2 ^ 64) = n := by
  obtain ⟨h₁, h₂⟩ := h
  refine Int.bmod_eq_of_le ?_ ?_ <;> norm_num <;> omega

/-- A sandwiched integer fits. -/
theorem Fits.of_le {l n u : Int} (hl : Fits l) (hu : Fits u) (h₁ : l ≤ n) (h₂ : n ≤ u) :
    Fits n :=
  ⟨le_trans hl.1 h₁, lt_of_le_of_lt h₂ hu.2⟩

/-- A factor of an integer that fits, fits. -/
theorem Fits.of_mul {n k : Int} (hk : 1 ≤ k) (h : Fits (n * k)) : Fits n := by
  obtain ⟨h₁, h₂⟩ := h
  constructor
  · by_contra hlt
    have := mul_le_mul_of_nonpos_left hk (by omega : n ≤ 0)
    omega
  · by_contra hge
    have := mul_le_mul_of_nonneg_left hk (by omega : 0 ≤ n)
    omega

/-! ### Plain operators

Each wraps modulo `2 ^ 64`; when the exact result fits it is the exact result. -/

theorem toInt_add {a b : Int64} (h : Fits (a.toInt + b.toInt)) :
    (a + b).toInt = a.toInt + b.toInt := by
  rw [Int64.toInt_add, bmod_of_fits h]

theorem toInt_sub {a b : Int64} (h : Fits (a.toInt - b.toInt)) :
    (a - b).toInt = a.toInt - b.toInt := by
  rw [Int64.toInt_sub, bmod_of_fits h]

theorem toInt_mul {a b : Int64} (h : Fits (a.toInt * b.toInt)) :
    (a * b).toInt = a.toInt * b.toInt := by
  rw [Int64.toInt_mul, bmod_of_fits h]

theorem toInt_neg {a : Int64} (h : Fits (-a.toInt)) : (-a).toInt = -a.toInt := by
  rw [Int64.toInt_neg, bmod_of_fits h]

theorem toInt_abs {a : Int64} (h : Fits |a.toInt|) : a.abs.toInt = |a.toInt| := by
  have hmin : a.toBitVec ≠ BitVec.intMin 64 := by
    intro hb
    have ha : a.toInt = -2 ^ 63 := by
      rw [← Int64.toInt_toBitVec, hb]
      decide
    rw [ha] at h
    exact absurd h (by decide)
  rw [← Int64.toInt_toBitVec, Int64.toBitVec_abs, BitVec.toInt_abs_eq_natAbs_of_ne_intMin hmin,
    Int64.toInt_toBitVec, Int.natCast_natAbs]

/-- Truncating division by a positive divisor cannot leave the range. -/
theorem toInt_div_of_pos {a b : Int64} (hb : 0 < b.toInt) :
    (a / b).toInt = a.toInt.tdiv b.toInt := by
  refine Int64.toInt_div_of_ne_right a b ?_
  rintro rfl
  exact absurd hb (by decide)

/-- `i64::signum`. -/
def signum (a : Int64) : Int64 := if 0 < a then 1 else if a < 0 then -1 else 0

theorem toInt_signum (a : Int64) : (signum a).toInt = a.toInt.sign := by
  unfold signum
  by_cases hp : 0 < a
  · rw [if_pos hp, Int.sign_eq_one_of_pos (Int64.lt_iff_toInt_lt.mp hp)]
    rfl
  · rw [if_neg hp]
    by_cases hn : a < 0
    · rw [if_pos hn, Int.sign_eq_neg_one_of_neg (Int64.lt_iff_toInt_lt.mp hn)]
      rfl
    · rw [if_neg hn]
      have h0 : a.toInt = 0 := by
        rw [Int64.lt_iff_toInt_lt, Int64.toInt_zero] at hp hn
        omega
      rw [h0]
      rfl

theorem toInt_eq_zero {a : Int64} : a.toInt = 0 ↔ a = 0 := by
  rw [← Int64.toInt_zero, Int64.toInt_inj]

theorem toInt_min (a b : Int64) : (min a b).toInt = min a.toInt b.toInt := by
  have hmin : min a b = if a ≤ b then a else b := rfl
  rw [hmin]
  split
  · next h => rw [min_eq_left (Int64.le_iff_toInt_le.mp h)]
  · next h =>
      rw [Int64.le_iff_toInt_le] at h
      rw [min_eq_right (by omega)]

theorem toInt_max (a b : Int64) : (max a b).toInt = max a.toInt b.toInt := by
  have hmax : max a b = if a ≤ b then b else a := rfl
  rw [hmax]
  split
  · next h => rw [max_eq_right (Int64.le_iff_toInt_le.mp h)]
  · next h =>
      rw [Int64.le_iff_toInt_le] at h
      rw [max_eq_left (by omega)]

/-! ### Checked operators -/

/-- The `i64` holding `n`, if there is one. -/
def checked (n : Int) : Option Int64 := if Fits n then some (Int64.ofInt n) else none

theorem checked_of_fits {n : Int} (h : Fits n) : checked n = some (Int64.ofInt n) := if_pos h

theorem checked_eq_some {n : Int} {a : Int64} : checked n = some a ↔ a.toInt = n := by
  constructor
  · intro h
    simp only [checked] at h
    split at h
    · next hfits =>
        cases h
        exact toInt_ofInt hfits
    · cases h
  · rintro rfl
    rw [checked_of_fits (fits_toInt a), Int64.ofInt_toInt]

theorem checked_eq_none {n : Int} : checked n = none ↔ ¬ Fits n := by
  simp only [checked]
  split
  · next h => simp [h]
  · next h => simp [h]

/-- `i64::checked_add`. -/
def checkedAdd (a b : Int64) : Option Int64 := checked (a.toInt + b.toInt)

/-- `i64::checked_sub`. -/
def checkedSub (a b : Int64) : Option Int64 := checked (a.toInt - b.toInt)

/-- `i64::checked_mul`. -/
def checkedMul (a b : Int64) : Option Int64 := checked (a.toInt * b.toInt)

/-- The plain operators agree with the checked ones where these succeed. -/
theorem checkedAdd_of_fits {a b : Int64} (h : Fits (a.toInt + b.toInt)) :
    checkedAdd a b = some (a + b) := by
  rw [checkedAdd, checked_of_fits h, Int64.ofInt_add, Int64.ofInt_toInt, Int64.ofInt_toInt]

theorem checkedSub_of_fits {a b : Int64} (h : Fits (a.toInt - b.toInt)) :
    checkedSub a b = some (a - b) := by
  rw [checkedSub, checked_of_fits h, Int64.ofInt_sub, Int64.ofInt_toInt, Int64.ofInt_toInt]

theorem checkedMul_of_fits {a b : Int64} (h : Fits (a.toInt * b.toInt)) :
    checkedMul a b = some (a * b) := by
  rw [checkedMul, checked_of_fits h, Int64.ofInt_mul, Int64.ofInt_toInt, Int64.ofInt_toInt]

theorem checkedAdd_cases (a b : Int64) : checkedAdd a b = none ∨ checkedAdd a b = some (a + b) := by
  by_cases h : Fits (a.toInt + b.toInt)
  · exact Or.inr (checkedAdd_of_fits h)
  · exact Or.inl (checked_eq_none.mpr h)

theorem checkedSub_cases (a b : Int64) : checkedSub a b = none ∨ checkedSub a b = some (a - b) := by
  by_cases h : Fits (a.toInt - b.toInt)
  · exact Or.inr (checkedSub_of_fits h)
  · exact Or.inl (checked_eq_none.mpr h)

theorem checkedMul_cases (a b : Int64) : checkedMul a b = none ∨ checkedMul a b = some (a * b) := by
  by_cases h : Fits (a.toInt * b.toInt)
  · exact Or.inr (checkedMul_of_fits h)
  · exact Or.inl (checked_eq_none.mpr h)

/-- `i64::checked_neg`. -/
def checkedNeg (a : Int64) : Option Int64 := checked (-a.toInt)

/-- `i64::checked_abs`. -/
def checkedAbs (a : Int64) : Option Int64 := checked |a.toInt|

/-- The plain operator `a / b`, which truncates; `none` where it panics, whether or not
other operators are checked: on a zero divisor and on a quotient that does not fit. -/
def div? (a b : Int64) : Option Int64 := if b = 0 then none else checked (a.toInt.tdiv b.toInt)

/-- The only quotient that leaves the range is `MIN / -1`. -/
theorem fits_tdiv_iff (a b : Int64) :
    Fits (a.toInt.tdiv b.toInt) ↔ ¬ (a.toInt = -2 ^ 63 ∧ b.toInt = -1) := by
  obtain ⟨hmin, hmax⟩ := fits_toInt a
  have habs : (a.toInt.tdiv b.toInt).natAbs = a.toInt.natAbs / b.toInt.natAbs :=
    Int.natAbs_tdiv ..
  constructor
  · rintro h ⟨ha, hb⟩
    rw [ha, hb] at h
    exact absurd h (by decide)
  · intro h
    by_cases hone : b.toInt.natAbs = 1
    · have hb : b.toInt = 1 ∨ b.toInt = -1 := by omega
      rcases hb with hb | hb
      · rw [hb, Int.tdiv_one]
        exact fits_toInt a
      · rw [hb, Int.tdiv_neg, Int.tdiv_one]
        constructor <;> omega
    · -- a divisor of larger magnitude at least halves, zero gives zero
      have hhalf : a.toInt.natAbs / b.toInt.natAbs ≤ a.toInt.natAbs / 2 := by
        rcases Nat.eq_zero_or_pos b.toInt.natAbs with h0 | hpos
        · rw [h0, Nat.div_zero]
          exact Nat.zero_le _
        · exact Nat.div_le_div_left (by omega) (by decide)
      constructor <;> omega

/-- An exact result, when one that does not fit is replaced by zero. -/
def orZero (n : Int) : Int := if Fits n then n else 0

theorem orZero_of_fits {n : Int} (h : Fits n) : orZero n = n := if_pos h

theorem orZero_of_not_fits {n : Int} (h : ¬ Fits n) : orZero n = 0 := if_neg h

theorem orZero_nonneg {n : Int} (h : 0 ≤ n) : 0 ≤ orZero n := by
  unfold orZero
  split
  · exact h
  · exact le_refl 0

/-- `unwrap_or(0)` after a checked operation. -/
theorem toInt_checked_getD_zero (n : Int) : ((checked n).getD 0).toInt = orZero n := by
  by_cases h : Fits n
  · rw [checked_of_fits h, orZero_of_fits h, Option.getD_some, toInt_ofInt h]
  · rw [checked_eq_none.mpr h, orZero_of_not_fits h]
    rfl

/-! ### Saturating operators -/

/-- The integer that fits nearest to `n`. -/
def clamp (n : Int) : Int := max (-2 ^ 63) (min n (2 ^ 63 - 1))

theorem fits_clamp (n : Int) : Fits (clamp n) := by
  unfold Fits clamp
  omega

/-- `i64::saturating_add`. -/
def saturatingAdd (a b : Int64) : Int64 := Int64.ofInt (clamp (a.toInt + b.toInt))

theorem toInt_saturatingAdd (a b : Int64) :
    (saturatingAdd a b).toInt = clamp (a.toInt + b.toInt) :=
  toInt_ofInt (fits_clamp _)

/-- `i64::saturating_sub`. -/
def saturatingSub (a b : Int64) : Int64 := Int64.ofInt (clamp (a.toInt - b.toInt))

/-- `i64::saturating_mul`. -/
def saturatingMul (a b : Int64) : Int64 := Int64.ofInt (clamp (a.toInt * b.toInt))

/-- `i64::saturating_abs`: the absolute value, and `MAX` for `MIN`. -/
def saturatingAbs (a : Int64) : Int64 := if a = Int64.minValue then Int64.maxValue else a.abs

theorem toInt_saturatingAbs (a : Int64) : (saturatingAbs a).toInt = clamp |a.toInt| := by
  obtain ⟨hmin, hmax⟩ := fits_toInt a
  unfold saturatingAbs clamp
  split
  · next h =>
      subst h
      decide
  · next h =>
      have hne : a.toInt ≠ -2 ^ 63 := fun ha => h (Int64.toInt_inj.mp ha)
      have habs := abs_cases a.toInt
      rw [toInt_abs (a := a) ⟨by omega, by omega⟩]
      omega

end I64
