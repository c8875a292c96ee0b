import Mantis.Fixed.MulDiv

/-!
# Mantis.Fixed.Convert

Conversion between scales (`crates/fixed/src/convert.rs`).

Each of the three conversions has a widening branch that multiplies and a narrowing branch
that divides. Read as rational numbers both branches are one formula: the value in units of
the target scale, truncated, rounded, or required to be whole. The laws between the three
then follow from laws of rounding.
-/

namespace Mantis

open I128 (ofI64)

namespace FixedI64

variable {D D2 : Nat}

/-! ### The conversions -/

/-- The widening branch, which all three conversions share. -/
def widen (D2 : Nat) (x : FixedI64 D) : Option (FixedI64 D2) :=
  let factor := ofI64 (pow10I64 (D2 - D))
  narrow (ofI64 x.raw * factor)

/-- Rescale, truncating toward zero when narrowing. -/
def rescaleTrunc (D2 : Nat) (x : FixedI64 D) : Option (FixedI64 D2) :=
  if D2 = D then some ⟨x.raw⟩
  else if D < D2 then x.widen D2
  else
    let raw := ofI64 x.raw
    let factor := ofI64 (pow10I64 (D - D2))
    narrow (raw.sdiv factor)

/-- Rescale, rounding ties away from zero when narrowing. -/
def rescaleRound (D2 : Nat) (x : FixedI64 D) : Option (FixedI64 D2) :=
  if D2 = D then some ⟨x.raw⟩
  else if D < D2 then x.widen D2
  else
    let raw := ofI64 x.raw
    let factor := ofI64 (pow10I64 (D - D2))
    let half := factor.sdiv 2
    let biased := if BitVec.sle 0 raw then raw + half else raw - half
    narrow (biased.sdiv factor)

/-- Rescale exactly: `none` if narrowing would lose digits. -/
def checkedRescaleExact (D2 : Nat) (x : FixedI64 D) : Option (FixedI64 D2) :=
  if D2 = D then some ⟨x.raw⟩
  else if D < D2 then x.widen D2
  else
    let raw := ofI64 x.raw
    let factor := ofI64 (pow10I64 (D - D2))
    if raw.srem factor ≠ 0 then none else narrow (raw.sdiv factor)

/-- The three conversions. -/
inductive Rescaling
  | trunc
  | round
  | exact
  deriving DecidableEq, Repr

def Rescaling.apply (D2 : Nat) (x : FixedI64 D) : Rescaling → Option (FixedI64 D2)
  | .trunc => x.rescaleTrunc D2
  | .round => x.rescaleRound D2
  | .exact => x.checkedRescaleExact D2

/-! ### Values -/

/-- The number a raw amount stands for. -/
def toRat (x : FixedI64 D) : ℚ := x.raw.toInt / 10 ^ D

/-- The value in units of `10⁻ᴰ²`. -/
def inUnits (D2 : Nat) (x : FixedI64 D) : ℚ := x.toRat * 10 ^ D2

theorem inUnits_mono {x x' : FixedI64 D} (h : x.toRat ≤ x'.toRat) :
    x.inUnits D2 ≤ x'.inUnits D2 :=
  mul_le_mul_of_nonneg_right h (by positivity)

/-- In its own units a value is its raw amount. -/
theorem inUnits_self (x : FixedI64 D) : x.inUnits D = (x.raw.toInt : ℤ) :=
  div_mul_cancel₀ _ (by positivity)

theorem inUnits_of_le (h : D ≤ D2) (x : FixedI64 D) :
    x.inUnits D2 = (x.raw.toInt * 10 ^ (D2 - D) : ℤ) := by
  obtain ⟨k, rfl⟩ := Nat.exists_eq_add_of_le h
  rw [inUnits, toRat, Nat.add_sub_cancel_left, pow_add]
  push_cast
  field_simp

theorem inUnits_of_ge (h : D2 ≤ D) (x : FixedI64 D) :
    x.inUnits D2 = (x.raw.toInt : ℚ) / (10 ^ (D - D2) : ℤ) := by
  obtain ⟨k, rfl⟩ := Nat.exists_eq_add_of_le h
  rw [inUnits, toRat, Nat.add_sub_cancel_left, pow_add]
  push_cast
  field_simp

/-- Amounts of equal value, at any two scales. -/
theorem toRat_eq_iff (x : FixedI64 D) (y : FixedI64 D2) :
    y.toRat = x.toRat ↔ (y.raw.toInt : ℚ) = x.inUnits D2 := by
  rw [toRat, inUnits, div_eq_iff (by positivity)]

theorem toRat_le_iff (x y : FixedI64 D) : x.toRat ≤ y.toRat ↔ x.raw.toInt ≤ y.raw.toInt := by
  rw [toRat, toRat, div_le_div_iff_of_pos_right (by positivity), Int.cast_le]

/-! ### The branches -/

open Rounding

theorem toInt_factor {d : Nat} (hd : d ≤ 18) : (ofI64 (pow10I64 d)).toInt = 10 ^ d := by
  rw [I128.toInt_ofI64, toInt_pow10I64 hd]

theorem factor_bounds {d : Nat} (hd : d ≤ 18) : (0 : Int) < 10 ^ d ∧ (10 : Int) ^ d < 2 ^ 63 := by
  have hmax := (I64.fits_toInt (pow10I64 d)).2
  rw [toInt_pow10I64 hd] at hmax
  exact ⟨by positivity, hmax⟩

/-- The same scale, and the raw amount as it is. -/
theorem same_eq (x : FixedI64 D) : some x = (I64.checked x.raw.toInt).map mk := by
  rw [I64.checked_eq_some.mpr rfl, Option.map_some]

/-- Widening multiplies. -/
theorem widen_eq (h : D ≤ D2) (hD2 : D2 ≤ 18) (x : FixedI64 D) :
    x.widen D2 = (I64.checked (x.raw.toInt * 10 ^ (D2 - D))).map mk := by
  simp only [widen]
  rw [narrow_eq, toInt_wide, toInt_pow10I64 (by omega)]

/-- Narrowing divides. -/
theorem toInt_narrowed {d : Nat} (hd : d ≤ 18) {a : BitVec 128} (hmin : -2 ^ 127 < a.toInt) :
    (a.sdiv (ofI64 (pow10I64 d))).toInt = a.toInt.tdiv (10 ^ d) := by
  have hfits := I128.fits_tdiv hmin BitVec.toInt_lt (10 ^ d)
  rw [I128.toInt_sdiv, toInt_factor hd]
  rw [toInt_factor hd]
  exact hfits

theorem narrowTrunc_eq (hD : D ≤ 18) (x : FixedI64 D) :
    narrow ((ofI64 x.raw).sdiv (ofI64 (pow10I64 (D - D2)))) =
      (I64.checked (x.raw.toInt.tdiv (10 ^ (D - D2)))).map (mk (D := D2)) := by
  obtain ⟨hmin, -⟩ := I64.fits_toInt x.raw
  rw [narrow_eq, toInt_narrowed (by omega) (by rw [I128.toInt_ofI64]; omega), I128.toInt_ofI64]

theorem rescaleTrunc_eq (hD : D ≤ 18) (hD2 : D2 ≤ 18) (x : FixedI64 D) :
    x.rescaleTrunc D2 = (I64.checked (truncate (x.inUnits D2))).map mk := by
  unfold rescaleTrunc
  split
  · next h =>
      subst h
      rw [inUnits_self, truncate_intCast, same_eq]
  · split
    · next hlt => rw [widen_eq hlt.le hD2, inUnits_of_le hlt.le, truncate_intCast]
    · next hlt =>
        rw [inUnits_of_ge (not_lt.mp hlt), truncate_div (by positivity)]
        exact narrowTrunc_eq hD x

theorem rescaleRound_eq (hD : D ≤ 18) (hD2 : D2 ≤ 18) (x : FixedI64 D) :
    x.rescaleRound D2 = (I64.checked (roundAway (x.inUnits D2))).map mk := by
  unfold rescaleRound
  split
  · next h =>
      subst h
      rw [inUnits_self, roundAway_intCast, same_eq]
  · split
    · next hlt => rw [widen_eq hlt.le hD2, inUnits_of_le hlt.le, roundAway_intCast]
    · next hlt =>
        obtain ⟨hmin, hmax⟩ := I64.fits_toInt x.raw
        obtain ⟨hpos, hlt63⟩ := factor_bounds (d := D - D2) (by omega)
        have hfactor := toInt_factor (d := D - D2) (by omega)
        have hhalf := toInt_half (x := ofI64 (pow10I64 (D - D2))) (by omega) (by omega)
        rw [hfactor] at hhalf
        have hbiased := toInt_biased (I128.toInt_ofI64 x.raw) hhalf (by omega) (by omega)
        have hbias : bias x.raw.toInt (10 ^ (D - D2)) =
            if 0 ≤ x.raw.toInt then x.raw.toInt + 10 ^ (D - D2) / 2
            else x.raw.toInt - 10 ^ (D - D2) / 2 := by
          rw [bias, abs_of_pos hpos]
        rw [← hbias] at hbiased
        rw [inUnits_of_ge (not_lt.mp hlt), roundAway_div (by positivity), ← hbiased]
        show narrow _ = _
        rw [narrow_eq, toInt_narrowed (by omega)]
        rw [hbiased, hbias]
        split <;> omega

/-- A remainder is left exactly when the value is not a whole number of units. -/
theorem srem_ne_zero_iff {d : Nat} (hd : d ≤ 18) (a : Int64) :
    (ofI64 a).srem (ofI64 (pow10I64 d)) ≠ 0 ↔ ¬ (10 : Int) ^ d ∣ a.toInt := by
  rw [not_iff_not, ← BitVec.toInt_inj, BitVec.toInt_srem, toInt_factor hd, I128.toInt_ofI64]
  exact ⟨Int.dvd_of_tmod_eq_zero, Int.tmod_eq_zero_of_dvd⟩

/-- **The exact conversion finds the same number at the other scale, if it is there.** -/
theorem checkedRescaleExact_eq_some (hD : D ≤ 18) (hD2 : D2 ≤ 18) (x : FixedI64 D)
    (y : FixedI64 D2) : x.checkedRescaleExact D2 = some y ↔ y.toRat = x.toRat := by
  rw [toRat_eq_iff]
  -- whatever the branch, the result is a checked whole number of units
  have hunits : ∀ n : ℤ, (I64.checked n).map mk = some y ↔ (y.raw.toInt : ℚ) = (n : ℤ) := by
    intro n
    rw [Option.map_eq_some_iff, Int.cast_inj]
    constructor
    · rintro ⟨raw, hraw, rfl⟩
      exact I64.checked_eq_some.mp hraw
    · intro h
      exact ⟨y.raw, I64.checked_eq_some.mpr h, rfl⟩
  unfold checkedRescaleExact
  split
  · next h =>
      subst h
      rw [inUnits_self, ← hunits, ← same_eq]
  · split
    · next hlt => rw [widen_eq hlt.le hD2, inUnits_of_le hlt.le, hunits]
    · next hlt =>
        have hpos : (10 ^ (D - D2) : ℤ) ≠ 0 := by positivity
        rw [inUnits_of_ge (not_lt.mp hlt)]
        simp only [srem_ne_zero_iff (d := D - D2) (by omega)]
        split
        · next hrem =>
            refine ⟨fun h => absurd h (by simp), fun h => absurd ?_ hrem⟩
            rw [eq_div_iff (by exact_mod_cast hpos)] at h
            exact ⟨y.raw.toInt, by rw [mul_comm]; exact_mod_cast h.symm⟩
        · next hrem =>
            obtain ⟨n, hn⟩ := not_not.mp hrem
            rw [narrowTrunc_eq hD, hunits, hn, Int.mul_tdiv_cancel_left _ hpos]
            push_cast
            rw [mul_div_cancel_left₀ _ (by positivity)]

/-! ### The laws -/

/-- What conversion from `D` to `D2` decimal places promises. -/
structure RescaleLaws (D D2 : Nat) : Prop where
  /-- The exact conversion succeeds on the numbers representable at `D2`, with that number. -/
  exact_iff : ∀ (x : FixedI64 D) (y : FixedI64 D2),
    x.checkedRescaleExact D2 = some y ↔ y.toRat = x.toRat
  exact_back : ∀ (x : FixedI64 D) (y : FixedI64 D2),
    x.checkedRescaleExact D2 = some y → y.checkedRescaleExact D = some x
  trunc_eq : ∀ x : FixedI64 D,
    x.rescaleTrunc D2 = (I64.checked (truncate (x.toRat * 10 ^ D2))).map mk
  round_eq : ∀ x : FixedI64 D,
    x.rescaleRound D2 = (I64.checked (roundAway (x.toRat * 10 ^ D2))).map mk
  /-- Every conversion is monotone where it is defined. -/
  mono : ∀ (r : Rescaling) {x x' : FixedI64 D} {y y' : FixedI64 D2},
    r.apply D2 x = some y → r.apply D2 x' = some y' → x.toRat ≤ x'.toRat → y.toRat ≤ y'.toRat
  trunc_of_exact : ∀ {x : FixedI64 D} {y : FixedI64 D2},
    x.checkedRescaleExact D2 = some y → x.rescaleTrunc D2 = some y
  round_of_exact : ∀ {x : FixedI64 D} {y : FixedI64 D2},
    x.checkedRescaleExact D2 = some y → x.rescaleRound D2 = some y
  /-- Widening and then narrowing, each by any of the three. -/
  widen_narrow : D ≤ D2 → ∀ (r r' : Rescaling) {x : FixedI64 D} {y : FixedI64 D2},
    r.apply D2 x = some y → r'.apply D y = some x

/-- A conversion that applies a monotone rounding to the value. -/
theorem mono_of_eq {round : ℚ → ℤ} (hround : ∀ {q q' : ℚ}, q ≤ q' → round q ≤ round q')
    {f : FixedI64 D → Option (FixedI64 D2)}
    (hf : ∀ x, f x = (I64.checked (round (x.inUnits D2))).map mk) {x x' : FixedI64 D}
    {y y' : FixedI64 D2} (hy : f x = some y) (hy' : f x' = some y') (h : x.toRat ≤ x'.toRat) :
    y.toRat ≤ y'.toRat := by
  have hraw : ∀ {x : FixedI64 D} {y : FixedI64 D2}, f x = some y →
      y.raw.toInt = round (x.inUnits D2) := by
    intro x y hy
    rw [hf, Option.map_eq_some_iff] at hy
    obtain ⟨raw, hchecked, rfl⟩ := hy
    exact I64.checked_eq_some.mp hchecked
  rw [toRat_le_iff, hraw hy, hraw hy']
  exact hround (inUnits_mono h)

/-- A rounding that keeps integers agrees with the exact conversion. -/
theorem of_toRat_eq {round : ℚ → ℤ} (hround : ∀ n : ℤ, round n = n)
    {f : FixedI64 D → Option (FixedI64 D2)}
    (hf : ∀ x, f x = (I64.checked (round (x.inUnits D2))).map mk) {x : FixedI64 D}
    {y : FixedI64 D2} (h : y.toRat = x.toRat) : f x = some y := by
  rw [hf, ← (toRat_eq_iff x y).mp h, hround, ← same_eq]

/-- Where the value is representable, each of the three finds it. -/
theorem apply_of_toRat_eq (hD : D ≤ 18) (hD2 : D2 ≤ 18) (r : Rescaling) {x : FixedI64 D}
    {y : FixedI64 D2} (h : y.toRat = x.toRat) : r.apply D2 x = some y := by
  cases r with
  | trunc => exact of_toRat_eq truncate_intCast (rescaleTrunc_eq hD hD2) h
  | round => exact of_toRat_eq roundAway_intCast (rescaleRound_eq hD hD2) h
  | exact => exact (checkedRescaleExact_eq_some hD hD2 x y).mpr h

theorem apply_mono (hD : D ≤ 18) (hD2 : D2 ≤ 18) (r : Rescaling) {x x' : FixedI64 D}
    {y y' : FixedI64 D2} (hy : r.apply D2 x = some y) (hy' : r.apply D2 x' = some y')
    (h : x.toRat ≤ x'.toRat) : y.toRat ≤ y'.toRat := by
  cases r with
  | trunc => exact mono_of_eq truncate_mono (rescaleTrunc_eq hD hD2) hy hy' h
  | round => exact mono_of_eq roundAway_mono (rescaleRound_eq hD hD2) hy hy' h
  | exact =>
      rw [(checkedRescaleExact_eq_some hD hD2 x y).mp hy,
        (checkedRescaleExact_eq_some hD hD2 x' y').mp hy']
      exact h

/-- Widening never loses anything, so all three are one function there. -/
theorem toRat_of_widened (h : D ≤ D2) (hD : D ≤ 18) (hD2 : D2 ≤ 18) (r : Rescaling)
    {x : FixedI64 D} {y : FixedI64 D2} (hy : r.apply D2 x = some y) : y.toRat = x.toRat := by
  have hwhole := inUnits_of_le h x
  have hraw : (I64.checked (x.raw.toInt * 10 ^ (D2 - D))).map mk = some y → y.toRat = x.toRat := by
    intro hy
    rw [Option.map_eq_some_iff] at hy
    obtain ⟨raw, hchecked, rfl⟩ := hy
    rw [toRat_eq_iff, hwhole, I64.checked_eq_some.mp hchecked]
  cases r with
  | trunc =>
      simp only [Rescaling.apply, rescaleTrunc_eq hD hD2, hwhole, truncate_intCast] at hy
      exact hraw hy
  | round =>
      simp only [Rescaling.apply, rescaleRound_eq hD hD2, hwhole, roundAway_intCast] at hy
      exact hraw hy
  | exact => exact (checkedRescaleExact_eq_some hD hD2 x y).mp hy

/-- **Rescaling is exact, truncated or rounded, at every pair of scales.** -/
theorem rescale_laws (hD : D ≤ 18) (hD2 : D2 ≤ 18) : RescaleLaws D D2 where
  exact_iff := checkedRescaleExact_eq_some hD hD2
  exact_back x y h := by
    rw [checkedRescaleExact_eq_some hD hD2] at h
    exact (checkedRescaleExact_eq_some hD2 hD y x).mpr h.symm
  trunc_eq := rescaleTrunc_eq hD hD2
  round_eq := rescaleRound_eq hD hD2
  mono := apply_mono hD hD2
  trunc_of_exact h :=
    apply_of_toRat_eq hD hD2 .trunc ((checkedRescaleExact_eq_some hD hD2 _ _).mp h)
  round_of_exact h :=
    apply_of_toRat_eq hD hD2 .round ((checkedRescaleExact_eq_some hD hD2 _ _).mp h)
  widen_narrow hle r r' x y h :=
    apply_of_toRat_eq hD2 hD r' (toRat_of_widened hle hD hD2 r h).symm

/-- From six places to two: the negative half `-0.005` is truncated to zero, rounded away
from it, and has no exact image. -/
theorem rescale_laws_negative_half :
    RescaleLaws 6 2 ∧
      (mk (D := 6) (-5000)).rescaleTrunc 2 = some ⟨0⟩ ∧
      (mk (D := 6) (-5000)).rescaleRound 2 = some ⟨-1⟩ ∧
      (mk (D := 6) (-5000)).checkedRescaleExact 2 = none ∧
      (mk (D := 2) Int64.maxValue).rescaleTrunc 6 = none :=
  ⟨rescale_laws (by decide) (by decide), by decide, by decide, by decide, by decide⟩

end FixedI64

end Mantis
