import Mathlib.Data.Rat.Floor
import Mathlib.Tactic.FieldSimp
import Mathlib.Tactic.Linarith

/-!
# Rounding to integers

The two roundings that divide with a remainder: toward zero, and to the nearest integer
with ties away from zero. On a quotient of integers both are a truncating division, the
second after a bias of half the divisor.
-/

namespace Rounding

/-- Toward zero. -/
def truncate (x : ℚ) : ℤ := if 0 ≤ x then ⌊x⌋ else ⌈x⌉

/-- To the nearest integer, ties away from zero. -/
def roundAway (x : ℚ) : ℤ := if 0 ≤ x then ⌊x + 1 / 2⌋ else ⌈x - 1 / 2⌉

theorem truncate_neg (x : ℚ) : truncate (-x) = -truncate x := by
  rcases lt_trichotomy x 0 with h | h | h
  · rw [truncate, truncate, if_pos (by linarith), if_neg (by linarith), Int.floor_neg]
  · simp [truncate, h]
  · rw [truncate, truncate, if_neg (by linarith), if_pos h.le, Int.ceil_neg]

theorem roundAway_neg (x : ℚ) : roundAway (-x) = -roundAway x := by
  rcases lt_trichotomy x 0 with h | h | h
  · rw [roundAway, roundAway, if_pos (by linarith), if_neg (by linarith), ← Int.floor_neg]
    ring_nf
  · subst h
    rw [neg_zero, show roundAway 0 = 0 by norm_num [roundAway], neg_zero]
  · rw [roundAway, roundAway, if_neg (by linarith), if_pos h.le, ← Int.ceil_neg]
    ring_nf

theorem floor_div {a b : ℤ} (hb : 0 < b) : ⌊(a : ℚ) / b⌋ = a / b := by
  lift b to ℕ using hb.le
  exact Rat.floor_intCast_div_natCast a b

/-- A quotient by a negative number is the opposite of one by a positive number. -/
theorem div_eq_neg_div_neg (a b : ℤ) : (a : ℚ) / b = -((a : ℚ) / (-b : ℤ)) := by
  rw [Int.cast_neg, div_neg, neg_neg]

theorem truncate_div_of_nonneg {a b : ℤ} (ha : 0 ≤ a) (hb : 0 < b) :
    truncate ((a : ℚ) / b) = a.tdiv b := by
  have hpos : (0 : ℚ) ≤ (a : ℚ) / b := by positivity
  rw [truncate, if_pos hpos, floor_div hb, Int.tdiv_eq_ediv_of_nonneg ha]

theorem roundAway_div_of_nonneg {a b : ℤ} (ha : 0 ≤ a) (hb : 0 < b) :
    roundAway ((a : ℚ) / b) = (a + b / 2).tdiv b := by
  have hpos : (0 : ℚ) ≤ (a : ℚ) / b := by positivity
  have hne : (b : ℚ) ≠ 0 := by positivity
  have hhalf : (a : ℚ) / b + 1 / 2 = ((2 * a + b : ℤ) : ℚ) / ((2 * b : ℤ) : ℚ) := by
    push_cast
    field_simp
  rw [roundAway, if_pos hpos, hhalf, floor_div (by omega), ← Int.ediv_ediv_of_nonneg (by omega),
    Int.tdiv_eq_ediv_of_nonneg (by omega)]
  congr 1
  omega

/-- Truncation of a quotient. -/
theorem truncate_div {a b : ℤ} (hb : b ≠ 0) : truncate ((a : ℚ) / b) = a.tdiv b := by
  have hpos : ∀ {b : ℤ}, 0 < b → truncate ((a : ℚ) / b) = a.tdiv b := by
    intro b hb
    rcases le_total 0 a with ha | ha
    · exact truncate_div_of_nonneg ha hb
    · have hneg := truncate_div_of_nonneg (a := -a) (by omega) hb
      rw [Int.cast_neg, neg_div, truncate_neg, Int.neg_tdiv] at hneg
      omega
  rcases lt_or_gt_of_ne hb with hlt | hgt
  · have hneg := hpos (b := -b) (by omega)
    rw [div_eq_neg_div_neg, truncate_neg, hneg, Int.tdiv_neg, neg_neg]
  · exact hpos hgt

/-- The divisor's half, added away from zero before the division. -/
def bias (a b : ℤ) : ℤ := if 0 ≤ a then a + |b| / 2 else a - |b| / 2

/-- Rounding of a quotient, ties away from zero. -/
theorem roundAway_div {a b : ℤ} (hb : b ≠ 0) : roundAway ((a : ℚ) / b) = (bias a b).tdiv b := by
  have hpos : ∀ {b : ℤ}, 0 < b → roundAway ((a : ℚ) / b) = (bias a b).tdiv b := by
    intro b hb
    rw [bias, abs_of_pos hb]
    split
    · next ha => exact roundAway_div_of_nonneg ha hb
    · next ha =>
        have hneg := roundAway_div_of_nonneg (a := -a) (by omega) hb
        rw [Int.cast_neg, neg_div, roundAway_neg, show -a + b / 2 = -(a - b / 2) by ring,
          Int.neg_tdiv] at hneg
        omega
  rcases lt_or_gt_of_ne hb with hlt | hgt
  · have hneg := hpos (b := -b) (by omega)
    rw [div_eq_neg_div_neg, roundAway_neg, hneg, Int.tdiv_neg, neg_neg, bias, bias, abs_neg]
  · exact hpos hgt

/-! ### Integers and order -/

/-- An integer is its own truncation. -/
theorem truncate_intCast (n : ℤ) : truncate n = n := by
  unfold truncate
  split
  · exact Int.floor_intCast n
  · exact Int.ceil_intCast n

/-- An integer is its own rounding. -/
theorem roundAway_intCast (n : ℤ) : roundAway n = n := by
  unfold roundAway
  split
  · rw [Int.floor_intCast_add, show ⌊(1 / 2 : ℚ)⌋ = 0 by norm_num, add_zero]
  · rw [sub_eq_add_neg, Int.ceil_intCast_add, show ⌈(-(1 / 2) : ℚ)⌉ = 0 by norm_num, add_zero]

theorem truncate_mono {x y : ℚ} (hxy : x ≤ y) : truncate x ≤ truncate y := by
  unfold truncate
  split
  · next hx =>
      rw [if_pos (hx.trans hxy)]
      exact Int.floor_mono hxy
  · next hx =>
      split
      · next hy => exact (Int.ceil_nonpos.mpr (not_le.mp hx).le).trans (Int.floor_nonneg.mpr hy)
      · exact Int.ceil_mono hxy

theorem roundAway_mono {x y : ℚ} (hxy : x ≤ y) : roundAway x ≤ roundAway y := by
  unfold roundAway
  split
  · next hx =>
      rw [if_pos (hx.trans hxy)]
      exact Int.floor_mono (by linarith)
  · next hx =>
      split
      · next hy =>
          have hle : ⌈x - 1 / 2⌉ ≤ 0 := Int.ceil_nonpos.mpr (by linarith)
          have hge : 0 ≤ ⌊y + 1 / 2⌋ := Int.floor_nonneg.mpr (by linarith)
          exact hle.trans hge
      · exact Int.ceil_mono (by linarith)

end Rounding
