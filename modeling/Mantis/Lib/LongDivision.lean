import Mathlib.Tactic.Ring

/-!
# Binary long division

A division in progress: the quotient bits from position `k` up are settled, and the rest of
the dividend is below the divisor shifted by `k`. One step settles the next bit. The
remainder may be kept in two words; the second part says what a step does to them.
-/

namespace LongDivision

/-! ### The division in progress -/

/-- `n` divided by `d` down to position `k`, with quotient `q` and remainder `r` so far. -/
structure Partial (n d k q r : Nat) : Prop where
  exact : q * d + r = n
  bound : r < d * 2 ^ k
  aligned : 2 ^ k ∣ q

namespace Partial

variable {n d k q r : Nat}

theorem start (h : n < d * 2 ^ k) : Partial n d k 0 n where
  exact := by rw [Nat.zero_mul, Nat.zero_add]
  bound := h
  aligned := Nat.dvd_zero _

/-- The shifted remainder is below twice the divisor. -/
theorem window_lt (h : Partial n d (k + 1) q r) : r / 2 ^ k < 2 * d := by
  rw [Nat.div_lt_iff_lt_mul (Nat.two_pow_pos k)]
  calc
    r < d * 2 ^ (k + 1) := h.bound
    _ = 2 * d * 2 ^ k := by ring

theorem aligned_pred (h : Partial n d (k + 1) q r) : 2 ^ k ∣ q :=
  Nat.dvd_trans (Nat.pow_dvd_pow 2 (Nat.le_succ k)) h.aligned

/-- The bit at `k` is 0. -/
theorem keep (h : Partial n d (k + 1) q r) (hlt : r / 2 ^ k < d) : Partial n d k q r where
  exact := h.exact
  bound := (Nat.div_lt_iff_lt_mul (Nat.two_pow_pos k)).mp hlt
  aligned := h.aligned_pred

/-- The bit at `k` is 1. -/
theorem take (h : Partial n d (k + 1) q r) (hle : d ≤ r / 2 ^ k) :
    Partial n d k (q + 2 ^ k) (r - d * 2 ^ k) where
  exact := by
    have hfits : d * 2 ^ k ≤ r := (Nat.le_div_iff_mul_le (Nat.two_pow_pos k)).mp hle
    have hexact := h.exact
    have hmul : (q + 2 ^ k) * d = q * d + d * 2 ^ k := by ring
    omega
  bound := by
    have hbound := h.bound
    have hdouble : d * 2 ^ (k + 1) = d * 2 ^ k + d * 2 ^ k := by ring
    omega
  aligned := Nat.dvd_add h.aligned_pred (Nat.dvd_refl _)

theorem remainder_lt (h : Partial n d 0 q r) : r < d := by
  simpa using h.bound

end Partial

/-! ### Remainders in two words -/

section Words

variable {w : Nat}

/-- The number with high word `hi` and low word `lo`. -/
def value (hi lo : BitVec w) : Nat := hi.toNat * 2 ^ w + lo.toNat

/-- The `w` bits of the remainder from position `k`, taken out of its two words. -/
def window (hi lo : BitVec w) (k : Nat) : BitVec w := (hi <<< (w - k)) ||| (lo >>> k)

theorem value_lt (hi lo : BitVec w) (d : BitVec w) (h : hi < d) :
    value hi lo < d.toNat * 2 ^ w := by
  have hlo := lo.isLt
  calc
    value hi lo < hi.toNat * 2 ^ w + 2 ^ w := by rw [value]; omega
    _ = (hi.toNat + 1) * 2 ^ w := by ring
    _ ≤ d.toNat * 2 ^ w := Nat.mul_le_mul_right _ h

/-- The remainder above position `k`. -/
theorem value_div {hi lo : BitVec w} {k : Nat} (hk : k ≤ w) :
    value hi lo / 2 ^ k = hi.toNat * 2 ^ (w - k) + lo.toNat / 2 ^ k := by
  have hsplit : 2 ^ w = 2 ^ (w - k) * 2 ^ k := by rw [← Nat.pow_add, Nat.sub_add_cancel hk]
  rw [value, hsplit, ← Nat.mul_assoc, Nat.add_comm, Nat.add_mul_div_right _ _ (Nat.two_pow_pos k),
    Nat.add_comm]

theorem lo_div_lt (lo : BitVec w) {k : Nat} (hk : k ≤ w) : lo.toNat / 2 ^ k < 2 ^ (w - k) := by
  rw [Nat.div_lt_iff_lt_mul (Nat.two_pow_pos k), ← Nat.pow_add, Nat.sub_add_cancel hk]
  exact lo.isLt

/-- The window holds the remainder above `k`, less what left the word at the top. -/
theorem toNat_window {hi lo : BitVec w} {k : Nat} (hk : k ≤ w) :
    (window hi lo k).toNat = (value hi lo / 2 ^ k) % 2 ^ w := by
  have hlo := lo_div_lt lo hk
  have hsplit : 2 ^ w = 2 ^ (w - k) * 2 ^ k := by rw [← Nat.pow_add, Nat.sub_add_cancel hk]
  have hshift : hi.toNat * 2 ^ (w - k) % 2 ^ w = 2 ^ (w - k) * (hi.toNat % 2 ^ k) := by
    rw [hsplit, Nat.mul_comm hi.toNat, Nat.mul_mod_mul_left]
  rw [window, BitVec.toNat_or, BitVec.toNat_shiftLeft, BitVec.toNat_ushiftRight,
    Nat.shiftLeft_eq, Nat.shiftRight_eq_div_pow, hshift, ← Nat.two_pow_add_eq_or_of_lt hlo,
    value_div hk, Nat.mul_comm hi.toNat, hsplit, Nat.mod_mul, Nat.mul_add_mod,
    Nat.mod_eq_of_lt hlo, Nat.mul_add_div (Nat.two_pow_pos _), Nat.div_eq_of_lt hlo,
    Nat.add_zero, Nat.add_comm]

/-- What left the word at the top of the window. -/
theorem toNat_hi_shift (hi lo : BitVec w) (k : Nat) :
    (hi >>> k).toNat = value hi lo / 2 ^ k / 2 ^ w := by
  rw [BitVec.toNat_ushiftRight, Nat.shiftRight_eq_div_pow, Nat.div_div_eq_div_mul, Nat.mul_comm,
    ← Nat.div_div_eq_div_mul, value, Nat.add_comm, Nat.add_mul_div_right _ _ (Nat.two_pow_pos w),
    Nat.div_eq_of_lt lo.isLt, Nat.zero_add]

/-- The comparison of a step: the divisor fits unless the window is below it and nothing left
the word. -/
theorem fits_iff {hi lo d : BitVec w} {k : Nat} (hk : k ≤ w) :
    (¬ window hi lo k < d) ∨ hi >>> k ≠ 0#w ↔ d.toNat ≤ value hi lo / 2 ^ k := by
  have hd := d.isLt
  have hpos := Nat.two_pow_pos w
  have hmod := Nat.div_add_mod (value hi lo / 2 ^ k) (2 ^ w)
  rw [BitVec.lt_def, ne_eq, BitVec.toNat_eq, toNat_window hk, toNat_hi_shift hi lo k,
    BitVec.toNat_ofNat, Nat.zero_mod]
  generalize value hi lo / 2 ^ k = v at *
  by_cases hover : v / 2 ^ w = 0
  · rw [hover, Nat.mul_zero, Nat.zero_add] at hmod
    rw [hmod]
    omega
  · have hle : 2 ^ w ≤ v := by
      by_contra hlt
      exact hover (Nat.div_eq_of_lt (Nat.lt_of_not_le hlt))
    omega

theorem value_eq_of_words {hi lo : BitVec w} {n : Nat} (hhi : hi.toNat = n / 2 ^ w)
    (hlo : lo.toNat = n % 2 ^ w) : value hi lo = n := by
  rw [value, hhi, hlo]
  exact Nat.div_add_mod' n (2 ^ w)

/-- The subtraction from the window is exact although what left the word is ignored. -/
theorem toNat_window_sub {hi lo d : BitVec w} {k : Nat} (hk : k ≤ w)
    (hle : d.toNat ≤ value hi lo / 2 ^ k) (hlt : value hi lo / 2 ^ k < 2 * d.toNat) :
    (window hi lo k - d).toNat = value hi lo / 2 ^ k - d.toNat := by
  have hd := d.isLt
  rw [BitVec.toNat_sub, toNat_window hk, Nat.add_mod_mod]
  generalize value hi lo / 2 ^ k = v at *
  have hwrap : 2 ^ w - d.toNat + v = v - d.toNat + 2 ^ w := by omega
  rw [hwrap, Nat.add_mod_right, Nat.mod_eq_of_lt (by omega)]

theorem ofNat_value (hi lo : BitVec w) : BitVec.ofNat w (value hi lo) = lo := by
  apply BitVec.eq_of_toNat_eq
  rw [BitVec.toNat_ofNat, value, Nat.mul_add_mod', Nat.mod_eq_of_lt lo.isLt]

theorem ofNat_mul_two_pow (d : BitVec w) (k : Nat) :
    BitVec.ofNat w (d.toNat * 2 ^ k) = d <<< k := by
  apply BitVec.eq_of_toNat_eq
  rw [BitVec.toNat_ofNat, BitVec.toNat_shiftLeft, Nat.shiftLeft_eq]

/-- The low word subtracts modulo `2 ^ w`, whatever is borrowed from the high word. -/
theorem lo_sub {hi lo d : BitVec w} (k : Nat) (hle : d.toNat * 2 ^ k ≤ value hi lo) :
    lo - (d <<< k) = BitVec.ofNat w (value hi lo - d.toNat * 2 ^ k) := by
  have hsum : BitVec.ofNat w (value hi lo - d.toNat * 2 ^ k) + (d <<< k) = lo := by
    rw [← ofNat_mul_two_pow, ← BitVec.ofNat_add, Nat.sub_add_cancel hle, ofNat_value]
  rw [← hsum, BitVec.add_sub_cancel, hsum]

/-- The two words after the divisor, shifted by `k`, has been subtracted. -/
theorem value_sub {hi lo d : BitVec w} {k : Nat} (hk : k ≤ w)
    (hle : d.toNat ≤ value hi lo / 2 ^ k) (hlt : value hi lo / 2 ^ k < 2 * d.toNat) :
    value ((window hi lo k - d) >>> (w - k)) (lo - (d <<< k)) =
      value hi lo - d.toNat * 2 ^ k := by
  have hfits := (Nat.le_div_iff_mul_le (Nat.two_pow_pos k)).mp hle
  apply value_eq_of_words
  · rw [BitVec.toNat_ushiftRight, Nat.shiftRight_eq_div_pow, toNat_window_sub hk hle hlt,
      ← Nat.sub_mul_div, Nat.div_div_eq_div_mul, ← Nat.pow_add, Nat.add_sub_cancel' hk,
      Nat.mul_comm]
  · rw [lo_sub k hfits, BitVec.toNat_ofNat]

/-- At position 0 the window is the low word. -/
theorem window_zero (hi lo : BitVec w) : window hi lo 0 = lo := by
  simp [window]

/-- A remainder below the divisor is its low word. -/
theorem toNat_lo {hi lo d : BitVec w} (h : value hi lo < d.toNat) :
    lo.toNat = value hi lo := by
  have hword := Nat.lt_trans h d.isLt
  nth_rewrite 1 [← ofNat_value hi lo]
  rw [BitVec.toNat_ofNat, Nat.mod_eq_of_lt hword]

/-- A difference below the divisor is the difference of the low words. -/
theorem toNat_lo_sub {hi lo d : BitVec w} (hle : d.toNat ≤ value hi lo)
    (hlt : value hi lo - d.toNat < d.toNat) : (lo - d).toNat = value hi lo - d.toNat := by
  have hfits : d.toNat * 2 ^ 0 ≤ value hi lo := by simpa using hle
  have hsub : lo - (d <<< 0) = _ := lo_sub 0 hfits
  rw [Nat.pow_zero, Nat.mul_one, BitVec.shiftLeft_zero] at hsub
  rw [hsub, BitVec.toNat_ofNat, Nat.mod_eq_of_lt (Nat.lt_trans hlt d.isLt)]

/-- Setting bit `k` of a multiple of `2 ^ (k + 1)` adds `2 ^ k`. -/
theorem toNat_or_bit {q : BitVec w} {k : Nat} (hk : k < w) (hq : 2 ^ (k + 1) ∣ q.toNat) :
    (q ||| (1#w <<< k)).toNat = q.toNat + 2 ^ k := by
  obtain ⟨a, ha⟩ := hq
  have hbit : (1#w <<< k).toNat = 2 ^ k := by
    rw [BitVec.toNat_shiftLeft, BitVec.toNat_ofNat, Nat.shiftLeft_eq,
      Nat.mod_eq_of_lt (Nat.one_lt_two_pow (by omega)), Nat.one_mul,
      Nat.mod_eq_of_lt (Nat.pow_lt_pow_right (by omega) hk)]
  have hlt : 2 ^ k < 2 ^ (k + 1) := Nat.pow_lt_pow_right (by omega) (Nat.lt_succ_self k)
  rw [BitVec.toNat_or, hbit, ha, Nat.two_pow_add_eq_or_of_lt hlt]

end Words

end LongDivision
