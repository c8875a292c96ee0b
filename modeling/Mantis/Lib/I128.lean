import Mantis.Lib.I64
import Mathlib.Tactic.Ring

/-!
# Signed 128-bit arithmetic in two words

`i128` as a program that computes on it has it: a `BitVec 128` read as a signed number.
As for `i64`, an operation whose exact result fits is exact. A number is taken apart into
a signed high word and an unsigned low word, and divided digit by digit, each partial
division bringing down one more digit to the remainder of the last.
-/

namespace I128

/-- The integers an `i128` can hold. -/
def Fits (n : Int) : Prop := -2 ^ 127 ≤ n ∧ n < 2 ^ 127

theorem bmod_of_fits {n : Int} (h : Fits n) : n.bmod (2 ^ 128) = n := by
  obtain ⟨h₁, h₂⟩ := h
  refine Int.bmod_eq_of_le ?_ ?_ <;> norm_num <;> omega

/-! ### Conversions -/

/-- `a as i128`. -/
def ofI64 (a : Int64) : BitVec 128 := a.toBitVec.signExtend 128

theorem toInt_ofI64 (a : Int64) : (ofI64 a).toInt = a.toInt :=
  BitVec.toInt_signExtend_of_le (by decide)

/-- `x as i64`, which keeps the low 64 bits. -/
def asI64 (x : BitVec 128) : Int64 := Int64.ofBitVec (x.setWidth 64)

/-- `x as u64`, which keeps the low 64 bits. -/
def asU64 (x : BitVec 128) : UInt64 := UInt64.ofBitVec (x.setWidth 64)

/-- `a as u128`. -/
def ofU64 (a : UInt64) : BitVec 128 := a.toBitVec.setWidth 128

theorem toInt_asI64 {x : BitVec 128} (h : I64.Fits x.toInt) : (asI64 x).toInt = x.toInt := by
  have hmod : (asI64 x).toInt = x.toInt.bmod (2 ^ 64) := by
    show (x.setWidth 64).toInt = _
    rw [BitVec.toInt_setWidth, BitVec.toInt_eq_toNat_bmod, Int.bmod_bmod_of_dvd (by decide)]
  rw [hmod, I64.bmod_of_fits h]

theorem toNat_asU64 (x : BitVec 128) : (asU64 x).toNat = x.toNat % 2 ^ 64 :=
  BitVec.toNat_setWidth 64 x

theorem toNat_ofU64 (a : UInt64) : (ofU64 a).toNat = a.toNat := by
  have hlt := a.toNat_lt
  show (a.toBitVec.setWidth 128).toNat = _
  rw [BitVec.toNat_setWidth, Nat.mod_eq_of_lt (by show a.toNat < _; omega)]
  rfl

/-! ### Operators -/

theorem toInt_add {x y : BitVec 128} (h : Fits (x.toInt + y.toInt)) :
    (x + y).toInt = x.toInt + y.toInt := by
  rw [BitVec.toInt_add, bmod_of_fits h]

theorem toInt_sub {x y : BitVec 128} (h : Fits (x.toInt - y.toInt)) :
    (x - y).toInt = x.toInt - y.toInt := by
  rw [BitVec.toInt_sub, bmod_of_fits h]

theorem toInt_mul {x y : BitVec 128} (h : Fits (x.toInt * y.toInt)) :
    (x * y).toInt = x.toInt * y.toInt := by
  rw [BitVec.toInt_mul, bmod_of_fits h]

theorem toInt_neg {x : BitVec 128} (h : Fits (-x.toInt)) : (-x).toInt = -x.toInt := by
  rw [BitVec.toInt_neg, bmod_of_fits h]

theorem toInt_sdiv {x y : BitVec 128} (h : Fits (x.toInt.tdiv y.toInt)) :
    (x.sdiv y).toInt = x.toInt.tdiv y.toInt := by
  rw [BitVec.toInt_sdiv, bmod_of_fits h]

/-- A quotient is no larger than the number divided. -/
theorem fits_tdiv {n : Int} (hmin : -2 ^ 127 < n) (hmax : n < 2 ^ 127) (d : Int) :
    Fits (n.tdiv d) := by
  have habs := Int.natAbs_tdiv n d
  have hle : n.natAbs / d.natAbs ≤ n.natAbs := Nat.div_le_self _ _
  change (n.tdiv d).natAbs = n.natAbs / d.natAbs at habs
  constructor <;> omega

/-- A nonnegative number below the sign bit reads the same signed and unsigned. -/
theorem toInt_of_toNat_lt {x : BitVec 128} (h : x.toNat < 2 ^ 127) : x.toInt = x.toNat := by
  rw [BitVec.toInt_eq_toNat_bmod]
  exact bmod_of_fits ⟨by omega, by omega⟩

/-- The product of two `i64` fits, with room for half of a third. -/
theorem mul_bound {a b : Int} (ha : I64.Fits a) (hb : I64.Fits b) :
    -2 ^ 126 ≤ a * b ∧ a * b ≤ 2 ^ 126 := by
  obtain ⟨ha₁, ha₂⟩ := ha
  obtain ⟨hb₁, hb₂⟩ := hb
  constructor <;> nlinarith

/-! ### Words -/

/-- `(x >> 64) as i64`. -/
def hi (x : BitVec 128) : Int64 := asI64 (x.sshiftRight 64)

/-- `x as u64`. -/
def lo (x : BitVec 128) : UInt64 := asU64 x

/-- The two words make up the number. -/
theorem hi_lo (x : BitVec 128) : (hi x).toInt * 2 ^ 64 + (lo x).toNat = x.toInt := by
  have hlt : x.toInt < 2 ^ 127 := BitVec.toInt_lt
  have hge : -2 ^ 127 ≤ x.toInt := BitVec.le_toInt x
  have hshift : (x.sshiftRight 64).toInt = x.toInt / 2 ^ 64 := by
    rw [BitVec.toInt_sshiftRight, Int.shiftRight_eq_div_pow]
    rfl
  have hhi : (hi x).toInt = x.toInt / 2 ^ 64 := by
    rw [hi, toInt_asI64 (by rw [hshift]; constructor <;> omega), hshift]
  have hlo : ((lo x).toNat : Int) = x.toInt % 2 ^ 64 := by
    rw [lo, toNat_asU64, BitVec.toInt_eq_toNat_cond]
    push_cast
    split <;> omega
  rw [hhi, hlo]
  omega

/-- High and low word put together. -/
theorem toNat_shiftLeft_or {k : Nat} {a b : BitVec 128} (hb : b.toNat < 2 ^ k)
    (ha : a.toNat * 2 ^ k < 2 ^ 128) : (a <<< k ||| b).toNat = a.toNat * 2 ^ k + b.toNat := by
  rw [BitVec.toNat_or, BitVec.toNat_shiftLeft, Nat.shiftLeft_eq, Nat.mod_eq_of_lt ha,
    ← Nat.shiftLeft_eq, Nat.shiftLeft_add_eq_or_of_lt hb]

/-! ### Long division -/

/-- Bringing down the next digit `x` of base `B`. -/
theorem div_digit {d : Nat} (hd : 0 < d) (a x B : Nat) :
    (a * B + x) / d = a / d * B + (a % d * B + x) / d := by
  have hsplit : a * B + x = d * (a / d * B) + (a % d * B + x) := by
    conv_lhs => rw [← Nat.div_add_mod a d]
    ring
  rw [hsplit, Nat.mul_add_div hd]

theorem mod_digit (d a x B : Nat) : (a * B + x) % d = (a % d * B + x) % d := by
  have hsplit : a * B + x = d * (a / d * B) + (a % d * B + x) := by
    conv_lhs => rw [← Nat.div_add_mod a d]
    ring
  rw [hsplit, Nat.mul_add_mod]

/-- A partial quotient is a digit. -/
theorem digit_lt {d r x B : Nat} (hr : r < d) (hx : x < B) : (r * B + x) / d < B := by
  refine Nat.div_lt_of_lt_mul ?_
  have hle : (r + 1) * B ≤ d * B := Nat.mul_le_mul_right B hr
  rw [Nat.add_mul, Nat.one_mul] at hle
  omega

end I128
