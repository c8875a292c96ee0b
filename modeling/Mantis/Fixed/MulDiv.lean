import Mantis.Fixed.Parse
import Mantis.Lib.I128
import Mantis.Lib.Rounding

/-!
# Mantis.Fixed.MulDiv

Multiplication and division with explicit rounding (`crates/fixed/src/mul_div.rs`).

The 128-bit product is divided by the scale without a 128-bit division: its absolute
value is formed word by word in two's complement, and the low word is divided in 32-bit
halves. `divU128ByU64_spec` and `divWideByConst_spec` show this to be the plain
truncating division, and `mul_div_exact` reads all operations as roundings of the exact
rational result.
-/

namespace Mantis

open I128 (ofI64 ofU64 asI64 asU64)

/-! ### Wide division -/

/-- Divide `hi * 2^64 + lo` by `d`: the two words of the quotient and the remainder. -/
def divU128ByU64 (hi lo d : UInt64) : UInt64 × UInt64 × UInt64 :=
  let qHi := hi / d
  let rHi := hi % d
  let loUpper := lo >>> 32
  let loLower := lo &&& 0xFFFFFFFF
  let midNum := ofU64 rHi <<< 32 ||| ofU64 loUpper
  let qMid := asU64 (midNum / ofU64 d)
  let rMid := asU64 (midNum % ofU64 d)
  let lowNum := ofU64 rMid <<< 32 ||| ofU64 loLower
  let qLow := asU64 (lowNum / ofU64 d)
  let rem := asU64 (lowNum % ofU64 d)
  let qLo := qMid <<< 32 ||| qLow
  (qHi, qLo, rem)

/-- `u64::overflowing_add`. -/
def overflowingAdd (a b : UInt64) : UInt64 × Bool := (a + b, decide (2 ^ 64 ≤ a.toNat + b.toNat))

/-- The absolute value of `hi * 2^64 + lo`, as low and high word. -/
def absWords (hi : Int64) (lo : UInt64) : UInt64 × UInt64 :=
  if hi < 0 then
    let notLo := ~~~lo
    let (negLo, carry) := overflowingAdd notLo 1
    let negHi := (~~~hi).toUInt64 + carry.toUInt64
    (negLo, negHi)
  else (lo, hi.toUInt64)

/-- Divide `hi * 2^64 + lo` by a positive `d`, truncating toward zero: quotient and
remainder. -/
def divWideByConst (hi : Int64) (lo : UInt64) (d : Int64) : BitVec 128 × Int64 :=
  let (absLo, absHi) := absWords hi lo
  let (qHi, qLo, rem) := divU128ByU64 absHi absLo d.toUInt64
  let absQuot := ofU64 qHi <<< 64 ||| ofU64 qLo
  if hi < 0 then (-absQuot, -rem.toInt64) else (absQuot, rem.toInt64)

namespace FixedI64

variable {D : Nat}

/-! ### The operations -/

/-- The range check that ends every operation, and the cast it guards. -/
def narrow (result : BitVec 128) : Option (FixedI64 D) :=
  if (ofI64 Int64.maxValue).slt result || result.slt (ofI64 Int64.minValue) then none
  else some ⟨asI64 result⟩

/-- Checked multiplication, truncating toward zero. -/
def checkedMulTrunc (x y : FixedI64 D) : Option (FixedI64 D) :=
  let wide := ofI64 x.raw * ofI64 y.raw
  narrow (divWideByConst (I128.hi wide) (I128.lo wide) (scale D)).1

/-- Checked multiplication, rounding ties away from zero. -/
def checkedMulRound (x y : FixedI64 D) : Option (FixedI64 D) :=
  let wide := ofI64 x.raw * ofI64 y.raw
  let half := (ofI64 (scale D)).sdiv 2
  let biased := if BitVec.sle 0 wide then wide + half else wide - half
  narrow (divWideByConst (I128.hi biased) (I128.lo biased) (scale D)).1

/-- Saturating multiplication, truncating toward zero. -/
def saturatingMulTrunc (x y : FixedI64 D) : FixedI64 D :=
  match x.checkedMulTrunc y with
  | some v => v
  | none =>
      let signA := decide (0 ≤ x.raw)
      let signB := decide (0 ≤ y.raw)
      if signA == signB then ⟨Int64.maxValue⟩ else ⟨Int64.minValue⟩

/-- Checked division, truncating toward zero. -/
def checkedDivTrunc (x y : FixedI64 D) : Option (FixedI64 D) :=
  if y.raw = 0 then none
  else
    let wide := ofI64 x.raw * ofI64 (scale D)
    narrow (wide.sdiv (ofI64 y.raw))

/-- Checked division, rounding ties away from zero. -/
def checkedDivRound (x y : FixedI64 D) : Option (FixedI64 D) :=
  if y.raw = 0 then none
  else
    let wide := ofI64 x.raw * ofI64 (scale D)
    let divisor := ofI64 y.raw
    let absDivHalf := if divisor.slt 0 then (-divisor).sdiv 2 else divisor.sdiv 2
    let biased := if BitVec.sle 0 wide then wide + absDivHalf else wide - absDivHalf
    narrow (biased.sdiv divisor)

end FixedI64

/-! ### Wide division is division -/

/-- Half a word, brought down to a remainder. -/
theorem toNat_bringDown {r x : UInt64} (hx : x.toNat < 2 ^ 32) :
    (ofU64 r <<< 32 ||| ofU64 x).toNat = r.toNat * 2 ^ 32 + x.toNat := by
  have hr := r.toNat_lt
  rw [I128.toNat_shiftLeft_or (by rw [I128.toNat_ofU64]; exact hx)
    (by rw [I128.toNat_ofU64]; omega), I128.toNat_ofU64, I128.toNat_ofU64]

/-- One partial division: both results fit in a word, the quotient in half of one. -/
theorem partialDivision {n : BitVec 128} {d r : UInt64} {x : Nat} (hr : r.toNat < d.toNat)
    (hx : x < 2 ^ 32) (hn : n.toNat = r.toNat * 2 ^ 32 + x) :
    (asU64 (n / ofU64 d)).toNat = (r.toNat * 2 ^ 32 + x) / d.toNat ∧
      (asU64 (n / ofU64 d)).toNat < 2 ^ 32 ∧
      (asU64 (n % ofU64 d)).toNat = (r.toNat * 2 ^ 32 + x) % d.toNat := by
  have hd := d.toNat_lt
  have hq := I128.digit_lt hr hx
  have hm := Nat.mod_lt (r.toNat * 2 ^ 32 + x) (Nat.lt_of_le_of_lt (Nat.zero_le _) hr)
  rw [I128.toNat_asU64, I128.toNat_asU64, BitVec.toNat_udiv, BitVec.toNat_umod, I128.toNat_ofU64,
    hn, Nat.mod_eq_of_lt (by omega), Nat.mod_eq_of_lt (by omega)]
  exact ⟨rfl, hq, rfl⟩

/-- The halves of a word. -/
theorem halves (lo : UInt64) :
    (lo >>> 32).toNat = lo.toNat / 2 ^ 32 ∧ (lo &&& 0xFFFFFFFF).toNat = lo.toNat % 2 ^ 32 := by
  constructor
  · rw [UInt64.toNat_shiftRight, Nat.shiftRight_eq_div_pow]
    rfl
  · rw [UInt64.toNat_and]
    exact Nat.and_two_pow_sub_one_eq_mod lo.toNat 32

/-- Two halves put together. -/
theorem toNat_joinHalves {a b : UInt64} (ha : a.toNat < 2 ^ 32) (hb : b.toNat < 2 ^ 32) :
    (a <<< 32 ||| b).toNat = a.toNat * 2 ^ 32 + b.toNat := by
  rw [UInt64.toNat_or, UInt64.toNat_shiftLeft]
  change (a.toNat <<< 32 % 2 ^ 64) ||| b.toNat = _
  rw [Nat.shiftLeft_eq, Nat.mod_eq_of_lt (by omega), ← Nat.shiftLeft_eq,
    ← Nat.shiftLeft_add_eq_or_of_lt hb]

/-- **The long division is exact.** -/
theorem divU128ByU64_spec (hi lo : UInt64) {d : UInt64} (hd : 0 < d.toNat) :
    (divU128ByU64 hi lo d).1.toNat * 2 ^ 64 + (divU128ByU64 hi lo d).2.1.toNat =
        (hi.toNat * 2 ^ 64 + lo.toNat) / d.toNat ∧
      (divU128ByU64 hi lo d).2.2.toNat = (hi.toNat * 2 ^ 64 + lo.toNat) % d.toNat := by
  have hlo := lo.toNat_lt
  obtain ⟨hupper, hlower⟩ := halves lo
  have hup : (lo >>> 32).toNat < 2 ^ 32 := by omega
  have hlow : (lo &&& 0xFFFFFFFF).toNat < 2 ^ 32 := by omega
  have hr : (hi % d).toNat < d.toNat := by
    rw [UInt64.toNat_mod]
    exact Nat.mod_lt _ hd
  obtain ⟨hqMid, hqMidLt, hrMid⟩ := partialDivision hr hup (toNat_bringDown hup)
  have hr' : (asU64 ((ofU64 (hi % d) <<< 32 ||| ofU64 (lo >>> 32)) % ofU64 d)).toNat < d.toNat := by
    rw [hrMid]
    exact Nat.mod_lt _ hd
  obtain ⟨hqLow, hqLowLt, hrem⟩ := partialDivision hr' hlow (toNat_bringDown hlow)
  rw [hrMid, UInt64.toNat_mod] at hqLow hrem
  rw [UInt64.toNat_mod] at hqMid
  -- the dividend, digit by digit
  have hvalue : hi.toNat * 2 ^ 64 + lo.toNat =
      (hi.toNat * 2 ^ 32 + (lo >>> 32).toNat) * 2 ^ 32 + (lo &&& 0xFFFFFFFF).toNat := by
    rw [hupper, hlower]
    omega
  have hmid := I128.mod_digit d.toNat hi.toNat (lo >>> 32).toNat (2 ^ 32)
  rw [hvalue, I128.div_digit hd, I128.mod_digit d.toNat (_ + _), hmid, I128.div_digit hd hi.toNat]
  refine ⟨?_, hrem⟩
  show (hi / d).toNat * 2 ^ 64 + ((_ : UInt64) <<< (32 : UInt64) ||| _).toNat = _
  rw [toNat_joinHalves hqMidLt hqLowLt, hqMid, hqLow, UInt64.toNat_div]
  ring

/-- A nonnegative word reads the same signed and unsigned. -/
theorem toNat_toUInt64 {a : Int64} (h : 0 ≤ a.toInt) : (a.toUInt64.toNat : Int) = a.toInt := by
  rw [Int64.toNat_toUInt64_of_le (Int64.le_iff_toInt_le.mpr h)]
  exact Int.toNat_of_nonneg h

/-- The hand-made negation is the absolute value. -/
theorem absWords_spec (hi : Int64) (lo : UInt64) :
    ((absWords hi lo).2.toNat * 2 ^ 64 + (absWords hi lo).1.toNat : Int) =
      |hi.toInt * 2 ^ 64 + lo.toNat| := by
  have hlo := lo.toNat_lt
  obtain ⟨hmin, hmax⟩ := I64.fits_toInt hi
  by_cases hneg : hi < 0
  · have hlt : hi.toInt < 0 := Int64.lt_iff_toInt_lt.mp hneg
    have hnot : (~~~hi).toInt = -hi.toInt - 1 := by
      rw [Int64.toInt_not]
      exact I64.bmod_of_fits ⟨by omega, by omega⟩
    have hword := toNat_toUInt64 (a := ~~~hi) (by omega)
    have hnotLo : (~~~lo).toNat = 2 ^ 64 - 1 - lo.toNat := UInt64.toNat_not lo
    rw [abs_of_nonpos (by omega)]
    simp only [absWords, if_pos hneg, overflowingAdd]
    have hnegLo : (~~~lo + 1).toNat = (2 ^ 64 - 1 - lo.toNat + 1) % 2 ^ 64 := by
      rw [UInt64.toNat_add, hnotLo]
      rfl
    -- the carry is set for a zero low word only
    by_cases h0 : lo.toNat = 0
    · have hcarry : decide (2 ^ 64 ≤ (~~~lo).toNat + (1 : UInt64).toNat) = true := by
        rw [hnotLo, h0]
        decide
      rw [hcarry, hnegLo, UInt64.toNat_add]
      change ((((~~~hi).toUInt64.toNat + 1) % 2 ^ 64 : Nat) * 2 ^ 64 + _ : Int) = _
      omega
    · have hcarry : decide (2 ^ 64 ≤ (~~~lo).toNat + (1 : UInt64).toNat) = false := by
        rw [hnotLo, decide_eq_false_iff_not]
        change ¬ 2 ^ 64 ≤ 2 ^ 64 - 1 - lo.toNat + 1
        omega
      rw [hcarry, hnegLo, UInt64.toNat_add]
      change ((((~~~hi).toUInt64.toNat + 0) % 2 ^ 64 : Nat) * 2 ^ 64 + _ : Int) = _
      omega
  · have hge : 0 ≤ hi.toInt := by
      rw [Int64.lt_iff_toInt_lt, Int64.toInt_zero] at hneg
      omega
    simp only [absWords, if_neg hneg]
    rw [toNat_toUInt64 hge, abs_of_nonneg (by omega)]

theorem toInt_toInt64 {a : UInt64} (h : a.toNat < 2 ^ 63) : a.toInt64.toInt = a.toNat := by
  have hbmod : a.toInt64.toInt = (a.toNat : Int).bmod (2 ^ 64) := BitVec.toInt_eq_toNat_bmod _
  rw [hbmod]
  exact I64.bmod_of_fits ⟨by omega, by omega⟩

/-- The unsigned division, with its results read as signed numbers. -/
theorem divAbs_spec {hi lo : UInt64} {d : Int64} {a : Nat} (hd : 0 < d.toInt)
    (ha : hi.toNat * 2 ^ 64 + lo.toNat = a) (hlt : a < 2 ^ 127) :
    (ofU64 (divU128ByU64 hi lo d.toUInt64).1 <<< 64 |||
        ofU64 (divU128ByU64 hi lo d.toUInt64).2.1).toInt = (a : Int).tdiv d.toInt ∧
      (divU128ByU64 hi lo d.toUInt64).2.2.toInt64.toInt = (a : Int).tmod d.toInt := by
  have hdword := toNat_toUInt64 hd.le
  have hdmax := (I64.fits_toInt d).2
  obtain ⟨hquot, hrem⟩ := divU128ByU64_spec hi lo (d := d.toUInt64) (by omega)
  rw [ha] at hquot hrem
  have hquotLe : a / d.toUInt64.toNat ≤ a := Nat.div_le_self _ _
  have hremLt : a % d.toUInt64.toNat < d.toUInt64.toNat := Nat.mod_lt _ (by omega)
  rw [← hdword, ← Int.ofNat_tdiv, ← Int.ofNat_tmod]
  constructor
  · have hqLo := (divU128ByU64 hi lo d.toUInt64).2.1.toNat_lt
    have hjoin := I128.toNat_shiftLeft_or (k := 64)
      (a := ofU64 (divU128ByU64 hi lo d.toUInt64).1)
      (b := ofU64 (divU128ByU64 hi lo d.toUInt64).2.1)
      (by rw [I128.toNat_ofU64]; exact hqLo) (by rw [I128.toNat_ofU64]; omega)
    rw [I128.toNat_ofU64, I128.toNat_ofU64, hquot] at hjoin
    rw [I128.toInt_of_toNat_lt (by omega), hjoin]
  · rw [toInt_toInt64 (by omega), hrem]

/-- **Wide division truncates toward zero.** -/
theorem divWideByConst_spec {hi : Int64} {lo : UInt64} {d : Int64} {n : Int} (hd : 0 < d.toInt)
    (hn : hi.toInt * 2 ^ 64 + lo.toNat = n) (hmin : -2 ^ 127 < n) (hmax : n < 2 ^ 127) :
    (divWideByConst hi lo d).1.toInt = n.tdiv d.toInt ∧
      (divWideByConst hi lo d).2.toInt = n.tmod d.toInt := by
  have hlo := lo.toNat_lt
  have habs : (absWords hi lo).2.toNat * 2 ^ 64 + (absWords hi lo).1.toNat = n.natAbs := by
    have := absWords_spec hi lo
    rw [hn, ← Int.natCast_natAbs] at this
    exact_mod_cast this
  obtain ⟨hquot, hrem⟩ := divAbs_spec hd habs (by omega)
  have hsign : hi < 0 ↔ n < 0 := by
    rw [Int64.lt_iff_toInt_lt, Int64.toInt_zero]
    omega
  simp only [divWideByConst]
  by_cases hneg : hi < 0
  · have hn' : n = -(n.natAbs : Int) := by
      have := hsign.mp hneg
      omega
    rw [if_pos hneg]
    have hq : ((n.natAbs : Int).tdiv d.toInt) < 2 ^ 127 := by
      rw [Int.tdiv_eq_ediv_of_nonneg (by omega)]
      have := Int.ediv_le_self d.toInt (Int.natCast_nonneg n.natAbs)
      omega
    have hq0 : 0 ≤ (n.natAbs : Int).tdiv d.toInt := Int.tdiv_nonneg (by omega) hd.le
    have hr : (n.natAbs : Int).tmod d.toInt < d.toInt := Int.tmod_lt_of_pos _ hd
    have hr0 : 0 ≤ (n.natAbs : Int).tmod d.toInt := Int.tmod_nonneg _ (by omega)
    have hdmax := (I64.fits_toInt d).2
    constructor
    · rw [I128.toInt_neg (by rw [hquot]; constructor <;> omega), hquot, ← Int.neg_tdiv, ← hn']
    · rw [I64.toInt_neg (by rw [hrem]; constructor <;> omega), hrem, ← Int.neg_tmod, ← hn']
  · have hn' : n = (n.natAbs : Int) := by
      have := mt hsign.mpr hneg
      omega
    rw [if_neg hneg, hn']
    exact ⟨hquot, hrem⟩

/-! ### Exact rounding -/

namespace FixedI64

open Rounding

variable {D : Nat}

theorem toInt_scale (hD : D ≤ 18) : (scale D).toInt = 10 ^ D := toInt_pow10I64 hD

/-- The range check is the one of a checked operation. -/
theorem narrow_eq (result : BitVec 128) :
    narrow result = (I64.checked result.toInt).map (mk (D := D)) := by
  have hmax : (ofI64 Int64.maxValue).slt result = true ↔ 2 ^ 63 - 1 < result.toInt := by
    rw [BitVec.slt_iff_toInt_lt, I128.toInt_ofI64]
    rfl
  have hmin : result.slt (ofI64 Int64.minValue) = true ↔ result.toInt < -2 ^ 63 := by
    rw [BitVec.slt_iff_toInt_lt, I128.toInt_ofI64]
    rfl
  simp only [narrow, Bool.or_eq_true, hmax, hmin]
  by_cases hfits : I64.Fits result.toInt
  · obtain ⟨h₁, h₂⟩ := hfits
    rw [if_neg (by omega), I64.checked_of_fits ⟨h₁, h₂⟩, Option.map_some, ← Int64.toInt_inj.mp
      ((I128.toInt_asI64 ⟨h₁, h₂⟩).trans (I64.toInt_ofInt ⟨h₁, h₂⟩).symm)]
  · rw [I64.checked_eq_none.mpr hfits, Option.map_none, if_pos]
    by_contra hrange
    exact hfits ⟨by omega, by omega⟩

/-- The wide division of a 128-bit number by the scale. -/
theorem divScale_spec (hD : D ≤ 18) {wide : BitVec 128} (hmin : -2 ^ 127 < wide.toInt) :
    (divWideByConst (I128.hi wide) (I128.lo wide) (scale D)).1.toInt =
      wide.toInt.tdiv (10 ^ D) := by
  have hpos : 0 < (scale D).toInt := by
    rw [toInt_scale hD]
    positivity
  rw [(divWideByConst_spec hpos (I128.hi_lo wide) hmin BitVec.toInt_lt).1, toInt_scale hD]

theorem toInt_wide (a b : Int64) : (ofI64 a * ofI64 b).toInt = a.toInt * b.toInt := by
  obtain ⟨hmin, hmax⟩ := I128.mul_bound (I64.fits_toInt a) (I64.fits_toInt b)
  rw [I128.toInt_mul, I128.toInt_ofI64, I128.toInt_ofI64]
  rw [I128.toInt_ofI64, I128.toInt_ofI64]
  constructor <;> omega

/-- The biased numerator of both rounding operations. -/
theorem toInt_biased {wide half : BitVec 128} {n h : Int} (hwide : wide.toInt = n)
    (hhalf : half.toInt = h) (hn : -2 ^ 126 ≤ n ∧ n ≤ 2 ^ 126) (hh : 0 ≤ h ∧ h < 2 ^ 63) :
    (if BitVec.sle 0 wide then wide + half else wide - half).toInt =
      if 0 ≤ n then n + h else n - h := by
  have hsle : BitVec.sle 0 wide = true ↔ 0 ≤ n := by
    rw [BitVec.sle_iff_toInt_le, hwide]
    rfl
  by_cases h0 : 0 ≤ n
  · rw [if_pos (hsle.mpr h0), if_pos h0, I128.toInt_add, hwide, hhalf]
    rw [hwide, hhalf]
    constructor <;> omega
  · rw [if_neg (fun h => h0 (hsle.mp h)), if_neg h0, I128.toInt_sub, hwide, hhalf]
    rw [hwide, hhalf]
    constructor <;> omega

/-- Half of a nonnegative `i64`, computed in 128 bits. -/
theorem toInt_half {x : BitVec 128} (h0 : 0 ≤ x.toInt) (hlt : x.toInt ≤ 2 ^ 63) :
    (x.sdiv 2).toInt = x.toInt / 2 := by
  have hdiv : x.toInt.tdiv (2 : BitVec 128).toInt = x.toInt / 2 := Int.tdiv_eq_ediv_of_nonneg h0
  rw [I128.toInt_sdiv, hdiv]
  rw [hdiv]
  constructor <;> omega

/-- The exact product, in raw units. -/
def exactProduct (x y : FixedI64 D) : ℚ := x.raw.toInt * y.raw.toInt / 10 ^ D

/-- The exact quotient, in raw units. -/
def exactQuotient (x y : FixedI64 D) : ℚ := x.raw.toInt * 10 ^ D / y.raw.toInt

theorem truncate_exactProduct (x y : FixedI64 D) :
    truncate (exactProduct x y) = (x.raw.toInt * y.raw.toInt).tdiv (10 ^ D) := by
  rw [← truncate_div (by positivity), exactProduct]
  push_cast
  rfl

theorem roundAway_exactProduct (x y : FixedI64 D) :
    roundAway (exactProduct x y) = (bias (x.raw.toInt * y.raw.toInt) (10 ^ D)).tdiv (10 ^ D) := by
  rw [← roundAway_div (by positivity), exactProduct]
  push_cast
  rfl

theorem truncate_exactQuotient {x y : FixedI64 D} (hy : y.raw.toInt ≠ 0) :
    truncate (exactQuotient x y) = (x.raw.toInt * 10 ^ D).tdiv y.raw.toInt := by
  rw [← truncate_div hy, exactQuotient]
  push_cast
  rfl

theorem roundAway_exactQuotient {x y : FixedI64 D} (hy : y.raw.toInt ≠ 0) :
    roundAway (exactQuotient x y) =
      (bias (x.raw.toInt * 10 ^ D) y.raw.toInt).tdiv y.raw.toInt := by
  rw [← roundAway_div hy, exactQuotient]
  push_cast
  rfl

theorem checkedMulTrunc_eq (hD : D ≤ 18) (x y : FixedI64 D) :
    x.checkedMulTrunc y = (I64.checked (truncate (exactProduct x y))).map mk := by
  obtain ⟨hmin, hmax⟩ := I128.mul_bound (I64.fits_toInt x.raw) (I64.fits_toInt y.raw)
  have hwide := toInt_wide x.raw y.raw
  simp only [checkedMulTrunc]
  rw [narrow_eq, divScale_spec hD (by rw [hwide]; omega), hwide, truncate_exactProduct]

theorem checkedMulRound_eq (hD : D ≤ 18) (x y : FixedI64 D) :
    x.checkedMulRound y = (I64.checked (roundAway (exactProduct x y))).map mk := by
  have hbound := I128.mul_bound (I64.fits_toInt x.raw) (I64.fits_toInt y.raw)
  have hscale : (ofI64 (scale D)).toInt = 10 ^ D := by rw [I128.toInt_ofI64, toInt_scale hD]
  have hpos : (0 : Int) < 10 ^ D := by positivity
  have hmax := (I64.fits_toInt (scale D)).2
  rw [toInt_scale hD] at hmax
  have hhalf := toInt_half (x := ofI64 (scale D)) (by omega) (by omega)
  rw [hscale] at hhalf
  have hbiased := toInt_biased (toInt_wide x.raw y.raw) hhalf hbound (by omega)
  have hbias : bias (x.raw.toInt * y.raw.toInt) (10 ^ D) =
      if 0 ≤ x.raw.toInt * y.raw.toInt then x.raw.toInt * y.raw.toInt + 10 ^ D / 2
      else x.raw.toInt * y.raw.toInt - 10 ^ D / 2 := by
    rw [bias, abs_of_pos hpos]
  rw [← hbias] at hbiased
  simp only [checkedMulRound]
  rw [narrow_eq, divScale_spec hD, hbiased, roundAway_exactProduct]
  rw [hbiased, hbias]
  split <;> omega

/-- Out of range, the sign of the operands is the sign of the product. -/
theorem saturated_eq {n : Int} {x y : FixedI64 D} (hn : n = (x.raw.toInt * y.raw.toInt).tdiv (10 ^ D))
    (hfits : ¬ I64.Fits n) :
    (if decide (0 ≤ x.raw) == decide (0 ≤ y.raw) then Int64.maxValue
      else Int64.minValue).toInt = max (-2 ^ 63) (min n (2 ^ 63 - 1)) := by
  have hpos : (0 : Int) < 10 ^ D := by positivity
  have hx : 0 ≤ x.raw ↔ 0 ≤ x.raw.toInt := Int64.le_iff_toInt_le
  have hy : 0 ≤ y.raw ↔ 0 ≤ y.raw.toInt := Int64.le_iff_toInt_le
  have hsigns : (decide (0 ≤ x.raw) == decide (0 ≤ y.raw)) = true ↔
      (0 ≤ x.raw.toInt ↔ 0 ≤ y.raw.toInt) := by
    rw [beq_iff_eq, decide_eq_decide, hx, hy]
  have hne : n ≠ 0 := by
    rintro rfl
    exact hfits (by decide)
  rcases le_or_gt 0 (x.raw.toInt * y.raw.toInt) with hprod | hprod
  · have hn0 : 0 ≤ n := hn ▸ Int.tdiv_nonneg hprod hpos.le
    have hsame : 0 ≤ x.raw.toInt ↔ 0 ≤ y.raw.toInt := by
      rcases pos_and_pos_or_neg_and_neg_of_mul_pos (lt_of_le_of_ne hprod fun h0 => hne (by
        rw [hn, ← h0, Int.zero_tdiv])) with ⟨h₁, h₂⟩ | ⟨h₁, h₂⟩ <;> omega
    rw [if_pos (hsigns.mpr hsame)]
    have hbig : 2 ^ 63 ≤ n := by
      by_contra hlt
      exact hfits ⟨by omega, by omega⟩
    show (2 ^ 63 - 1 : Int) = _
    omega
  · have hn0 : n ≤ 0 := by
      rw [hn, ← neg_neg (x.raw.toInt * y.raw.toInt), Int.neg_tdiv]
      have := Int.tdiv_nonneg (by omega : 0 ≤ -(x.raw.toInt * y.raw.toInt)) hpos.le
      omega
    have hdiff : ¬ (0 ≤ x.raw.toInt ↔ 0 ≤ y.raw.toInt) := by
      rcases mul_neg_iff.mp hprod with ⟨h₁, h₂⟩ | ⟨h₁, h₂⟩ <;> omega
    rw [if_neg (fun h => hdiff (hsigns.mp h))]
    have hsmall : n < -2 ^ 63 := by
      by_contra hge
      exact hfits ⟨by omega, by omega⟩
    show (-2 ^ 63 : Int) = _
    omega

theorem saturatingMulTrunc_eq (hD : D ≤ 18) (x y : FixedI64 D) :
    (x.saturatingMulTrunc y).raw.toInt =
      max (-2 ^ 63) (min (truncate (exactProduct x y)) (2 ^ 63 - 1)) := by
  have hmul := checkedMulTrunc_eq hD x y
  have htrunc := truncate_exactProduct x y
  generalize truncate (exactProduct x y) = n at hmul htrunc ⊢
  unfold saturatingMulTrunc
  by_cases hfits : I64.Fits n
  · rw [I64.checked_of_fits hfits, Option.map_some] at hmul
    rw [hmul]
    show (Int64.ofInt n).toInt = _
    rw [I64.toInt_ofInt hfits]
    obtain ⟨h₁, h₂⟩ := hfits
    omega
  · rw [I64.checked_eq_none.mpr hfits, Option.map_none] at hmul
    rw [hmul, ← saturated_eq htrunc hfits]
    dsimp only
    split <;> rfl

/-- The scaled numerator of both divisions. -/
theorem toInt_scaled (hD : D ≤ 18) (x : FixedI64 D) :
    (ofI64 x.raw * ofI64 (scale D)).toInt = x.raw.toInt * 10 ^ D ∧
      -2 ^ 126 ≤ x.raw.toInt * 10 ^ D ∧ x.raw.toInt * 10 ^ D ≤ 2 ^ 126 := by
  have hbound := I128.mul_bound (I64.fits_toInt x.raw) (I64.fits_toInt (scale D))
  have hwide := toInt_wide x.raw (scale D)
  rw [toInt_scale hD] at hwide hbound
  exact ⟨hwide, hbound⟩

theorem checkedDivTrunc_eq (hD : D ≤ 18) {x y : FixedI64 D} (hy : y.raw ≠ 0) :
    x.checkedDivTrunc y = (I64.checked (truncate (exactQuotient x y))).map mk := by
  have hy0 : y.raw.toInt ≠ 0 := fun h => hy (I64.toInt_eq_zero.mp h)
  obtain ⟨hwide, hmin, hmax⟩ := toInt_scaled hD x
  simp only [checkedDivTrunc]
  rw [if_neg hy, narrow_eq, I128.toInt_sdiv, hwide, I128.toInt_ofI64, truncate_exactQuotient hy0]
  rw [hwide]
  exact I128.fits_tdiv (by omega) (by omega) _

/-- Half of the absolute value of the divisor. -/
theorem toInt_absDivHalf (y : FixedI64 D) :
    (if (ofI64 y.raw).slt 0 then (-ofI64 y.raw).sdiv 2 else (ofI64 y.raw).sdiv 2).toInt =
      |y.raw.toInt| / 2 := by
  have hy := I128.toInt_ofI64 y.raw
  obtain ⟨hmin, hmax⟩ := I64.fits_toInt y.raw
  have hslt : (ofI64 y.raw).slt 0 = true ↔ y.raw.toInt < 0 := by
    rw [BitVec.slt_iff_toInt_lt, hy]
    rfl
  by_cases hneg : y.raw.toInt < 0
  · have hopp : (-ofI64 y.raw).toInt = -y.raw.toInt := by
      rw [I128.toInt_neg, hy]
      rw [hy]
      constructor <;> omega
    rw [if_pos (hslt.mpr hneg), toInt_half (by omega) (by omega), hopp, abs_of_neg hneg]
  · rw [if_neg (fun h => hneg (hslt.mp h)), toInt_half (by omega) (by omega), hy,
      abs_of_nonneg (by omega)]

theorem checkedDivRound_eq (hD : D ≤ 18) {x y : FixedI64 D} (hy : y.raw ≠ 0) :
    x.checkedDivRound y = (I64.checked (roundAway (exactQuotient x y))).map mk := by
  have hy0 : y.raw.toInt ≠ 0 := fun h => hy (I64.toInt_eq_zero.mp h)
  obtain ⟨hwide, hbound⟩ := toInt_scaled hD x
  obtain ⟨hmin, hmax⟩ := I64.fits_toInt y.raw
  have habs : 0 ≤ |y.raw.toInt| / 2 ∧ |y.raw.toInt| / 2 < 2 ^ 63 := by
    have := abs_nonneg y.raw.toInt
    have := abs_le.mpr ⟨hmin, hmax.le⟩
    omega
  have hbiased := toInt_biased hwide (toInt_absDivHalf y) hbound habs
  simp only [checkedDivRound]
  rw [if_neg hy, narrow_eq, I128.toInt_sdiv, hbiased, I128.toInt_ofI64, roundAway_exactQuotient hy0]
  · rfl
  · rw [hbiased]
    refine I128.fits_tdiv ?_ ?_ _ <;> split <;> omega

/-- **Multiplication and division are exactly rounded.** At every scale up to 18 and for
all raw values, each checked operation returns the exact product or quotient, truncated
or rounded to the nearest raw unit with ties away from zero, and nothing exactly when
that is not an `i64` or the divisor is zero; the saturating product is the truncated
product clamped to the range. -/
theorem mul_div_exact (hD : D ≤ 18) (x y : FixedI64 D) :
    x.checkedMulTrunc y = (I64.checked (truncate (exactProduct x y))).map mk ∧
    x.checkedMulRound y = (I64.checked (roundAway (exactProduct x y))).map mk ∧
    x.checkedDivTrunc y =
      (if y.raw = 0 then none else (I64.checked (truncate (exactQuotient x y))).map mk) ∧
    x.checkedDivRound y =
      (if y.raw = 0 then none else (I64.checked (roundAway (exactQuotient x y))).map mk) ∧
    (x.saturatingMulTrunc y).raw.toInt =
      max (-2 ^ 63) (min (truncate (exactProduct x y)) (2 ^ 63 - 1)) := by
  refine ⟨checkedMulTrunc_eq hD x y, checkedMulRound_eq hD x y, ?_, ?_, saturatingMulTrunc_eq hD x y⟩
  · split
    · next hy => exact if_pos hy
    · next hy => exact checkedDivTrunc_eq hD hy
  · split
    · next hy => exact if_pos hy
    · next hy => exact checkedDivRound_eq hD hy

/-- `-0.5 * 0.05` is a tie at two decimals: rounding goes away from zero, truncation toward
it. -/
theorem mul_div_exact_tie :
    2 ≤ 18 ∧
    (⟨-50⟩ : FixedI64 2).checkedMulRound ⟨5⟩ =
      (I64.checked (roundAway (exactProduct (⟨-50⟩ : FixedI64 2) ⟨5⟩))).map mk ∧
    (⟨-50⟩ : FixedI64 2).checkedMulRound ⟨5⟩ = some ⟨-3⟩ ∧
    (⟨-50⟩ : FixedI64 2).checkedMulTrunc ⟨5⟩ = some ⟨-2⟩ :=
  ⟨by decide, (mul_div_exact (by decide) _ _).2.1, by decide, by decide⟩

end FixedI64

end Mantis
