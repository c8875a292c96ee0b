import Mantis.Fixed.Numeral

/-!
# Mantis.Fixed.Fmt

`Display` for `FixedI64` (`crates/fixed/src/fmt.rs`), and that it is inverse to the
parser. The formatted bytes are a numeral in canonical form (`display_canonical`), so the
exact grammar of the parser gives the round trip.
-/

namespace Mantis

open Decimal

/-- `Display` of an `i64`. -/
def displayI64 (n : Int64) : List UInt8 :=
  if n < 0 then 45 :: render n.toInt.natAbs else render n.toInt.natAbs

namespace FixedI64

variable {D : Nat}

/-- `Display`: the whole part, a dot and exactly `D` fractional digits. -/
def display (x : FixedI64 D) : List UInt8 :=
  if D = 0 then displayI64 x.raw
  else
    -- in 128 bits, where `i64::MIN` has an absolute value
    let absWide := x.raw.toInt.natAbs
    let scale := (scale D).toInt.toNat
    let whole := absWide / scale
    let frac := absWide % scale
    if x.raw < 0 then 45 :: (render whole ++ 46 :: renderPadded D frac)
    else render whole ++ 46 :: renderPadded D frac

example : display (⟨-1⟩ : FixedI64 8) = "-0.00000001".toUTF8.data.toList := by decide

theorem toNat_scale (hD : D ≤ 18) : (scale D).toInt.toNat = 10 ^ D := by
  rw [scale, toInt_pow10I64 hD]
  exact Int.toNat_natCast (10 ^ D)

/-- The digits printed. -/
def displayDigits (x : FixedI64 D) : Digits :=
  if D = 0 then ⟨render x.raw.toInt.natAbs, none⟩
  else ⟨render (x.raw.toInt.natAbs / 10 ^ D), some (renderPadded D (x.raw.toInt.natAbs % 10 ^ D))⟩

theorem displayDigits_isDigit (x : FixedI64 D) : ∀ d ∈ x.displayDigits.all, IsDigit d := by
  intro d hd
  simp only [displayDigits] at hd
  split at hd
  · rw [Digits.all, Option.getD_none, List.append_nil] at hd
    exact isDigit_render _ d hd
  · rcases List.mem_append.mp hd with hd | hd
    · exact isDigit_render _ d hd
    · exact isDigit_renderPadded _ _ d hd

theorem displayDigits_whole (x : FixedI64 D) : NoLeadingZeros x.displayDigits.whole := by
  simp only [displayDigits]
  split <;> exact noLeadingZeros_render _

theorem displayDigits_ne_nil (x : FixedI64 D) : x.displayDigits.all ≠ [] :=
  List.append_ne_nil_of_left_ne_nil x.displayDigits_whole.1 _

/-- Whole and fractional part together are the absolute value. -/
theorem displayDigits_value (x : FixedI64 D) :
    value x.displayDigits.all = x.raw.toInt.natAbs ∧ x.displayDigits.places = D := by
  simp only [displayDigits]
  split
  · next h0 => simp [Digits.all, Digits.places, value_render, h0]
  · next h0 =>
      have hlt := Nat.mod_lt x.raw.toInt.natAbs (Nat.pow_pos (n := D) (by decide : 0 < 10))
      have hlen := length_renderPadded (Nat.pos_of_ne_zero h0) hlt
      refine ⟨?_, hlen⟩
      show value (_ ++ renderPadded D _) = _
      rw [value_append, value_render, value_renderPadded, hlen, Nat.mul_comm]
      exact Nat.div_add_mod _ _

/-- The numeral printed. -/
def displayNumeral (x : FixedI64 D) : Numeral where
  toDigits := x.displayDigits
  sign := if x.raw < 0 then some .minus else none
  isDigit := x.displayDigits_isDigit
  nonempty := x.displayDigits_ne_nil

theorem displayNumeral_bytes (hD : D ≤ 18) (x : FixedI64 D) : x.displayNumeral.bytes = display x := by
  simp only [display, displayI64, toNat_scale hD, Numeral.bytes, displayNumeral, displayDigits]
  by_cases hneg : x.raw < 0
  · by_cases h0 : D = 0
    · simp [hneg, h0, Digits.bytes, Sign.byte]
    · simp [hneg, h0, Digits.bytes, Sign.byte]
  · by_cases h0 : D = 0
    · simp [hneg, h0, Digits.bytes]
    · simp [hneg, h0, Digits.bytes]

theorem displayNumeral_negative (x : FixedI64 D) :
    x.displayNumeral.negative = decide (x.raw.toInt < 0) := by
  have hlt : x.raw < 0 ↔ x.raw.toInt < 0 := Int64.lt_iff_toInt_lt
  by_cases hneg : x.raw < 0
  · simp [Numeral.negative, displayNumeral, hneg, hlt.mp hneg]
  · simp [Numeral.negative, displayNumeral, hneg, mt hlt.mpr hneg]

theorem displayNumeral_toRat (x : FixedI64 D) : x.displayNumeral.toRat * 10 ^ D = x.raw.toInt := by
  obtain ⟨hvalue, hplaces⟩ := x.displayDigits_value
  rw [Numeral.toRat_mul_pow (n := x.displayNumeral) hplaces.le, Int.cast_inj,
    displayNumeral_negative]
  show signFactor _ * value x.displayDigits.all * 10 ^ (D - x.displayDigits.places) = _
  rw [hvalue, hplaces, Nat.sub_self, pow_zero, mul_one, signFactor]
  by_cases hneg : x.raw.toInt < 0
  · simp only [hneg, decide_true, if_true]
    omega
  · simp only [hneg, decide_false, Bool.false_eq_true, if_false]
    omega

/-- What is printed is in canonical form: the sign, the whole part, the decimals. -/
theorem display_canonical (x : FixedI64 D) : x.displayNumeral.IsCanonical D where
  sign := by
    have hpow : (0 : ℚ) < 10 ^ D := pow_pos (by norm_num) D
    have hsign : x.displayNumeral.toRat < 0 ↔ x.raw < 0 := by
      rw [Int64.lt_iff_toInt_lt, Int64.toInt_zero, ← Int.cast_lt_zero (R := ℚ),
        ← displayNumeral_toRat]
      constructor
      · intro h
        exact mul_neg_of_neg_of_pos h hpow
      · intro h
        exact neg_of_mul_neg_left h hpow.le
    simp only [hsign]
    rfl
  whole := x.displayDigits_whole
  frac := by
    have hplaces := x.displayDigits_value.2
    simp only [displayNumeral, displayDigits] at hplaces ⊢
    split
    · rfl
    · next h0 =>
        rw [if_neg h0] at hplaces
        exact ⟨_, rfl, hplaces⟩

/-- The bytes of a numeral determine the number it denotes. -/
theorem toRat_eq_of_bytes {n m : Numeral} (h : n.bytes = m.bytes) : n.toRat = m.toRat := by
  have hsplit := splitSign_bytes n
  rw [h, splitSign_bytes, Prod.mk.injEq] at hsplit
  have hdigits := Digits.bytes_inj m.isDigit n.isDigit hsplit.2
  simp only [Numeral.toRat]
  rw [← hsplit.1, ← hdigits]

/-- `bytes` is the canonical form, with `D` decimals, of the number `s` denotes: a canonical
numeral of that number, and the only one. -/
structure IsCanonicalFormOf (D : Nat) (s : Numeral) (bytes : List UInt8) : Prop where
  numeral : ∃ n : Numeral, n.bytes = bytes ∧ n.IsCanonical D ∧ n.toRat = s.toRat
  unique : ∀ n : Numeral, n.IsCanonical D → n.toRat = s.toRat → n.bytes = bytes

theorem parse_display (hD : D ≤ 18) (x : FixedI64 D) : parseDecimalBytes (display x) = .ok x :=
  (parseDecimalBytes_eq_ok hD _ x).mpr ⟨x.displayNumeral, displayNumeral_bytes hD x,
    x.displayDigits_value.2.le, x.displayNumeral_toRat⟩

/-- What is printed of a parsed value denotes the number that was parsed. -/
theorem display_isCanonicalFormOf (hD : D ≤ 18) {s : Numeral} {x : FixedI64 D}
    (h : parseDecimalBytes s.bytes = .ok x) : IsCanonicalFormOf D s (display x) := by
  obtain ⟨m, hm, -, hraw⟩ := (parseDecimalBytes_eq_ok hD _ x).mp h
  have hpow : (10 : ℚ) ^ D ≠ 0 := pow_ne_zero D (by norm_num)
  have hrat : x.displayNumeral.toRat = s.toRat := by
    rw [← toRat_eq_of_bytes hm]
    exact mul_right_cancel₀ hpow (x.displayNumeral_toRat.trans hraw.symm)
  refine ⟨⟨x.displayNumeral, displayNumeral_bytes hD x, x.display_canonical, hrat⟩, ?_⟩
  intro n hn hnrat
  rw [← displayNumeral_bytes hD x]
  exact hn.unique x.display_canonical (hnrat.trans hrat.symm)

/-- **Display and parse are inverse.** Every value is parsed back from what is printed of
it. Every accepted string is a numeral, the value parsed from it is printed as the
canonical form of the number it denotes, and parsing and printing that again changes
nothing. -/
theorem display_parse_inverse (hD : D ≤ 18) :
    (∀ x : FixedI64 D, parseDecimalBytes (display x) = .ok x) ∧
    ∀ (bytes : List UInt8) (x : FixedI64 D), parseDecimalBytes bytes = .ok x →
      (∃ s : Numeral, s.bytes = bytes) ∧
      (∀ s : Numeral, s.bytes = bytes → IsCanonicalFormOf D s (display x)) ∧
      ∀ y : FixedI64 D, parseDecimalBytes (display x) = .ok y → display y = display x := by
  refine ⟨parse_display hD, fun bytes x hparse => ⟨?_, ?_, ?_⟩⟩
  · obtain ⟨s, hs, -⟩ := (parseDecimalBytes_eq_ok hD _ x).mp hparse
    exact ⟨s, hs⟩
  · rintro s rfl
    exact display_isCanonicalFormOf hD hparse
  · intro y hy
    rw [parse_display hD, Except.ok.injEq] at hy
    rw [hy]

/-- A small negative value, whose whole part is zero, from a string with a superfluous
zero and a missing decimal. -/
theorem display_parse_inverse_small :
    2 ≤ 18 ∧ parseDecimalBytes (display (⟨-50⟩ : FixedI64 2)) = .ok (⟨-50⟩ : FixedI64 2) ∧
    parseDecimalBytes "-00.5".toUTF8.data.toList = .ok (⟨-50⟩ : FixedI64 2) ∧
    ∃ s : Numeral, s.bytes = "-00.5".toUTF8.data.toList :=
  ⟨by decide, (display_parse_inverse (by decide)).1 _, by decide,
    ((display_parse_inverse (by decide)).2 _ (⟨-50⟩ : FixedI64 2) (by decide)).1⟩

end FixedI64

end Mantis
