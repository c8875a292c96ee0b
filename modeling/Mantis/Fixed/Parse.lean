import Mantis.Types

/-!
# Mantis.Fixed.Parse

Decimal string parsing for `FixedI64` (`crates/fixed/src/parse.rs`): a single pass over
the bytes that accumulates all digits into one mantissa, in negative space so that
`i64::MIN` is reachable, and a final rescaling to `D` fractional digits.
-/

namespace Mantis

inductive ParseFixedError
  | invalidFormat
  | overflow
  | excessPrecision
  deriving DecidableEq, Repr

/-- `u8::saturating_add(1)`. -/
def saturatingSuccU8 (n : UInt8) : UInt8 := if n = 255 then n else n + 1

/-- Single-pass decimal accumulator state. -/
structure Accumulator where
  /-- At most zero. -/
  mantissa : Int64
  totalDigits : UInt8
  fracDigits : UInt8
  sawDot : Bool
  sawAnyDigit : Bool
  deriving DecidableEq, Repr

namespace Accumulator

def new : Accumulator := ⟨0, 0, 0, false, false⟩

/-- Count a digit, which is fractional after the dot. -/
def countDigit (acc : Accumulator) : Accumulator :=
  { acc with
    fracDigits := if acc.sawDot then saturatingSuccU8 acc.fracDigits else acc.fracDigits
    sawAnyDigit := true }

/-- Feed one byte. -/
def feed (acc : Accumulator) (byte : UInt8) : Except ParseFixedError Accumulator :=
  if 48 ≤ byte ∧ byte ≤ 57 then
    let digit := Int64.ofNat (byte - 48).toNat
    -- leading zeros do not contribute to overflow risk
    if digit = 0 ∧ acc.mantissa = 0 then .ok acc.countDigit
    else
      let acc : Accumulator := { acc with totalDigits := acc.totalDigits + 1 }
      if (19 : UInt8) < acc.totalDigits then .error .overflow
      else if acc.totalDigits ≤ (18 : UInt8) then
        let acc : Accumulator := { acc with mantissa := acc.mantissa * 10 - digit }
        .ok acc.countDigit
      else
        match (I64.checkedMul acc.mantissa 10).bind (I64.checkedSub · digit) with
        | some mantissa =>
            let acc : Accumulator := { acc with mantissa }
            .ok acc.countDigit
        | none => .error .overflow
  else if byte = 46 then
    if acc.sawDot then .error .invalidFormat else .ok { acc with sawDot := true }
  else .error .invalidFormat

/-- Feed all bytes, stopping at the first error. -/
def feedAll (acc : Accumulator) : List UInt8 → Except ParseFixedError Accumulator
  | [] => .ok acc
  | byte :: bytes =>
      match acc.feed byte with
      | .ok acc => acc.feedAll bytes
      | .error e => .error e

end Accumulator

/-- The table `POW10_I64`, which has entries for `0..=18`. -/
def pow10I64 (d : Nat) : Int64 := Int64.ofNat (10 ^ d)

theorem toInt_pow10I64 {d : Nat} (h : d ≤ 18) : (pow10I64 d).toInt = 10 ^ d := by
  have hlt : 10 ^ d < 2 ^ 63 :=
    Nat.lt_of_le_of_lt (Nat.pow_le_pow_right (by decide) h) (by decide)
  rw [pow10I64, Int64.toInt_ofNat_of_lt hlt]
  exact Int.natCast_pow 10 d

/-- `SCALE`: the factor `10^D`. -/
def FixedI64.scale (D : Nat) : Int64 := pow10I64 D

namespace FixedI64

variable {D : Nat}

/-- The sign prefix and the bytes after it. -/
def splitSign : List UInt8 → Bool × List UInt8
  | [] => (false, [])
  | byte :: bytes =>
      if byte = 45 then (true, bytes)
      else if byte = 43 then (false, bytes)
      else (false, byte :: bytes)

/-- Rescale a mantissa with `fracDigits` implied decimals to `D` decimals. -/
def rescale (negative : Bool) (acc : Accumulator) : Except ParseFixedError (FixedI64 D) :=
  if D < acc.fracDigits.toNat then .error .excessPrecision
  else
    let pad := D - acc.fracDigits.toNat
    if 18 < pad then .error .overflow
    else
      match if negative then some acc.mantissa else I64.checkedNeg acc.mantissa with
      | none => .error .overflow
      | some signedMantissa =>
          if pad = 0 then .ok ⟨signedMantissa⟩
          else
            match I64.checkedMul signedMantissa (pow10I64 pad) with
            | some scaled => .ok ⟨scaled⟩
            | none => .error .overflow

/-- Parse a decimal byte slice. -/
def parseDecimalBytes (bytes : List UInt8) : Except ParseFixedError (FixedI64 D) :=
  let (negative, digits) := splitSign bytes
  -- covers an empty slice and a lone sign
  if digits.isEmpty then .error .invalidFormat
  else
    match Accumulator.new.feedAll digits with
    | .error e => .error e
    | .ok acc => if acc.sawAnyDigit then rescale negative acc else .error .invalidFormat

example : parseDecimalBytes (D := 6) "0.50".toUTF8.data.toList = .ok ⟨500000⟩ := by decide

end FixedI64

end Mantis
