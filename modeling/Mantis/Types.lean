import Mantis.Lib.I64

/-!
# Mantis.Types

The scalar vocabulary of the SDK (`crates/types`) and the fixed-point decimal it
is built on (`crates/fixed`).

The hot-path newtypes `Ticks`, `Lots` and `SignedLots` wrap an `i64` and
`Timestamp`, `SeqNum`, `InstrumentId` and `SourceId` an unsigned word; their
`from_raw`/`to_raw` are the identity, so they are abbreviations here. Their plain
operators are the machine operators and wrap on overflow, as an optimised build
of the source does; a result that excludes overflow says so.
-/

namespace Mantis

/-- Price in venue-specific tick units. -/
abbrev Ticks := Int64

/-- Quantity in venue-specific lot units. -/
abbrev Lots := Int64

/-- Signed inventory position; positive is long. -/
abbrev SignedLots := Int64

/-- Nanoseconds of the epoch. -/
abbrev Timestamp := UInt64

/-- Per-queue sequence number. -/
abbrev SeqNum := UInt64

/-- Instrument identifier; zero is none. -/
abbrev InstrumentId := UInt32

/-- Identifies the feed that produced an event. -/
abbrev SourceId := UInt16

/-- Market side. -/
inductive Side
  /-- Buying / bid side. -/
  | bid
  /-- Selling / ask side. -/
  | ask
  deriving DecidableEq, Repr

/-! ### Fixed-point decimals -/

/-- `FixedI64<D>`: a raw `i64` scaled by `10^D`. -/
structure FixedI64 (D : Nat) where
  raw : Int64
  deriving DecidableEq, Repr

namespace FixedI64

variable {D : Nat}

/-- `ZERO`. -/
def zero : FixedI64 D := ⟨0⟩

/-- Strictly greater than zero. -/
def isPositive (x : FixedI64 D) : Bool := 0 < x.raw

/-- `none` on overflow. -/
def checkedAdd (x y : FixedI64 D) : Option (FixedI64 D) :=
  (I64.checkedAdd x.raw y.raw).map mk

/-- `none` on overflow. -/
def checkedSub (x y : FixedI64 D) : Option (FixedI64 D) :=
  (I64.checkedSub x.raw y.raw).map mk

/-- `rhs` is a plain integer, so the scale stays. -/
def checkedMulInt (x : FixedI64 D) (rhs : Int64) : Option (FixedI64 D) :=
  (I64.checkedMul x.raw rhs).map mk

/-- Truncates toward zero; `none` on a zero divisor only. -/
def checkedDivInt (x : FixedI64 D) (rhs : Int64) : Option (FixedI64 D) :=
  if rhs = 0 then none else some ⟨x.raw / rhs⟩

/-- A checked operation followed by `unwrap_or`, when its exact result fits. -/
theorem raw_getD_checked {n : Int} (h : I64.Fits n) (d : FixedI64 D) :
    (((I64.checked n).map mk).getD d).raw.toInt = n := by
  rw [I64.checked_of_fits h]
  exact I64.toInt_ofInt h

/-- A checked operation followed by `unwrap_or(ZERO)`. -/
theorem raw_getD_zero (n : Int) :
    (((I64.checked n).map mk).getD (zero : FixedI64 D)).raw.toInt = I64.orZero n := by
  rw [← I64.toInt_checked_getD_zero]
  cases I64.checked n <;> rfl

/-- Clamps to the `i64` range on overflow. -/
def saturatingAdd (x y : FixedI64 D) : FixedI64 D := ⟨I64.saturatingAdd x.raw y.raw⟩

end FixedI64

/-! ### Instrument metadata -/

/-- `InstrumentMeta<D>`: tick and lot sizes. `InstrumentMeta::new` is the only
constructor and accepts strictly positive sizes only. -/
structure InstrumentMeta (D : Nat) where
  tickSize : FixedI64 D
  lotSize : FixedI64 D
  tickSize_pos : 0 < tickSize.raw.toInt
  lotSize_pos : 0 < lotSize.raw.toInt
  deriving DecidableEq

/-- Why `InstrumentMeta::new` refuses a size. -/
inductive InstrumentMetaError
  | invalidTickSize
  | invalidLotSize
  deriving DecidableEq, Repr

namespace InstrumentMeta

variable {D : Nat}

theorem toInt_pos_of_isPositive {x : FixedI64 D} (h : x.isPositive = true) : 0 < x.raw.toInt := by
  simpa [FixedI64.isPositive, Int64.lt_iff_toInt_lt] using h

/-- Accepts two strictly positive sizes; the tick size is checked first. -/
def new (tickSize lotSize : FixedI64 D) : Except InstrumentMetaError (InstrumentMeta D) :=
  if ht : tickSize.isPositive = true then
    if hl : lotSize.isPositive = true then
      .ok ⟨tickSize, lotSize, toInt_pos_of_isPositive ht, toInt_pos_of_isPositive hl⟩
    else .error .invalidLotSize
  else .error .invalidTickSize

/-- A price as a number of ticks, truncated toward zero. -/
def priceToTicks (m : InstrumentMeta D) (price : FixedI64 D) : Option Ticks :=
  let divisor := m.tickSize.raw
  if divisor = 0 then none else some (price.raw / divisor)

/-- The price of a number of ticks; `none` on overflow. -/
def ticksToPrice (m : InstrumentMeta D) (ticks : Ticks) : Option (FixedI64 D) :=
  m.tickSize.checkedMulInt ticks

/-- A quantity as a number of lots, truncated toward zero. -/
def qtyToLots (m : InstrumentMeta D) (qty : FixedI64 D) : Option Lots :=
  let divisor := m.lotSize.raw
  if divisor = 0 then none else some (qty.raw / divisor)

/-- The quantity of a number of lots; `none` on overflow. -/
def lotsToQty (m : InstrumentMeta D) (lots : Lots) : Option (FixedI64 D) :=
  m.lotSize.checkedMulInt lots

/-- Conversion to ticks divides exactly in `Int`: the defensive zero test never
fires on a constructed value, and a positive divisor cannot overflow. -/
theorem priceToTicks_eq (m : InstrumentMeta D) (price : FixedI64 D) :
    ∃ t, m.priceToTicks price = some t ∧ t.toInt = price.raw.toInt.tdiv m.tickSize.raw.toInt := by
  have hne : m.tickSize.raw ≠ 0 := by
    intro h
    have := m.tickSize_pos
    rw [h] at this
    exact absurd this (by decide)
  exact ⟨_, if_neg hne, I64.toInt_div_of_pos m.tickSize_pos⟩

theorem qtyToLots_eq (m : InstrumentMeta D) (qty : FixedI64 D) :
    ∃ l, m.qtyToLots qty = some l ∧ l.toInt = qty.raw.toInt.tdiv m.lotSize.raw.toInt := by
  have hne : m.lotSize.raw ≠ 0 := by
    intro h
    have := m.lotSize_pos
    rw [h] at this
    exact absurd this (by decide)
  exact ⟨_, if_neg hne, I64.toInt_div_of_pos m.lotSize_pos⟩

end InstrumentMeta

end Mantis
