import Mantis.Lib.Runs
import Mantis.Types
import Mathlib.Tactic.Ring

/-!
# Mantis.Strategy.Position

Signed inventory position with a volume-weighted entry price
(`crates/strategy/src/position.rs`).

`on_fill` mixes two kinds of `i64` arithmetic: lot quantities use the plain
operators, prices the checked ones with a fallback of zero. `FillFits` lists the
exact result of every one of these operations, so that under it the fallbacks and
the wrap-around are out of the picture and the fill is described by the integer
equations `onFill_increase` and `onFill_reduce`.
-/

namespace Mantis

/-- A net position in one instrument. -/
structure Position where
  instrumentId : InstrumentId
  /-- Net signed lots: positive is long, negative is short. -/
  qty : SignedLots
  /-- Volume-weighted average entry price, zero when flat. -/
  avgEntry : FixedI64 6
  realizedPnl : FixedI64 6
  fillCount : UInt32
  deriving DecidableEq, Repr

namespace Position

/-- A flat position. -/
def new (instrumentId : InstrumentId) : Position := ⟨instrumentId, 0, .zero, .zero, 0⟩

/-- The signed lots of a fill: a bid adds, an ask removes. -/
def signedDelta (side : Side) (qty : Lots) : SignedLots :=
  match side with
  | .bid => qty
  | .ask => -qty

/-- Does the fill add to the position (same direction, or from flat)? -/
def isIncreasing (oldQty delta : SignedLots) : Bool :=
  oldQty == 0 || (decide (0 < oldQty) && decide (0 < delta)) ||
    (decide (oldQty < 0) && decide (delta < 0))

/-- The new average entry price of an increasing fill. -/
def vwapEntry (avgEntry price : FixedI64 6) (oldQty delta newQty : SignedLots) : FixedI64 6 :=
  let oldCost := (avgEntry.checkedMulInt oldQty.abs).getD .zero
  let newCost := (price.checkedMulInt delta.abs).getD .zero
  let totalCost := (oldCost.checkedAdd newCost).getD .zero
  (totalCost.checkedDivInt newQty.abs).getD .zero

/-- The smaller of the two lot counts: how much of the position a fill closes. -/
def closedQty (oldQty delta : SignedLots) : SignedLots :=
  if delta.abs ≤ oldQty.abs then delta.abs else oldQty.abs

/-- The profit a reducing fill realizes. -/
def fillPnl (avgEntry price : FixedI64 6) (oldQty delta : SignedLots) : FixedI64 6 :=
  let pnlPerLot :=
    (((price.checkedSub avgEntry).getD .zero).checkedMulInt (I64.signum oldQty)).getD .zero
  (pnlPerLot.checkedMulInt (closedQty oldQty delta)).getD .zero

/-- `u32::saturating_add(1)`. -/
def saturatingSucc (n : UInt32) : UInt32 := if n = 4294967295 then n else n + 1

/-- Process a fill: update the entry price on an increase, realize profit otherwise. -/
def onFill (p : Position) (side : Side) (qty : Lots) (price : FixedI64 6) : Position :=
  let delta := signedDelta side qty
  let newQty := p.qty + delta
  let p' :=
    if isIncreasing p.qty delta then
      { p with avgEntry := vwapEntry p.avgEntry price p.qty delta newQty }
    else
      let realizedPnl :=
        (p.realizedPnl.checkedAdd (fillPnl p.avgEntry price p.qty delta)).getD p.realizedPnl
      -- a fill that crosses flat opens the new leg at the fill price
      if 0 < newQty.abs ∧ I64.signum newQty ≠ I64.signum p.qty then
        { p with realizedPnl, avgEntry := price }
      else { p with realizedPnl }
  { p' with
    qty := newQty
    fillCount := saturatingSucc p.fillCount
    avgEntry := if newQty = 0 then .zero else p'.avgEntry }

/-- Mark-to-market profit at `currentMid`. -/
def unrealizedPnl (p : Position) (currentMid : FixedI64 6) : FixedI64 6 :=
  if p.qty = 0 then .zero
  else (((currentMid.checkedSub p.avgEntry).getD .zero).checkedMulInt p.qty).getD .zero

/-- Realized plus unrealized profit. -/
def totalPnl (p : Position) (currentMid : FixedI64 6) : FixedI64 6 :=
  (p.realizedPnl.checkedAdd (p.unrealizedPnl currentMid)).getD p.realizedPnl

/-- Gross notional exposure, `|qty| * currentMid`. -/
def notional (p : Position) (currentMid : FixedI64 6) : FixedI64 6 :=
  (currentMid.checkedMulInt p.qty.abs).getD .zero

/-! ### Fills without overflow -/

/-- The exact signed quantity of a fill. -/
def exactDelta (side : Side) (qty : Lots) : Int :=
  match side with
  | .bid => qty.toInt
  | .ask => -qty.toInt

open I64 (Fits)

/-- Every `i64` operation of `on_fill` has a representable exact result. -/
structure FillFits (p : Position) (side : Side) (qty : Lots) (price : FixedI64 6) : Prop where
  /-- `-SignedLots::from(qty)` on the ask side. -/
  delta : Fits (exactDelta side qty)
  /-- `old_qty + delta`. -/
  newQty : Fits (p.qty.toInt + exactDelta side qty)
  /-- The three absolute values. -/
  absOld : Fits |p.qty.toInt|
  absDelta : Fits |exactDelta side qty|
  absNew : Fits |p.qty.toInt + exactDelta side qty|
  /-- The costs of an increasing fill. -/
  costs : isIncreasing p.qty (signedDelta side qty) = true →
    Fits (p.avgEntry.raw.toInt * |p.qty.toInt|) ∧
    Fits (price.raw.toInt * |exactDelta side qty|) ∧
    Fits (p.avgEntry.raw.toInt * |p.qty.toInt| + price.raw.toInt * |exactDelta side qty|)
  /-- The profit of a reducing fill. -/
  pnl : isIncreasing p.qty (signedDelta side qty) = false →
    Fits (price.raw.toInt - p.avgEntry.raw.toInt) ∧
    Fits ((price.raw.toInt - p.avgEntry.raw.toInt) * p.qty.toInt.sign) ∧
    Fits ((price.raw.toInt - p.avgEntry.raw.toInt) * p.qty.toInt.sign *
      min |exactDelta side qty| |p.qty.toInt|) ∧
    Fits (p.realizedPnl.raw.toInt + (price.raw.toInt - p.avgEntry.raw.toInt) *
      p.qty.toInt.sign * min |exactDelta side qty| |p.qty.toInt|)

theorem toInt_signedDelta {side : Side} {qty : Lots} (h : Fits (exactDelta side qty)) :
    (signedDelta side qty).toInt = exactDelta side qty := by
  cases side with
  | bid => rfl
  | ask => exact I64.toInt_neg h

/-- The direction test, in integers. -/
theorem isIncreasing_iff {oldQty d : SignedLots} :
    isIncreasing oldQty d = true ↔
      oldQty.toInt = 0 ∨ (0 < oldQty.toInt ∧ 0 < d.toInt) ∨ (oldQty.toInt < 0 ∧ d.toInt < 0) := by
  simp only [isIncreasing, Bool.or_eq_true, Bool.and_eq_true, decide_eq_true_eq, beq_iff_eq,
    Int64.lt_iff_toInt_lt, Int64.toInt_zero, or_assoc, I64.toInt_eq_zero]

section
variable {p : Position} {side : Side} {qty : Lots} {price : FixedI64 6}

theorem onFill_instrumentId (p : Position) (side : Side) (qty : Lots) (price : FixedI64 6) :
    (p.onFill side qty price).instrumentId = p.instrumentId := by
  simp only [onFill]
  split
  · rfl
  · split <;> rfl

theorem onFill_qty_eq (p : Position) (side : Side) (qty : Lots) (price : FixedI64 6) :
    (p.onFill side qty price).qty = p.qty + signedDelta side qty := rfl

theorem FillFits.toInt_newQty (h : FillFits p side qty price) :
    (p.qty + signedDelta side qty).toInt = p.qty.toInt + exactDelta side qty := by
  have hd := toInt_signedDelta h.delta
  rw [I64.toInt_add (by rw [hd]; exact h.newQty), hd]

/-- The quantity moves by the signed fill. -/
theorem onFill_qty (h : FillFits p side qty price) :
    (p.onFill side qty price).qty.toInt = p.qty.toInt + exactDelta side qty := by
  rw [onFill_qty_eq]
  exact h.toInt_newQty

/-- The entry price in exact integers: each cost that does not fit counts as zero. -/
theorem raw_vwapEntry (avgEntry price : FixedI64 6) {oldQty d newQty : SignedLots}
    (hold : Fits |oldQty.toInt|) (hd : Fits |d.toInt|) (hnew : Fits |newQty.toInt|)
    (hne : newQty ≠ 0) :
    (vwapEntry avgEntry price oldQty d newQty).raw.toInt =
      (I64.orZero (I64.orZero (avgEntry.raw.toInt * |oldQty.toInt|) +
        I64.orZero (price.raw.toInt * |d.toInt|))).tdiv |newQty.toInt| := by
  have hcost : ∀ (x : FixedI64 6) {q : SignedLots}, Fits |q.toInt| →
      ((x.checkedMulInt q.abs).getD .zero).raw.toInt = I64.orZero (x.raw.toInt * |q.toInt|) := by
    intro x q hq
    rw [← I64.toInt_abs hq]
    exact FixedI64.raw_getD_zero _
  have htotal : ((((avgEntry.checkedMulInt oldQty.abs).getD .zero).checkedAdd
      ((price.checkedMulInt d.abs).getD .zero)).getD .zero).raw.toInt =
      I64.orZero (I64.orZero (avgEntry.raw.toInt * |oldQty.toInt|) +
        I64.orZero (price.raw.toInt * |d.toInt|)) := by
    rw [← hcost avgEntry hold, ← hcost price hd]
    exact FixedI64.raw_getD_zero _
  have hpos : 0 < newQty.abs.toInt := by
    rw [I64.toInt_abs hnew, abs_pos]
    exact fun h0 => hne (I64.toInt_eq_zero.mp h0)
  have hne' : newQty.abs ≠ 0 := by
    intro h0
    rw [h0, Int64.toInt_zero] at hpos
    omega
  simp only [vwapEntry, FixedI64.checkedDivInt, hne', if_false, Option.getD_some]
  rw [I64.toInt_div_of_pos hpos, I64.toInt_abs hnew, htotal]

theorem FillFits.raw_vwapEntry (h : FillFits p side qty price)
    (hinc : isIncreasing p.qty (signedDelta side qty) = true)
    (hne : p.qty + signedDelta side qty ≠ 0) :
    (vwapEntry p.avgEntry price p.qty (signedDelta side qty)
        (p.qty + signedDelta side qty)).raw.toInt =
      (p.avgEntry.raw.toInt * |p.qty.toInt| + price.raw.toInt * |exactDelta side qty|).tdiv
        |p.qty.toInt + exactDelta side qty| := by
  have hd := toInt_signedDelta h.delta
  have hn := h.toInt_newQty
  obtain ⟨hold, hnew, htotal⟩ := h.costs hinc
  rw [Position.raw_vwapEntry _ _ h.absOld (by rw [hd]; exact h.absDelta)
    (by rw [hn]; exact h.absNew) hne, hd, hn, I64.orZero_of_fits hold, I64.orZero_of_fits hnew,
    I64.orZero_of_fits htotal]

theorem FillFits.raw_fillPnl (h : FillFits p side qty price)
    (hinc : isIncreasing p.qty (signedDelta side qty) = false) :
    (fillPnl p.avgEntry price p.qty (signedDelta side qty)).raw.toInt =
      (price.raw.toInt - p.avgEntry.raw.toInt) * p.qty.toInt.sign *
        min |exactDelta side qty| |p.qty.toInt| := by
  have hd := toInt_signedDelta h.delta
  obtain ⟨hsub, hdir, hfill, -⟩ := h.pnl hinc
  have hao : p.qty.abs.toInt = |p.qty.toInt| := I64.toInt_abs h.absOld
  have had : (signedDelta side qty).abs.toInt = |exactDelta side qty| := by
    rw [I64.toInt_abs (by rw [hd]; exact h.absDelta), hd]
  have hclosed : (closedQty p.qty (signedDelta side qty)).toInt =
      min |exactDelta side qty| |p.qty.toInt| := by
    unfold closedQty
    split
    · next hle =>
        rw [Int64.le_iff_toInt_le, had, hao] at hle
        rw [had, min_eq_left hle]
    · next hlt =>
        rw [Int64.le_iff_toInt_le, had, hao] at hlt
        rw [hao, min_eq_right (by omega)]
  have hs := I64.toInt_signum p.qty
  have hdiff : ((price.checkedSub p.avgEntry).getD .zero).raw.toInt =
      price.raw.toInt - p.avgEntry.raw.toInt := FixedI64.raw_getD_checked hsub _
  have hlot : ((((price.checkedSub p.avgEntry).getD .zero).checkedMulInt
      (I64.signum p.qty)).getD .zero).raw.toInt =
      (price.raw.toInt - p.avgEntry.raw.toInt) * p.qty.toInt.sign := by
    rw [← hdiff, ← hs]
    exact FixedI64.raw_getD_checked (by rw [hdiff, hs]; exact hdir) _
  simp only [fillPnl]
  rw [← hlot, ← hclosed]
  exact FixedI64.raw_getD_checked (by rw [hlot, hclosed]; exact hfill) _

/-- **Increasing fill.** The entry price becomes the truncated weighted mean of the
old entry and the fill price; nothing is realized. -/
theorem onFill_increase (h : FillFits p side qty price)
    (hinc : isIncreasing p.qty (signedDelta side qty) = true) :
    (p.onFill side qty price).realizedPnl = p.realizedPnl ∧
    (p.onFill side qty price).avgEntry.raw.toInt =
      if p.qty.toInt + exactDelta side qty = 0 then 0
      else (p.avgEntry.raw.toInt * |p.qty.toInt| + price.raw.toInt * |exactDelta side qty|).tdiv
        |p.qty.toInt + exactDelta side qty| := by
  have hn := h.toInt_newQty
  have havg : (p.onFill side qty price).avgEntry =
      if p.qty + signedDelta side qty = 0 then .zero
      else vwapEntry p.avgEntry price p.qty (signedDelta side qty)
        (p.qty + signedDelta side qty) := by
    simp only [onFill, hinc, if_true]
  refine ⟨by simp only [onFill, hinc, if_true], ?_⟩
  by_cases h0 : p.qty + signedDelta side qty = 0
  · rw [havg, if_pos h0, if_pos (by rw [← hn, h0, Int64.toInt_zero])]
    rfl
  · rw [havg, if_neg h0, if_neg (by rw [← hn]; exact fun hz => h0 (I64.toInt_eq_zero.mp hz))]
    exact h.raw_vwapEntry hinc h0

/-- **Reducing fill.** The closed lots realize their profit; the entry price stays,
unless the position closes (zero) or flips (the fill price). -/
theorem onFill_reduce (h : FillFits p side qty price)
    (hinc : isIncreasing p.qty (signedDelta side qty) = false) :
    (p.onFill side qty price).realizedPnl.raw.toInt = p.realizedPnl.raw.toInt +
      (price.raw.toInt - p.avgEntry.raw.toInt) * p.qty.toInt.sign *
        min |exactDelta side qty| |p.qty.toInt| ∧
    (p.onFill side qty price).avgEntry.raw.toInt =
      if p.qty.toInt + exactDelta side qty = 0 then 0
      else if (p.qty.toInt + exactDelta side qty).sign ≠ p.qty.toInt.sign then price.raw.toInt
      else p.avgEntry.raw.toInt := by
  have hn := h.toInt_newQty
  have hpnl := h.raw_fillPnl hinc
  have hrealized : (p.onFill side qty price).realizedPnl = (p.realizedPnl.checkedAdd
      (fillPnl p.avgEntry price p.qty (signedDelta side qty))).getD p.realizedPnl := by
    simp only [onFill, hinc, Bool.false_eq_true, if_false]
    split <;> rfl
  have havg : (p.onFill side qty price).avgEntry =
      if p.qty + signedDelta side qty = 0 then .zero
      else if 0 < (p.qty + signedDelta side qty).abs ∧
        I64.signum (p.qty + signedDelta side qty) ≠ I64.signum p.qty then price
      else p.avgEntry := by
    by_cases hflip : 0 < (p.qty + signedDelta side qty).abs ∧
        I64.signum (p.qty + signedDelta side qty) ≠ I64.signum p.qty
    · simp only [onFill, hinc, Bool.false_eq_true, if_false, if_pos hflip]
    · simp only [onFill, hinc, Bool.false_eq_true, if_false, if_neg hflip]
  refine ⟨?_, ?_⟩
  · obtain ⟨-, -, -, hadd⟩ := h.pnl hinc
    rw [hrealized, ← hpnl]
    exact FixedI64.raw_getD_checked (by rw [hpnl]; exact hadd) _
  · have hzero : p.qty + signedDelta side qty = 0 ↔ p.qty.toInt + exactDelta side qty = 0 := by
      rw [← hn, I64.toInt_eq_zero]
    have hsign : I64.signum (p.qty + signedDelta side qty) ≠ I64.signum p.qty ↔
        (p.qty.toInt + exactDelta side qty).sign ≠ p.qty.toInt.sign := by
      rw [ne_eq, ← Int64.toInt_inj, I64.toInt_signum, I64.toInt_signum, hn]
    rw [havg]
    by_cases h0 : p.qty + signedDelta side qty = 0
    · rw [if_pos h0, if_pos (hzero.mp h0)]
      rfl
    · have habs : 0 < (p.qty + signedDelta side qty).abs := by
        rw [Int64.lt_iff_toInt_lt, I64.toInt_abs (by rw [hn]; exact h.absNew), Int64.toInt_zero,
          abs_pos]
        exact fun hz => h0 (I64.toInt_eq_zero.mp hz)
      rw [if_neg h0, if_neg (fun hz => h0 (hzero.mpr hz))]
      by_cases hs : I64.signum (p.qty + signedDelta side qty) ≠ I64.signum p.qty
      · rw [if_pos ⟨habs, hs⟩, if_pos (hsign.mp hs)]
      · rw [if_neg (fun hc => hs hc.2), if_neg (fun hc => hs (hsign.mpr hc))]

end

end Position

end Mantis
