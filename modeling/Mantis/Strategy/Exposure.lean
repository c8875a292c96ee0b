import Mantis.Strategy.OpenQty
import Mantis.Strategy.Position

/-!
# Mantis.Strategy.Exposure

Exposure of a strategy: its positions together with its open orders
(`crates/strategy/src/exposure.rs`).

`worst_case_qty` adds the open quantity of one side to the net position. The risk
gate relies on it to bound every position the strategy can still reach. The two
halves are maintained by different components: a fill goes to
`OrderTracker::on_fill`, which lowers the open quantity, and to
`Position::on_fill`, which moves the position. This module runs both in lockstep
(`venueStep`) and proves the bound for every order of fills, acknowledgements,
cancel confirmations and rejections of active orders.
-/

namespace Mantis

/-! ### The view -/

/-- `ExposureView`: the strategy's positions and its order tracker. -/
structure ExposureView where
  positions : List Position
  orders : OrderTracker
  deriving DecidableEq

namespace ExposureView

open OrderTracker Position Runs

/-- The net quantity of an instrument, zero without a position. -/
def currentQty (v : ExposureView) (i : InstrumentId) : SignedLots :=
  match v.positions.find? (fun p => p.instrumentId == i) with
  | some p => p.qty
  | none => 0

/-- Worst-case position if all open orders on this side fill. -/
def worstCaseQty (v : ExposureView) (i : InstrumentId) (s : Side) : SignedLots :=
  let openQty := v.orders.openQty i s
  let delta := match s with
    | .bid => openQty
    | .ask => -openQty
  v.currentQty i + delta

/-- Total notional at risk across the listed instruments: every position of each. -/
def totalNotionalAtRisk (v : ExposureView) (midPrices : List (InstrumentId × FixedI64 6)) :
    FixedI64 6 :=
  midPrices.foldl
    (fun total entry => v.positions.foldl
      (fun total pos =>
        if pos.instrumentId = entry.1 then (pos.notional entry.2).saturatingAdd total else total)
      total)
    .zero

/-- The exact worst case. -/
def exactWorstCase (v : ExposureView) (i : InstrumentId) (s : Side) : Int :=
  match s with
  | .bid => (v.currentQty i).toInt + v.orders.exactOpen i s
  | .ask => (v.currentQty i).toInt - v.orders.exactOpen i s

theorem worstCaseQty_eq_ofInt (v : ExposureView) (i : InstrumentId) (s : Side) :
    v.worstCaseQty i s = Int64.ofInt (v.exactWorstCase i s) := by
  cases s with
  | bid => simp [worstCaseQty, exactWorstCase, openQty_eq_ofInt]
  | ask => simp [worstCaseQty, exactWorstCase, openQty_eq_ofInt, Int64.sub_eq_add_neg]

/-- What the venue may report about an order already sent. -/
inductive VenueEvent
  | fill (clientOrderId : UInt64) (qty : Lots) (price : FixedI64 6)
  | ack (clientOrderId exchangeOrderId ackedAtNs : UInt64)
  | cancelAck (clientOrderId : UInt64)
  | reject (clientOrderId : UInt64)

namespace VenueEvent

/-- The tracker callback of an event. -/
def callback : VenueEvent → Callback
  | .fill id qty _ => .fill id qty
  | .ack id ex ackedAt => .ack id ex ackedAt
  | .cancelAck id => .cancelAck id
  | .reject id => .reject id

/-- The client id an event names. -/
def clientOrderId : VenueEvent → UInt64
  | .fill id _ _ | .ack id _ _ | .cancelAck id | .reject id => id

theorem target_callback (e : VenueEvent) : e.callback.target = some e.clientOrderId := by
  cases e <;> rfl

end VenueEvent

/-- Deliver a fill to the position of the order's instrument. -/
def fillPositions (ps : List Position) (o : TrackedOrder) (qty : Lots) (price : FixedI64 6) :
    List Position :=
  ps.map fun p => if p.instrumentId = o.instrumentId then p.onFill o.side qty price else p

/-- One venue event: every event goes to the tracker, a fill also to the position of
the order it names. -/
def venueStep (v : ExposureView) (e : VenueEvent) : ExposureView where
  orders := v.orders.step e.callback
  positions :=
    match e with
    | .fill id qty price =>
        match v.orders.findMut id with
        | some (_, o) => fillPositions v.positions o qty price
        | none => v.positions
    | _ => v.positions

/-- The event names an active order, and a fill is at most what remains of it. -/
def Admissible (v : ExposureView) (e : VenueEvent) : Prop :=
  ∃ j o, v.orders.findMut e.clientOrderId = some (j, o) ∧ o.isActive = true ∧
    match e with
    | .fill _ qty _ => 0 ≤ qty.toInt ∧ qty.toInt ≤ exactRemaining o
    | _ => True

/-- One position per instrument: no instrument has two, and every instrument with a
tracked order has one. -/
structure OnePositionEach (v : ExposureView) : Prop where
  nodup : (v.positions.map Position.instrumentId).Nodup
  covered : ∀ o ∈ Slots.occupants v.orders.orders,
    ∃ p ∈ v.positions, p.instrumentId = o.instrumentId

/-! ### Positions under a fill -/

/-- A fill reaches the position of its instrument and no other. -/
theorem find?_fillPositions (ps : List Position) (o : TrackedOrder) (qty : Lots)
    (price : FixedI64 6) (i : InstrumentId) :
    (fillPositions ps o qty price).find? (fun p => p.instrumentId == i) =
      (ps.find? (fun p => p.instrumentId == i)).map fun p =>
        if p.instrumentId = o.instrumentId then p.onFill o.side qty price else p := by
  unfold fillPositions
  rw [List.find?_map]
  congr 2
  funext p
  show (Position.instrumentId (if _ then _ else _) == i) = _
  split
  · rw [onFill_instrumentId]
  · rfl

theorem currentQty_fill {v : ExposureView} {id : UInt64} (qty : Lots) (price : FixedI64 6)
    {j : Nat} {o : TrackedOrder} (hf : v.orders.findMut id = some (j, o)) {i : InstrumentId}
    (hcov : o.instrumentId = i → ∃ p ∈ v.positions, p.instrumentId = i) :
    (v.venueStep (.fill id qty price)).currentQty i =
      if o.instrumentId = i then v.currentQty i + signedDelta o.side qty else v.currentQty i := by
  have hps : (v.venueStep (.fill id qty price)).positions =
      fillPositions v.positions o qty price := by simp [venueStep, hf]
  unfold currentQty
  rw [hps, find?_fillPositions]
  cases hfind : v.positions.find? (fun p => p.instrumentId == i) with
  | none =>
      by_cases hoi : o.instrumentId = i
      · obtain ⟨p, hp, hpi⟩ := hcov hoi
        exact absurd hpi (by simpa using List.find?_eq_none.mp hfind p hp)
      · rw [if_neg hoi]
        rfl
  | some p =>
      have hpi : p.instrumentId = i := by simpa using List.find?_some hfind
      by_cases hoi : o.instrumentId = i
      · rw [if_pos hoi]
        simp [hpi, hoi, onFill_qty_eq]
      · rw [if_neg hoi]
        simp [hpi, Ne.symm hoi]

theorem currentQty_other {v : ExposureView} {e : VenueEvent}
    (he : ∀ id qty price, e ≠ .fill id qty price) (i : InstrumentId) :
    (v.venueStep e).currentQty i = v.currentQty i := by
  cases e with
  | fill id qty price => exact absurd rfl (he id qty price)
  | ack id ex ackedAt => rfl
  | cancelAck id => rfl
  | reject id => rfl

/-! ### The invariant of a run -/

/-- The tracker and the positions are well formed. -/
structure WellFormed (v : ExposureView) : Prop where
  distinct : v.orders.DistinctIds
  filled : v.orders.FilledWithin
  onePosition : v.OnePositionEach

theorem fillPositions_instrumentIds (ps : List Position) (o : TrackedOrder) (qty : Lots)
    (price : FixedI64 6) :
    (fillPositions ps o qty price).map Position.instrumentId = ps.map Position.instrumentId := by
  unfold fillPositions
  rw [List.map_map]
  refine List.map_congr_left ?_
  intro p _
  show Position.instrumentId (if _ then _ else _) = _
  split
  · exact onFill_instrumentId ..
  · rfl

/-- No venue event adds, removes or renames a position. -/
theorem venueStep_instrumentIds (v : ExposureView) (e : VenueEvent) :
    (v.venueStep e).positions.map Position.instrumentId =
      v.positions.map Position.instrumentId := by
  cases e with
  | fill id qty price =>
      cases hf : v.orders.findMut id with
      | none => simp [venueStep, hf]
      | some q => simp [venueStep, hf, fillPositions_instrumentIds]
  | _ => rfl

theorem exists_position_iff (v : ExposureView) (i : InstrumentId) :
    (∃ p ∈ v.positions, p.instrumentId = i) ↔ i ∈ v.positions.map Position.instrumentId := by
  simp

/-- An admissible event leaves the order it names within its bounds. -/
theorem effect_filled {e : VenueEvent} {o : TrackedOrder}
    (ha : o.isActive = true)
    (ho : 0 ≤ o.filledQty.toInt ∧ o.filledQty.toInt ≤ o.originalQty.toInt)
    (he : match e with
      | .fill _ qty _ => 0 ≤ qty.toInt ∧ qty.toInt ≤ exactRemaining o
      | _ => True) :
    0 ≤ (e.callback.effect o).1.filledQty.toInt ∧
      (e.callback.effect o).1.filledQty.toInt ≤ (e.callback.effect o).1.originalQty.toInt := by
  cases e with
  | fill id qty price =>
      exact filled_fill id ha ho he.1 (fits_filled_add he)
  | ack id ex ackedAt => exact ho
  | cancelAck id => exact ho
  | reject id => exact ho

theorem WellFormed.venueStep {v : ExposureView} {e : VenueEvent} (h : v.WellFormed)
    (he : v.Admissible e) : (v.venueStep e).WellFormed := by
  obtain ⟨j, o, hf, ha, hqty⟩ := he
  have hc := e.target_callback
  have hmem : o ∈ Slots.occupants v.orders.orders :=
    Slots.mem_occupants_iff_getElem?.mpr ⟨j, (findMut_some hf).1⟩
  refine ⟨h.distinct.step hc hf, ?_, ?_, ?_⟩
  · intro o' ho'
    rcases mem_occupants_step hc hf ho' with rfl | hold
    · exact effect_filled ha (h.filled o hmem) hqty
    · exact h.filled o' hold
  · rw [venueStep_instrumentIds]
    exact h.onePosition.nodup
  · intro o' ho'
    rw [exists_position_iff, venueStep_instrumentIds, ← exists_position_iff]
    rcases mem_occupants_step hc hf ho' with rfl | hold
    · rw [(effect_identity e.callback o).2.1]
      exact h.onePosition.covered o hmem
    · exact h.onePosition.covered o' hold

/-- The exact worst cases of `i` lie within `[lo, hi]`. -/
structure Bounded (i : InstrumentId) (lo hi : Int) (v : ExposureView) : Prop where
  wellFormed : v.WellFormed
  hasPosition : ∃ p ∈ v.positions, p.instrumentId = i
  upper : (v.currentQty i).toInt + v.orders.exactOpen i .bid ≤ hi
  lower : lo ≤ (v.currentQty i).toInt - v.orders.exactOpen i .ask

/-- What is open is nonnegative, so the position itself lies within the bounds. -/
theorem Bounded.qty {i : InstrumentId} {lo hi : Int} {v : ExposureView} (h : v.Bounded i lo hi) :
    lo ≤ (v.currentQty i).toInt ∧ (v.currentQty i).toInt ≤ hi := by
  have hbid := exactOpen_nonneg h.wellFormed.filled i .bid
  have hask := exactOpen_nonneg h.wellFormed.filled i .ask
  have hu := h.upper
  have hl := h.lower
  omega

/-- Acknowledging, cancelling or rejecting an active order never raises an open
quantity. -/
theorem openWeight_effect_le {e : VenueEvent} (he : ∀ id qty price, e ≠ .fill id qty price)
    {o : TrackedOrder} (ha : o.isActive = true)
    (ho : 0 ≤ o.filledQty.toInt ∧ o.filledQty.toInt ≤ o.originalQty.toInt) (i : InstrumentId)
    (s : Side) : openWeight i s (e.callback.effect o).1 ≤ openWeight i s o := by
  have hnonneg : 0 ≤ openWeight i s o := by
    unfold openWeight exactRemaining
    split <;> omega
  cases e with
  | fill id qty price => exact absurd rfl (he id qty price)
  | ack id ex ackedAt =>
      refine le_of_eq ?_
      unfold openWeight isOpenFor exactRemaining
      rw [ha]
      rfl
  | cancelAck id =>
      refine le_trans (le_of_eq ?_) hnonneg
      unfold openWeight isOpenFor
      simp [VenueEvent.callback, Callback.effect, TrackedOrder.isActive]
  | reject id =>
      refine le_trans (le_of_eq ?_) hnonneg
      unfold openWeight isOpenFor
      simp [VenueEvent.callback, Callback.effect, TrackedOrder.isActive]

/-- Without overflow, the position of the order's instrument moves by the signed fill. -/
theorem toInt_add_signedDelta {q : SignedLots} {s : Side} {qty : Lots}
    (h : I64.Fits (q.toInt + exactDelta s qty)) :
    (q + signedDelta s qty).toInt = q.toInt + exactDelta s qty := by
  cases s with
  | bid => exact I64.toInt_add h
  | ask =>
      show (q + -qty).toInt = q.toInt + -qty.toInt
      rw [← Int64.sub_eq_add_neg, ← sub_eq_add_neg]
      refine I64.toInt_sub ?_
      rw [sub_eq_add_neg]
      exact h

/-- A fill takes exactly its quantity out of the open quantity of its instrument and
side, and leaves every other one alone. -/
theorem exactOpen_fill {v : ExposureView} {id : UInt64} {qty : Lots} (price : FixedI64 6)
    {j : Nat} {o : TrackedOrder} (hf : v.orders.findMut id = some (j, o)) (ha : o.isActive = true)
    (hqty : 0 ≤ qty.toInt ∧ qty.toInt ≤ exactRemaining o) (i : InstrumentId) (s : Side) :
    (v.venueStep (.fill id qty price)).orders.exactOpen i s =
      v.orders.exactOpen i s - if o.instrumentId = i ∧ o.side = s then qty.toInt else 0 := by
  have hopen := exactOpen_onFill hf ha (fits_filled_add hqty) i s
  rw [min_eq_left hqty.2] at hopen
  exact hopen

/-- A fill within the remaining quantity cannot exceed what is open for its instrument
and side. -/
theorem qty_le_exactOpen {v : ExposureView} {id : UInt64} {qty : Lots} {j : Nat}
    {o : TrackedOrder} (h : v.WellFormed) (hf : v.orders.findMut id = some (j, o))
    (ha : o.isActive = true) (hqty : qty.toInt ≤ exactRemaining o) :
    qty.toInt ≤ v.orders.exactOpen o.instrumentId o.side := by
  have hopen : openWeight o.instrumentId o.side o = exactRemaining o :=
    if_pos ((isOpenFor_of_active ha o.instrumentId o.side).mpr ⟨rfl, rfl⟩)
  have hshare := Slots.le_total (findMut_some hf).1
    (openWeight_nonneg h.filled o.instrumentId o.side)
  exact le_trans hqty (hopen ▸ hshare)

/-- **Invariant step, fills.** -/
theorem Bounded.fill {i : InstrumentId} {lo hi : Int} (hlo : I64.Fits lo) (hhi : I64.Fits hi)
    {v : ExposureView} {id : UInt64} {qty : Lots} {price : FixedI64 6}
    (h : v.Bounded i lo hi) (he : v.Admissible (.fill id qty price)) :
    (v.venueStep (.fill id qty price)).Bounded i lo hi := by
  have hwf := h.wellFormed.venueStep he
  have hpos : ∃ p ∈ (v.venueStep (.fill id qty price)).positions, p.instrumentId = i := by
    rw [exists_position_iff, venueStep_instrumentIds, ← exists_position_iff]
    exact h.hasPosition
  obtain ⟨j, o, hfound, ha, hqty⟩ := he
  have hf : v.orders.findMut id = some (j, o) := hfound
  have hcur := currentQty_fill qty price hf (fun _ => h.hasPosition)
  have hbid := exactOpen_fill price hf ha hqty i .bid
  have hask := exactOpen_fill price hf ha hqty i .ask
  have hshare := qty_le_exactOpen h.wellFormed hf ha hqty.2
  have hin := h.qty
  have hupper := h.upper
  have hlower := h.lower
  obtain ⟨hq0, -⟩ := hqty
  by_cases hoi : o.instrumentId = i
  · rw [if_pos hoi] at hcur
    rw [hoi] at hshare
    cases hside : o.side with
    | bid =>
        rw [hside] at hcur hshare
        rw [if_pos ⟨hoi, hside⟩] at hbid
        rw [if_neg (by simp [hside])] at hask
        have hnew : ((v.venueStep (.fill id qty price)).currentQty i).toInt =
            (v.currentQty i).toInt + qty.toInt := by
          rw [hcur]
          refine toInt_add_signedDelta (s := .bid) (I64.Fits.of_le hlo hhi ?_ ?_) <;>
            simp only [exactDelta] <;> omega
        refine ⟨hwf, hpos, ?_, ?_⟩ <;> omega
    | ask =>
        rw [hside] at hcur hshare
        rw [if_pos ⟨hoi, hside⟩] at hask
        rw [if_neg (by simp [hside])] at hbid
        have hnew : ((v.venueStep (.fill id qty price)).currentQty i).toInt =
            (v.currentQty i).toInt + -qty.toInt := by
          rw [hcur]
          refine toInt_add_signedDelta (s := .ask) (I64.Fits.of_le hlo hhi ?_ ?_) <;>
            simp only [exactDelta] <;> omega
        refine ⟨hwf, hpos, ?_, ?_⟩ <;> omega
  · -- a fill of another instrument moves neither half for `i`
    rw [if_neg hoi] at hcur
    rw [if_neg (fun hc => hoi hc.1)] at hbid hask
    refine ⟨hwf, hpos, ?_, ?_⟩ <;> rw [hcur] <;> omega

/-- **Invariant step.** Every admissible event keeps the worst cases within the bounds. -/
theorem Bounded.venueStep {i : InstrumentId} {lo hi : Int} (hlo : I64.Fits lo)
    (hhi : I64.Fits hi) {v : ExposureView} {e : VenueEvent} (h : v.Bounded i lo hi)
    (he : v.Admissible e) : (v.venueStep e).Bounded i lo hi := by
  by_cases hfill : ∃ id qty price, e = .fill id qty price
  · obtain ⟨id, qty, price, rfl⟩ := hfill
    exact h.fill hlo hhi he
  · have hne : ∀ id qty price, e ≠ .fill id qty price := fun id qty price heq =>
      hfill ⟨id, qty, price, heq⟩
    have hwf := h.wellFormed.venueStep he
    obtain ⟨j, o, hf, ha, -⟩ := he
    have ho := h.wellFormed.filled o
      (Slots.mem_occupants_iff_getElem?.mpr ⟨j, (findMut_some hf).1⟩)
    -- the position stands still, and what is open can only shrink
    have hcur := currentQty_other (v := v) hne i
    have hshrink : ∀ s, (v.venueStep e).orders.exactOpen i s ≤ v.orders.exactOpen i s := by
      intro s
      have hstep := exactOpen_step e.target_callback hf i s
      have hle := openWeight_effect_le hne ha ho i s
      show (v.orders.step e.callback).exactOpen i s ≤ _
      omega
    have hbid := hshrink .bid
    have hask := hshrink .ask
    have hupper := h.upper
    have hlower := h.lower
    refine ⟨hwf, ?_, ?_, ?_⟩
    · rw [exists_position_iff, venueStep_instrumentIds, ← exists_position_iff]
      exact h.hasPosition
    · rw [hcur]
      omega
    · rw [hcur]
      omega

/-! ### A fill and the current worst case -/

/-- A fill leaves the worst case of its own instrument and side unchanged, and both
sides of every other instrument. Both hold modulo `2 ^ 64`, so even an overflow would
not break them. -/
theorem worstCaseQty_fill {v : ExposureView} {id : UInt64} {qty : Lots} {price : FixedI64 6}
    {j : Nat} {o : TrackedOrder} (h : v.WellFormed)
    (hf : v.orders.findMut id = some (j, o)) (ha : o.isActive = true)
    (hqty : 0 ≤ qty.toInt ∧ qty.toInt ≤ exactRemaining o) :
    (v.venueStep (.fill id qty price)).worstCaseQty o.instrumentId o.side =
      v.worstCaseQty o.instrumentId o.side ∧
    ∀ k s, k ≠ o.instrumentId →
      (v.venueStep (.fill id qty price)).worstCaseQty k s = v.worstCaseQty k s := by
  have hmem : o ∈ Slots.occupants v.orders.orders :=
    Slots.mem_occupants_iff_getElem?.mpr ⟨j, (findMut_some hf).1⟩
  have hopen := exactOpen_fill price hf ha hqty
  refine ⟨?_, ?_⟩
  · have hcur := currentQty_fill qty price hf
      (fun _ => h.onePosition.covered o hmem)
    rw [if_pos rfl] at hcur
    rw [worstCaseQty_eq_ofInt, worstCaseQty_eq_ofInt]
    cases hside : o.side with
    | bid =>
        simp only [exactWorstCase, hcur, hopen, hside, and_self, if_true, signedDelta]
        simp only [Int64.ofInt_add, Int64.ofInt_sub, Int64.ofInt_toInt]
        grind
    | ask =>
        simp only [exactWorstCase, hcur, hopen, hside, and_self, if_true, signedDelta]
        simp only [Int64.ofInt_sub, Int64.ofInt_toInt]
        grind
  · intro k s hk
    have hcur := currentQty_fill qty price hf (i := k)
      (fun hc => absurd hc.symm hk)
    rw [if_neg hk.symm] at hcur
    rw [worstCaseQty_eq_ofInt, worstCaseQty_eq_ofInt]
    have hopen' := hopen k s
    rw [if_neg (fun hc => hk hc.1.symm), sub_zero] at hopen'
    cases s with
    | bid => rw [exactWorstCase, exactWorstCase, hcur, hopen']
    | ask => rw [exactWorstCase, exactWorstCase, hcur, hopen']

/-- What a fill leaves unchanged: the worst case on the side and instrument of the order
it names, and both worst cases of every other instrument. -/
def FillPreserves (v : ExposureView) (e : VenueEvent) : Prop :=
  match e with
  | .fill id _ _ => ∀ j o, v.orders.findMut id = some (j, o) →
      (v.venueStep e).worstCaseQty o.instrumentId o.side =
        v.worstCaseQty o.instrumentId o.side ∧
      ∀ k s, k ≠ o.instrumentId → (v.venueStep e).worstCaseQty k s = v.worstCaseQty k s
  | _ => True

theorem fillPreserves_of_admissible {v : ExposureView} {e : VenueEvent} (h : v.WellFormed)
    (he : v.Admissible e) : v.FillPreserves e := by
  cases e with
  | fill id qty price =>
      obtain ⟨j, o, hfound, ha, hqty⟩ := he
      have hf : v.orders.findMut id = some (j, o) := hfound
      intro j' o' hf'
      obtain ⟨rfl, rfl⟩ : j = j' ∧ o = o' := by simpa using hf.symm.trans hf'
      exact worstCaseQty_fill h hf ha hqty
  | _ => trivial

/-! ### Whole runs -/

/-- **Worst-case exposure is a true bound.** Whatever happens to the orders already
sent, in whatever order, the position of `i` stays between the worst cases computed at
the start, and no fill moves the worst case of its own side or of another instrument. -/
theorem worstCaseQty_bounds (v : ExposureView) (i : InstrumentId) (es : List VenueEvent)
    (hwf : v.WellFormed) (hi : ∃ p ∈ v.positions, p.instrumentId = i)
    (hfits : ∀ s, I64.Fits (v.exactWorstCase i s))
    (hes : AllSteps venueStep Admissible v es) :
    Always venueStep (fun w => v.worstCaseQty i .ask ≤ w.currentQty i ∧
      w.currentQty i ≤ v.worstCaseQty i .bid) v es ∧
    AllSteps venueStep FillPreserves v es := by
  have hlo : (v.worstCaseQty i .ask).toInt = v.exactWorstCase i .ask := by
    rw [worstCaseQty_eq_ofInt, I64.toInt_ofInt (hfits .ask)]
  have hhi : (v.worstCaseQty i .bid).toInt = v.exactWorstCase i .bid := by
    rw [worstCaseQty_eq_ofInt, I64.toInt_ofInt (hfits .bid)]
  have hstart : v.Bounded i (v.exactWorstCase i .ask) (v.exactWorstCase i .bid) :=
    ⟨hwf, hi, le_refl _, le_refl _⟩
  have hstep : ∀ w e, Bounded i (v.exactWorstCase i .ask) (v.exactWorstCase i .bid) w →
      w.Admissible e → Bounded i (v.exactWorstCase i .ask) (v.exactWorstCase i .bid)
        (w.venueStep e) := fun w e hw he => hw.venueStep (hfits .ask) (hfits .bid) he
  refine ⟨?_, ?_⟩
  · intro pre hpre
    have hbounded := always_of_allSteps hstep hstart hes pre hpre
    rw [Int64.le_iff_toInt_le, Int64.le_iff_toInt_le, hlo, hhi]
    exact hbounded.qty
  · exact allSteps_of_invariant hstep (fun w e hw he => fillPreserves_of_admissible hw.wellFormed he)
      hstart hes

/-- A strategy long two lots with one resting bid for ten. -/
def oneBidView : ExposureView where
  positions := [{ Position.new 1 with qty := 2 }]
  orders :=
    { OrderTracker.new.setOrder 0
        ⟨7, 42, 0, 1, .bid, 45, 10, 3, .live, 0, 0⟩ with activeCount := 1 }

theorem oneBidView_wellFormed : oneBidView.WellFormed := by
  have hslot : ∀ (k : Nat) (o : TrackedOrder), oneBidView.orders.orders[k]? = some (some o) →
      k = 0 ∧ o = ⟨7, 42, 0, 1, .bid, 45, 10, 3, .live, 0, 0⟩ := by
    intro k o hk
    cases k with
    | zero => exact ⟨rfl, by cases hk; rfl⟩
    | succ k =>
        have htail : (List.replicate 63 (none : Option TrackedOrder))[k]? = some (some o) := hk
        rw [List.getElem?_replicate] at htail
        split at htail <;> cases htail
  refine ⟨?_, ?_, ?_, ?_⟩
  · intro j k o o' hj hk _
    exact (hslot j o hj).1.trans (hslot k o' hk).1.symm
  · intro o ho
    obtain ⟨k, hk⟩ := Slots.mem_occupants_iff_getElem?.mp ho
    rw [(hslot k o hk).2]
    decide
  · decide
  · intro o ho
    obtain ⟨k, hk⟩ := Slots.mem_occupants_iff_getElem?.mp ho
    rw [(hslot k o hk).2]
    exact ⟨_, List.mem_cons_self, rfl⟩

/-- The bound on a partial fill followed by a cancel confirmation: the position of
instrument 1 stays between 2 and 9. -/
theorem worstCaseQty_bounds_oneBidView :
    oneBidView.worstCaseQty 1 .ask = 2 ∧ oneBidView.worstCaseQty 1 .bid = 9 ∧
    Always venueStep (fun w => oneBidView.worstCaseQty 1 .ask ≤ w.currentQty 1 ∧
      w.currentQty 1 ≤ oneBidView.worstCaseQty 1 .bid) oneBidView
      [.fill 7 4 ⟨450000⟩, .cancelAck 7] ∧
    AllSteps venueStep FillPreserves oneBidView [.fill 7 4 ⟨450000⟩, .cancelAck 7] := by
  refine ⟨by decide, by decide, ?_⟩
  refine worstCaseQty_bounds oneBidView 1 _ oneBidView_wellFormed
    ⟨_, List.mem_cons_self, rfl⟩ ?_ ⟨?_, ?_, trivial⟩
  · intro s
    cases s <;> decide
  · exact ⟨0, ⟨7, 42, 0, 1, .bid, 45, 10, 3, .live, 0, 0⟩, by decide, rfl, by decide⟩
  · exact ⟨0, ⟨7, 42, 0, 1, .bid, 45, 10, 7, .live, 0, 0⟩, by decide, rfl, trivial⟩

end ExposureView

end Mantis
