import Mantis.Lib.Runs
import Mantis.Lib.Slots
import Mantis.Types

/-!
# Mantis.Strategy.QueueEstimator

The queue position estimator (`crates/strategy/src/queue.rs`): for each resting order, how
much quantity is ahead of it at its price.

Modelled are the calls whose arithmetic is exact: registration, trades, fills and
cancellations. The take rates and `on_level_change` compute in floating point and are left
out; the former are never read by the calls here.

A call acts on every slot on its own (`step_slot`): what it leaves of an order is
`QueuedOrder.after`.
-/

namespace Mantis

/-- Maximum simultaneously tracked orders for queue estimation. -/
def maxQueuedOrders : Nat := 64

/-- Error returned when the queue estimator is at capacity. -/
inductive QueueFullError
  | full
  deriving DecidableEq, Repr

/-- Per-order queue tracking state. -/
structure QueuedOrder where
  orderId : UInt64
  instrumentId : InstrumentId
  side : Side
  price : Ticks
  qty : Lots
  /-- Estimated quantity ahead of the order in the queue. -/
  aheadQty : Lots
  /-- Total level size when the order was posted, its own quantity included. -/
  postedAtLevelSize : Lots
  deriving DecidableEq, Repr

/-- The queue position estimator, without its take rates. -/
structure QueueEstimator where
  orders : List (Option QueuedOrder)
  orderCount : Nat
  length_orders : orders.length = maxQueuedOrders
  deriving DecidableEq

/-- The arguments of `register_order`. -/
structure Registration where
  orderId : UInt64
  instrumentId : InstrumentId
  side : Side
  price : Ticks
  qty : Lots
  /-- The total resting quantity at the price before the order was posted. -/
  currentLevelSize : Lots
  deriving DecidableEq, Repr

namespace QueueEstimator

def new : QueueEstimator := ⟨List.replicate maxQueuedOrders none, 0, List.length_replicate ..⟩

/-- Write slot `j`, leaving the counter alone. -/
def setSlot (t : QueueEstimator) (j : Nat) (x : Option QueuedOrder) : QueueEstimator :=
  { t with
    orders := t.orders.set j x
    length_orders := by rw [List.length_set, t.length_orders] }

/-- A registered order goes behind everything at its price. -/
def queued (r : Registration) : QueuedOrder where
  orderId := r.orderId
  instrumentId := r.instrumentId
  side := r.side
  price := r.price
  qty := r.qty
  aheadQty := r.currentLevelSize
  postedAtLevelSize := r.currentLevelSize + r.qty

/-- The first empty slot. -/
def freeSlot (t : QueueEstimator) : Option Nat := t.orders.findIdx? Option.isNone

/-- Register a new order at the back of the queue. -/
def registerOrder (t : QueueEstimator) (r : Registration) :
    QueueEstimator × Except QueueFullError Unit :=
  match t.freeSlot with
  | some j => ({ t.setSlot j (some (queued r)) with orderCount := t.orderCount + 1 }, .ok ())
  | none => (t, .error .full)

/-- `find_order_mut`, with the index of the slot. -/
def findOrderMut (t : QueueEstimator) (orderId : UInt64) : Option (Nat × QueuedOrder) :=
  Slots.find? (fun o => o.orderId == orderId) t.orders

/-- Empty the first slot with this id. -/
def removeOrder (t : QueueEstimator) (orderId : UInt64) : QueueEstimator :=
  match t.findOrderMut orderId with
  | some (j, _) => { t.setSlot j none with orderCount := t.orderCount - 1 }
  | none => t

/-- The order was (partially or fully) filled: update it or remove it from tracking. -/
def orderFilled (t : QueueEstimator) (orderId : UInt64) (fillQty : Lots) : QueueEstimator :=
  match t.findOrderMut orderId with
  | some (j, order) =>
      let remaining := order.qty - fillQty
      if remaining ≤ 0 then t.removeOrder orderId
      -- after a partial fill the order is at the front
      else t.setSlot j (some { order with qty := remaining, aheadQty := 0 })
  | none => t

/-- The order was cancelled: remove it from tracking. -/
def orderCancelled (t : QueueEstimator) (orderId : UInt64) : QueueEstimator := t.removeOrder orderId

/-- What a trade leaves of one order: at the order's level it consumes from the front. -/
def advance (instrumentId : InstrumentId) (side : Side) (price : Ticks) (qty : Lots)
    (o : QueuedOrder) : QueuedOrder :=
  if o.instrumentId = instrumentId ∧ o.side = side ∧ o.price = price then
    let reduction := min qty o.aheadQty
    { o with aheadQty := max (o.aheadQty - reduction) 0 }
  else o

/-- A trade occurred at a price level. -/
def onTrade (t : QueueEstimator) (instrumentId : InstrumentId) (side : Side) (price : Ticks)
    (qty : Lots) : QueueEstimator :=
  { t with
    orders := t.orders.map (Option.map (advance instrumentId side price qty))
    length_orders := by rw [List.length_map, t.length_orders] }

/-! ### Calls as the steps of a state machine -/

/-- A call on the estimator. -/
inductive Call
  | registerOrder (r : Registration)
  | orderFilled (orderId : UInt64) (fillQty : Lots)
  | orderCancelled (orderId : UInt64)
  | onTrade (instrumentId : InstrumentId) (side : Side) (price : Ticks) (qty : Lots)
  deriving DecidableEq

def step (t : QueueEstimator) : Call → QueueEstimator
  | .registerOrder r => (t.registerOrder r).1
  | .orderFilled id qty => t.orderFilled id qty
  | .orderCancelled id => t.orderCancelled id
  | .onTrade instrumentId side price qty => t.onTrade instrumentId side price qty

/-- Ids are distinct among the tracked orders, an order has a positive quantity and its
level a nonnegative size whose sum fits; fills and trades are not negative. -/
def Valid (t : QueueEstimator) : Call → Prop
  | .registerOrder r =>
      (∀ o ∈ Slots.occupants t.orders, o.orderId ≠ r.orderId) ∧ 0 < r.qty.toInt ∧
        0 ≤ r.currentLevelSize.toInt ∧ I64.Fits (r.currentLevelSize.toInt + r.qty.toInt)
  | .orderFilled _ qty => 0 ≤ qty.toInt
  | .orderCancelled _ => True
  | .onTrade _ _ _ qty => 0 ≤ qty.toInt

instance (t : QueueEstimator) : DecidablePred t.Valid
  | .registerOrder r => inferInstanceAs (Decidable
      ((∀ o ∈ Slots.occupants t.orders, o.orderId ≠ r.orderId) ∧ 0 < r.qty.toInt ∧
        0 ≤ r.currentLevelSize.toInt ∧ I64.Fits (r.currentLevelSize.toInt + r.qty.toInt)))
  | .orderFilled _ qty => inferInstanceAs (Decidable (0 ≤ qty.toInt))
  | .orderCancelled _ => inferInstanceAs (Decidable True)
  | .onTrade _ _ _ qty => inferInstanceAs (Decidable (0 ≤ qty.toInt))

end QueueEstimator

/-! ### One call on one order -/

namespace QueuedOrder

open QueueEstimator

/-- What a call leaves of a tracked order. -/
def after (c : Call) (o : QueuedOrder) : Option QueuedOrder :=
  match c with
  | .registerOrder _ => some o
  | .orderFilled id fillQty =>
      if o.orderId = id then
        if o.qty - fillQty ≤ 0 then none
        else some { o with qty := o.qty - fillQty, aheadQty := 0 }
      else some o
  | .orderCancelled id => if o.orderId = id then none else some o
  | .onTrade instrumentId side price qty => some (advance instrumentId side price qty o)

/-- Is the call about this order: its fill, its cancellation or a trade at its level? -/
def Concerns (o : QueuedOrder) : Call → Prop
  | .registerOrder _ => False
  | .orderFilled id _ | .orderCancelled id => o.orderId = id
  | .onTrade instrumentId side price _ =>
      o.instrumentId = instrumentId ∧ o.side = side ∧ o.price = price

theorem after_of_not_concerns {c : Call} {o : QueuedOrder} (h : ¬ o.Concerns c) :
    o.after c = some o := by
  cases c with
  | registerOrder r => rfl
  | orderFilled id qty => exact if_neg h
  | orderCancelled id => exact if_neg h
  | onTrade i s p qty => exact congrArg some (if_neg h)

/-- **What a call can leave of an order**: the order as it was, what a partial fill leaves,
or what a trade at its level leaves. -/
theorem after_cases {c : Call} {o o' : QueuedOrder} (h : o.after c = some o') :
    o' = o ∨
      (∃ qty, c = .orderFilled o.orderId qty ∧
        o' = { o with qty := o.qty - qty, aheadQty := 0 }) ∨
      ∃ qty, c = .onTrade o.instrumentId o.side o.price qty ∧
        o' = advance o.instrumentId o.side o.price qty o := by
  by_cases hconcerns : o.Concerns c
  · cases c with
    | registerOrder r => exact hconcerns.elim
    | orderFilled id qty =>
        obtain rfl : o.orderId = id := hconcerns
        simp only [after, if_true] at h
        split at h
        · cases h
        · exact Or.inr (Or.inl ⟨qty, rfl, (Option.some.inj h).symm⟩)
    | orderCancelled id =>
        cases (if_pos hconcerns).symm.trans h
    | onTrade i s p qty =>
        obtain ⟨rfl, rfl, rfl⟩ := hconcerns
        exact Or.inr (Or.inr ⟨qty, rfl, (Option.some.inj h).symm⟩)
  · rw [after_of_not_concerns hconcerns, Option.some.injEq] at h
    exact Or.inl h.symm

theorem after_orderId {c : Call} {o o' : QueuedOrder} (h : o.after c = some o') :
    o'.orderId = o.orderId := by
  rcases after_cases h with rfl | ⟨qty, -, rfl⟩ | ⟨qty, -, rfl⟩
  · rfl
  · rfl
  · unfold advance
    split <;> rfl

end QueuedOrder

namespace QueueEstimator

/-- Distinct slots hold orders with distinct ids. -/
def DistinctIds (t : QueueEstimator) : Prop :=
  ∀ (j k : Nat) (o o' : QueuedOrder), t.orders[j]? = some (some o) →
    t.orders[k]? = some (some o') → o.orderId = o'.orderId → j = k

theorem setSlot_self {t : QueueEstimator} {j : Nat} {y : Option QueuedOrder}
    (hj : t.orders[j]? = some y) (x : Option QueuedOrder) :
    (t.setSlot j x).orders[j]? = some x :=
  List.getElem?_set_self (List.getElem?_eq_some_iff.mp hj).1

theorem setSlot_ne {t : QueueEstimator} {j k : Nat} (h : j ≠ k) (x : Option QueuedOrder) :
    (t.setSlot j x).orders[k]? = t.orders[k]? := List.getElem?_set_ne h

theorem freeSlot_some {t : QueueEstimator} {j : Nat} (h : t.freeSlot = some j) :
    t.orders[j]? = some none := by
  obtain ⟨hj, hnone, -⟩ := List.findIdx?_eq_some_iff_getElem.mp h
  rw [List.getElem?_eq_getElem hj, Option.isNone_iff_eq_none.mp hnone]

/-- What the search finds, it finds in the only slot with that id. -/
theorem DistinctIds.find_iff {t : QueueEstimator} (h : t.DistinctIds) {id : UInt64} {j : Nat}
    {o : QueuedOrder} :
    t.findOrderMut id = some (j, o) ↔ t.orders[j]? = some (some o) ∧ o.orderId = id := by
  constructor
  · intro hf
    obtain ⟨hget, hid, -⟩ := Slots.find?_some hf
    exact ⟨hget, by simpa using hid⟩
  · rintro ⟨hj, rfl⟩
    cases hf : t.findOrderMut o.orderId with
    | none => exact absurd (Slots.find?_none hf hj) (by simp)
    | some q =>
        obtain ⟨k, o'⟩ := q
        obtain ⟨hk, hid, -⟩ := Slots.find?_some hf
        obtain rfl := h k j o' o hk hj (by simpa using hid)
        rw [hj] at hk
        cases hk
        rfl

/-- Removal empties the slot of the order it names and no other. -/
theorem removeOrder_slot {t : QueueEstimator} (h : t.DistinctIds) {j : Nat} {o : QueuedOrder}
    (hj : t.orders[j]? = some (some o)) (id : UInt64) :
    (t.removeOrder id).orders[j]? = some (if o.orderId = id then none else some o) := by
  unfold removeOrder
  cases hf : t.findOrderMut id with
  | none =>
      have hne : o.orderId ≠ id := by simpa using Slots.find?_none hf hj
      rw [if_neg hne]
      exact hj
  | some q =>
      obtain ⟨k, o'⟩ := q
      obtain ⟨hk, hid⟩ := h.find_iff.mp hf
      by_cases hjk : k = j
      · subst hjk
        rw [hj] at hk
        cases hk
        rw [if_pos hid]
        exact setSlot_self hj none
      · have hne : o.orderId ≠ id := fun heq => hjk (h k j o' o hk hj (hid.trans heq.symm))
        rw [if_neg hne]
        exact (setSlot_ne hjk none).trans hj

/-- **One call, slot by slot.** -/
theorem step_slot {t : QueueEstimator} (h : t.DistinctIds) {j : Nat} {o : QueuedOrder}
    (hj : t.orders[j]? = some (some o)) (c : Call) :
    (t.step c).orders[j]? = some (o.after c) := by
  cases c with
  | registerOrder r =>
      show (t.registerOrder r).1.orders[j]? = some (some o)
      unfold registerOrder
      cases hfree : t.freeSlot with
      | none => exact hj
      | some k =>
          have hne : k ≠ j := by
            rintro rfl
            cases hj.symm.trans (freeSlot_some hfree)
          exact (setSlot_ne hne _).trans hj
  | orderFilled id qty =>
      show (t.orderFilled id qty).orders[j]? = some (o.after (.orderFilled id qty))
      unfold orderFilled
      by_cases hid : o.orderId = id
      · have hf := h.find_iff.mpr ⟨hj, hid⟩
        simp only [hf, QueuedOrder.after, if_pos hid]
        split
        · rw [removeOrder_slot h hj, if_pos hid]
        · exact setSlot_self hj _
      · simp only [QueuedOrder.after, if_neg hid]
        cases hf : t.findOrderMut id with
        | none => exact hj
        | some q =>
            obtain ⟨k, o'⟩ := q
            obtain ⟨hk, hid'⟩ := h.find_iff.mp hf
            have hne : k ≠ j := by
              rintro rfl
              rw [hj] at hk
              cases hk
              exact hid hid'
            dsimp only
            split
            · rw [removeOrder_slot h hj, if_neg hid]
            · exact (setSlot_ne hne _).trans hj
  | orderCancelled id => exact removeOrder_slot h hj id
  | onTrade i s p qty =>
      show (t.orders.map _)[j]? = _
      rw [List.getElem?_map, hj]
      rfl

/-- No search finds an empty slot. -/
theorem find_ne_of_empty {t : QueueEstimator} {id : UInt64} {j k : Nat} {o : QueuedOrder}
    (hj : t.orders[j]? = some none) (hf : t.findOrderMut id = some (k, o)) : k ≠ j := by
  rintro rfl
  cases hj.symm.trans (Slots.find?_some hf).1

theorem removeOrder_empty {t : QueueEstimator} {j : Nat} (hj : t.orders[j]? = some none)
    (id : UInt64) : (t.removeOrder id).orders[j]? = some none := by
  unfold removeOrder
  cases hf : t.findOrderMut id with
  | none => exact hj
  | some q => exact (setSlot_ne (find_ne_of_empty hj hf) none).trans hj

/-- A call fills an empty slot only by registering an order in it. -/
theorem step_empty {t : QueueEstimator} {j : Nat} {o : QueuedOrder} {c : Call}
    (hj : t.orders[j]? = some none) (ho : (t.step c).orders[j]? = some (some o)) :
    ∃ r, c = .registerOrder r ∧ t.freeSlot = some j ∧ o = queued r := by
  cases c with
  | registerOrder r =>
      refine ⟨r, rfl, ?_⟩
      change (t.registerOrder r).1.orders[j]? = _ at ho
      unfold registerOrder at ho
      cases hfree : t.freeSlot with
      | none =>
          rw [hfree] at ho
          cases hj.symm.trans ho
      | some k =>
          rw [hfree] at ho
          by_cases hkj : k = j
          · subst hkj
            cases ho.symm.trans (setSlot_self hj (some (queued r)))
            exact ⟨rfl, rfl⟩
          · cases (setSlot_ne hkj (some (queued r))).symm.trans ho |>.symm.trans hj
  | orderFilled id qty =>
      change (t.orderFilled id qty).orders[j]? = _ at ho
      unfold orderFilled at ho
      cases hf : t.findOrderMut id with
      | none =>
          rw [hf] at ho
          cases hj.symm.trans ho
      | some q =>
          obtain ⟨k, o'⟩ := q
          rw [hf] at ho
          dsimp only at ho
          split at ho
          · cases (removeOrder_empty hj id).symm.trans ho
          · cases ((setSlot_ne (find_ne_of_empty hj hf) _).symm.trans ho).symm.trans hj
  | orderCancelled id => cases (removeOrder_empty hj id).symm.trans ho
  | onTrade i s p qty =>
      change (t.orders.map _)[j]? = _ at ho
      rw [List.getElem?_map, hj] at ho
      cases ho

/-! ### Invariants -/

theorem slot_of_step {t : QueueEstimator} {c : Call} {j : Nat} {x : Option QueuedOrder}
    (h : (t.step c).orders[j]? = some x) : ∃ y, t.orders[j]? = some y := by
  have hlt := (List.getElem?_eq_some_iff.mp h).1
  rw [(t.step c).length_orders, ← t.length_orders] at hlt
  exact ⟨_, List.getElem?_eq_getElem hlt⟩

/-- A call keeps ids distinct. -/
theorem DistinctIds.step {t : QueueEstimator} (h : t.DistinctIds) {c : Call} (hc : t.Valid c) :
    (t.step c).DistinctIds := by
  -- an order of the new estimator was there before, or has just been registered
  have back : ∀ (k : Nat) x, (t.step c).orders[k]? = some (some x) →
      (∃ y, t.orders[k]? = some (some y) ∧ y.orderId = x.orderId) ∨
        ∃ r, c = .registerOrder r ∧ t.freeSlot = some k ∧ x = queued r := by
    intro k x hx
    obtain ⟨slot, hk⟩ := slot_of_step hx
    cases slot with
    | none => exact Or.inr (step_empty hk hx)
    | some y =>
        have hafter := (step_slot h hk c).symm.trans hx
        exact Or.inl ⟨y, hk, (QueuedOrder.after_orderId (Option.some.inj hafter)).symm⟩
  have hfresh : ∀ {r}, c = .registerOrder r → ∀ (k : Nat) y, t.orders[k]? = some (some y) →
      y.orderId ≠ r.orderId := by
    rintro r rfl k y hy
    exact hc.1 y (Slots.mem_occupants_iff_getElem?.mpr ⟨k, hy⟩)
  intro j k x x' hx hx' hid
  rcases back j x hx with ⟨y, hy, hyx⟩ | ⟨r, hr, hfree, rfl⟩ <;>
    rcases back k x' hx' with ⟨y', hy', hyx'⟩ | ⟨r', hr', hfree', rfl⟩
  · exact h j k y y' hy hy' (hyx.trans (hid.trans hyx'.symm))
  · exact absurd (hyx.trans hid) (hfresh hr' j y hy)
  · exact absurd (hyx'.trans hid.symm) (hfresh hr k y' hy')
  · exact Option.some.inj (hfree.symm.trans hfree')

/-- The counter is the number of occupied slots. -/
def CountExact (t : QueueEstimator) : Prop := t.orderCount = (Slots.occupants t.orders).length

theorem CountExact.removeOrder {t : QueueEstimator} (h : t.CountExact) (id : UInt64) :
    (t.removeOrder id).CountExact := by
  unfold QueueEstimator.removeOrder
  cases hf : t.findOrderMut id with
  | none => exact h
  | some q =>
      obtain ⟨j, o⟩ := q
      have hlen := Slots.length_occupants_set (Slots.find?_some hf).1 none
      unfold CountExact at h ⊢
      show t.orderCount - 1 = (Slots.occupants (t.orders.set j none)).length
      simp only [Slots.slotWeight] at hlen
      omega

theorem CountExact.step {t : QueueEstimator} (h : t.CountExact) (c : Call) :
    (t.step c).CountExact := by
  cases c with
  | registerOrder r =>
      show (t.registerOrder r).1.CountExact
      unfold QueueEstimator.registerOrder
      cases hfree : t.freeSlot with
      | none => exact h
      | some j =>
          have hlen := Slots.length_occupants_set (freeSlot_some hfree) (some (queued r))
          unfold CountExact at h ⊢
          show t.orderCount + 1 = (Slots.occupants (t.orders.set j (some (queued r)))).length
          simp only [Slots.slotWeight] at hlen
          omega
  | orderFilled id qty =>
      show (t.orderFilled id qty).CountExact
      unfold QueueEstimator.orderFilled
      cases hf : t.findOrderMut id with
      | none => exact h
      | some q =>
          obtain ⟨j, o⟩ := q
          dsimp only
          split
          · exact h.removeOrder id
          · have hlen := Slots.length_occupants_set (Slots.find?_some hf).1
              (some { o with qty := o.qty - qty, aheadQty := 0 })
            simp only [Slots.slotWeight] at hlen
            exact h.trans (Nat.add_right_cancel hlen).symm
  | orderCancelled id => exact h.removeOrder id
  | onTrade i s p qty =>
      show t.orderCount = (Slots.occupants (t.orders.map _)).length
      rw [Slots.occupants_map, List.length_map]
      exact h

end QueueEstimator

end Mantis
