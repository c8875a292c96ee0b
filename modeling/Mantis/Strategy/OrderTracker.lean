import Mantis.Lib.Runs
import Mantis.Lib.Slots
import Mantis.Types

/-!
# Mantis.Strategy.OrderTracker

Per-strategy order tracking with fixed-size storage
(`crates/strategy/src/order_tracker.rs`).

A tracker is an array of `MAX_TRACKED_ORDERS` slots and a hand-maintained counter
of active orders. Every callback that names an order goes through `findMut`, the
first slot whose order carries that client id, so each callback is one lookup
followed by one write of the slot it found (`setOrder`). The lemmas below state
each callback in that form; everything else about the tracker is derived from
them and from the slot library.
-/

namespace Mantis

/-- Maximum orders tracked per strategy. -/
def maxTrackedOrders : Nat := 64

/-- Venue-agnostic order states. -/
inductive OrderState
  /-- Intent emitted, not yet sent to venue. -/
  | pending
  /-- Sent to venue, awaiting ack. -/
  | sending
  /-- Resting on the book (including partially filled). -/
  | live
  /-- Cancel request sent, awaiting confirmation. -/
  | cancelPending
  /-- Fully filled. -/
  | filled
  /-- Cancelled (by us or venue). -/
  | cancelled
  /-- Rejected by venue. -/
  | rejected
  deriving DecidableEq, Repr

/-- A tracked order. -/
structure TrackedOrder where
  clientOrderId : UInt64
  /-- `0` means not yet acked. -/
  exchangeOrderId : UInt64
  strategyId : UInt8
  instrumentId : InstrumentId
  side : Side
  price : Ticks
  originalQty : Lots
  filledQty : Lots
  state : OrderState
  createdAtNs : UInt64
  /-- `0` means not yet acked. -/
  ackedAtNs : UInt64
  deriving DecidableEq, Repr

namespace TrackedOrder

/-- Remaining unfilled quantity. -/
def remainingQty (o : TrackedOrder) : Lots := o.originalQty - o.filledQty

/-- True if the order is active (could still fill or needs cancellation). -/
def isActive (o : TrackedOrder) : Bool :=
  match o.state with
  | .pending | .sending | .live | .cancelPending => true
  | .filled | .cancelled | .rejected => false

/-- The states `on_intent_sent` may overwrite: `Filled`, `Cancelled`, `Rejected`. -/
def isTerminal (o : TrackedOrder) : Bool :=
  match o.state with
  | .filled | .cancelled | .rejected => true
  | _ => false

theorem isTerminal_eq_not_isActive (o : TrackedOrder) : o.isTerminal = !o.isActive := by
  unfold isTerminal isActive
  cases o.state <;> rfl

theorem isActive_congr {o o' : TrackedOrder} (h : o'.state = o.state) :
    o'.isActive = o.isActive := by
  unfold isActive
  rw [h]

end TrackedOrder

/-- Error when the tracker is at capacity. -/
inductive TrackerFullError
  | full
  deriving DecidableEq, Repr

/-- Tracks all orders for one strategy. The array length is part of the type. -/
structure OrderTracker where
  orders : List (Option TrackedOrder)
  activeCount : Nat
  length_orders : orders.length = maxTrackedOrders
  deriving DecidableEq

namespace OrderTracker

/-- An empty tracker. -/
def new : OrderTracker := ⟨List.replicate maxTrackedOrders none, 0, List.length_replicate ..⟩

/-- Write slot `j`, leaving the counter alone. -/
def setOrder (t : OrderTracker) (j : Nat) (o : TrackedOrder) : OrderTracker :=
  { t with
    orders := t.orders.set j (some o)
    length_orders := by rw [List.length_set, t.length_orders] }

/-- `find_mut`: the first slot holding this client id, with the order in it. -/
def findMut (t : OrderTracker) (clientOrderId : UInt64) : Option (Nat × TrackedOrder) :=
  Slots.find? (fun o => o.clientOrderId == clientOrderId) t.orders

/-- `can_reuse`: the slot is empty or its order is terminal. -/
def canReuse : Option TrackedOrder → Bool
  | none => true
  | some o => o.isTerminal

/-- The slot `on_intent_sent` picks: the first one that can be reused. -/
def freeSlot (t : OrderTracker) : Option Nat := t.orders.findIdx? canReuse

/-- Register a new order intent. -/
def onIntentSent (t : OrderTracker) (order : TrackedOrder) :
    OrderTracker × Except TrackerFullError Unit :=
  match t.freeSlot with
  | some j => ({ t.setOrder j order with activeCount := t.activeCount + 1 }, .ok ())
  | none => (t, .error .full)

/-- Order was acknowledged by venue. -/
def onAck (t : OrderTracker) (clientOrderId exchangeOrderId ackedAtNs : UInt64) : OrderTracker :=
  match t.findMut clientOrderId with
  | some (j, order) =>
      t.setOrder j { order with state := .live, exchangeOrderId, ackedAtNs }
  | none => t

/-- Order was rejected by venue. -/
def onReject (t : OrderTracker) (clientOrderId : UInt64) : OrderTracker :=
  match t.findMut clientOrderId with
  | some (j, order) =>
      -- `saturating_sub` on an unsigned counter is truncated subtraction
      { t.setOrder j { order with state := .rejected } with activeCount := t.activeCount - 1 }
  | none => t

/-- Partial or full fill received. -/
def onFill (t : OrderTracker) (clientOrderId : UInt64) (fillQty : Lots) : OrderTracker :=
  match t.findMut clientOrderId with
  | some (j, order) =>
      -- fills on terminal orders are ignored
      if !order.isActive then t
      else
        let filledQty := order.filledQty + fillQty
        -- clamp to `original_qty` to prevent overfill
        if filledQty ≥ order.originalQty then
          { t.setOrder j { order with filledQty := order.originalQty, state := .filled } with
            activeCount := t.activeCount - 1 }
        else t.setOrder j { order with filledQty }
  | none => t

/-- Cancel was confirmed. -/
def onCancelAck (t : OrderTracker) (clientOrderId : UInt64) : OrderTracker :=
  match t.findMut clientOrderId with
  | some (j, order) =>
      { t.setOrder j { order with state := .cancelled } with activeCount := t.activeCount - 1 }
  | none => t

/-- Lookup order by client id. -/
def get (t : OrderTracker) (clientOrderId : UInt64) : Option TrackedOrder :=
  (Slots.occupants t.orders).find? fun o => o.clientOrderId == clientOrderId

/-- The active orders, in slot order. -/
def activeOrders (t : OrderTracker) : List TrackedOrder :=
  (Slots.occupants t.orders).filter TrackedOrder.isActive

/-- Does an order count towards the open quantity of `(instrument_id, side)`? -/
def isOpenFor (instrumentId : InstrumentId) (side : Side) (o : TrackedOrder) : Bool :=
  o.isActive && o.instrumentId == instrumentId && o.side == side

/-- Total open (unfilled) quantity for an instrument and side. -/
def openQty (t : OrderTracker) (instrumentId : InstrumentId) (side : Side) : Lots :=
  (Slots.occupants t.orders).foldl
    (fun total o => if isOpenFor instrumentId side o then total + o.remainingQty else total) 0

/-! ### One callback as one slot write -/

@[simp] theorem setOrder_activeCount (t : OrderTracker) (j : Nat) (o : TrackedOrder) :
    (t.setOrder j o).activeCount = t.activeCount := rfl

@[simp] theorem setOrder_orders (t : OrderTracker) (j : Nat) (o : TrackedOrder) :
    (t.setOrder j o).orders = t.orders.set j (some o) := rfl

theorem findMut_some {t : OrderTracker} {id : UInt64} {j : Nat} {o : TrackedOrder}
    (h : t.findMut id = some (j, o)) :
    t.orders[j]? = some (some o) ∧ o.clientOrderId = id := by
  obtain ⟨hget, hid, -⟩ := Slots.find?_some h
  exact ⟨hget, by simpa using hid⟩

theorem freeSlot_some {t : OrderTracker} {j : Nat} (h : t.freeSlot = some j) :
    ∃ x, t.orders[j]? = some x ∧ canReuse x = true := by
  obtain ⟨hj, hreuse, -⟩ := List.findIdx?_eq_some_iff_getElem.mp h
  exact ⟨t.orders[j], List.getElem?_eq_getElem hj, hreuse⟩

/-! ### Callbacks as the steps of a state machine -/

/-- A callback delivered to the tracker. -/
inductive Callback
  | intentSent (order : TrackedOrder)
  | ack (clientOrderId exchangeOrderId ackedAtNs : UInt64)
  | reject (clientOrderId : UInt64)
  | fill (clientOrderId : UInt64) (fillQty : Lots)
  | cancelAck (clientOrderId : UInt64)
  deriving DecidableEq

/-- The tracker after one callback. A full tracker drops the intent unchanged. -/
def step (t : OrderTracker) : Callback → OrderTracker
  | .intentSent order => (t.onIntentSent order).1
  | .ack id exchangeId ackedAt => t.onAck id exchangeId ackedAt
  | .reject id => t.onReject id
  | .fill id qty => t.onFill id qty
  | .cancelAck id => t.onCancelAck id

/-- The client id a venue callback names; an intent names none. -/
def Callback.target : Callback → Option UInt64
  | .intentSent _ => none
  | .ack id _ _ | .reject id | .fill id _ | .cancelAck id => some id

/-- What a venue callback makes of the order it names, and whether it decrements
the active counter. -/
def Callback.effect : Callback → TrackedOrder → TrackedOrder × Bool
  | .intentSent _, o => (o, false)
  | .ack _ exchangeOrderId ackedAtNs, o =>
      ({ o with state := .live, exchangeOrderId, ackedAtNs }, false)
  | .reject _, o => ({ o with state := .rejected }, true)
  | .fill _ qty, o =>
      if o.isActive then
        if o.originalQty ≤ o.filledQty + qty then
          ({ o with filledQty := o.originalQty, state := .filled }, true)
        else ({ o with filledQty := o.filledQty + qty }, false)
      else (o, false)
  | .cancelAck _, o => ({ o with state := .cancelled }, true)

/-- A venue callback keeps the identity of the order: ids, instrument, side and size. -/
theorem effect_identity (c : Callback) (o : TrackedOrder) :
    (c.effect o).1.clientOrderId = o.clientOrderId ∧
    (c.effect o).1.instrumentId = o.instrumentId ∧
    (c.effect o).1.side = o.side ∧ (c.effect o).1.originalQty = o.originalQty := by
  cases c with
  | fill id qty =>
      simp only [Callback.effect]
      split
      · split <;> exact ⟨rfl, rfl, rfl, rfl⟩
      · exact ⟨rfl, rfl, rfl, rfl⟩
  | _ => exact ⟨rfl, rfl, rfl, rfl⟩

/-- Writing back the order a slot already holds changes nothing. -/
theorem setOrder_self {t : OrderTracker} {j : Nat} {o : TrackedOrder}
    (h : t.orders[j]? = some (some o)) : t.setOrder j o = t := by
  have hset : t.orders.set j (some o) = t.orders := by
    obtain ⟨hj, hget⟩ := List.getElem?_eq_some_iff.mp h
    rw [← hget, List.set_getElem_self]
  cases t
  simpa [setOrder] using hset

/-- A venue callback whose id is unknown is ignored. -/
theorem step_of_unknown {t : OrderTracker} {c : Callback} {id : UInt64}
    (hc : c.target = some id) (hf : t.findMut id = none) : t.step c = t := by
  cases c with
  | intentSent order => cases hc
  | ack id' ex ackedAt => cases hc; simp [step, onAck, hf]
  | reject id' => cases hc; simp [step, onReject, hf]
  | fill id' qty => cases hc; simp [step, onFill, hf]
  | cancelAck id' => cases hc; simp [step, onCancelAck, hf]

/-- **A venue callback is one slot write.** It replaces the order it names by
`c.effect` of it and decrements the counter when `c.effect` says so. -/
theorem step_of_found {t : OrderTracker} {c : Callback} {id : UInt64} {j : Nat}
    {o : TrackedOrder} (hc : c.target = some id) (hf : t.findMut id = some (j, o)) :
    t.step c = { t.setOrder j (c.effect o).1 with
      activeCount := if (c.effect o).2 then t.activeCount - 1 else t.activeCount } := by
  cases c with
  | intentSent order => cases hc
  | ack id' ex ackedAt => cases hc; simp [step, onAck, hf, Callback.effect, setOrder]
  | reject id' => cases hc; simp [step, onReject, hf, Callback.effect]
  | fill id' qty =>
      cases hc
      by_cases ha : o.isActive = true
      · by_cases hq : o.originalQty ≤ o.filledQty + qty
        · simp [step, onFill, hf, Callback.effect, ha, hq]
        · simp [step, onFill, hf, Callback.effect, ha, hq, setOrder]
      · have hself := setOrder_self (findMut_some hf).1
        simp [step, onFill, hf, Callback.effect, ha, hself]
  | cancelAck id' => cases hc; simp [step, onCancelAck, hf, Callback.effect]

/-- A write to another slot does not touch slot `j`. -/
theorem setOrder_getElem?_ne {t : OrderTracker} {j k : Nat} (hkj : k ≠ j) (o : TrackedOrder) :
    (t.setOrder k o).orders[j]? = t.orders[j]? := List.getElem?_set_ne hkj

theorem setOrder_getElem?_self {t : OrderTracker} {j : Nat} {x : Option TrackedOrder}
    (hx : t.orders[j]? = some x) (o : TrackedOrder) :
    (t.setOrder j o).orders[j]? = some (some o) :=
  List.getElem?_set_self (List.getElem?_eq_some_iff.mp hx).1

/-- The slot after a venue callback on the order it found. -/
theorem step_getElem? {t : OrderTracker} {c : Callback} {id : UInt64} {k : Nat}
    {o : TrackedOrder} (hc : c.target = some id) (hf : t.findMut id = some (k, o)) (j : Nat) :
    (t.step c).orders[j]? = if k = j then some (some (c.effect o).1) else t.orders[j]? := by
  rw [step_of_found hc hf]
  by_cases hkj : k = j
  · subst hkj
    rw [if_pos rfl]
    exact setOrder_getElem?_self (findMut_some hf).1 _
  · rw [if_neg hkj]
    exact setOrder_getElem?_ne hkj _

/-- An intent takes the first reusable slot, or is refused when there is none. -/
theorem step_intentSent (t : OrderTracker) (order : TrackedOrder) :
    (∃ j x, t.freeSlot = some j ∧ t.orders[j]? = some x ∧ canReuse x = true ∧
      t.step (.intentSent order) =
        { t.setOrder j order with activeCount := t.activeCount + 1 }) ∨
    (t.freeSlot = none ∧ t.step (.intentSent order) = t) := by
  cases hf : t.freeSlot with
  | none => exact .inr ⟨rfl, by simp [step, onIntentSent, hf]⟩
  | some j =>
      obtain ⟨x, hx, hreuse⟩ := freeSlot_some hf
      exact .inl ⟨j, x, rfl, hx, hreuse, by simp [step, onIntentSent, hf]⟩

end OrderTracker

end Mantis
