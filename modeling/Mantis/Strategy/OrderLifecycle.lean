import Mantis.Strategy.OrderTracker

/-!
# Mantis.Strategy.OrderLifecycle

Whole runs of an `OrderTracker`: the hand-maintained counter against the derived
one, and the finality of terminal states.

`on_fill` ignores an order that is no longer active; `on_ack`, `on_reject` and
`on_cancel_ack` do not look. A late acknowledgement therefore revives a finished
order, and a late rejection or cancel confirmation moves it to another terminal
state and decrements the counter a second time. Both results below are stated as
the **exact** condition on the steps of a run under which the tracker behaves.
-/

namespace Mantis

namespace OrderTracker

open Runs

/-! ### The active counter -/

/-- The counter agrees with the number of orders `active_orders` yields. -/
def ActiveCountExact (t : OrderTracker) : Prop := t.activeCount = t.activeOrders.length

/-- Orders are registered in an active state. -/
def RegistersActive : Callback → Prop
  | .intentSent order => order.isActive = true
  | _ => True

/-- The callbacks that keep the counter exact. An acknowledgement must not name a
terminal order; a rejection or cancel confirmation may do so only while no order is
active at all, where the saturating decrement is absorbed at zero. -/
def KeepsCount (t : OrderTracker) : Callback → Prop
  | .ack id _ _ => ∀ j o, t.findMut id = some (j, o) → o.isActive = true
  | .reject id | .cancelAck id =>
      ∀ j o, t.findMut id = some (j, o) → o.isActive = true ∨ t.activeOrders = []
  | .intentSent _ | .fill _ _ => True

/-- One order's contribution to the number of active orders. -/
def activeWeight (o : TrackedOrder) : Nat := if o.isActive then 1 else 0

theorem length_activeOrders (t : OrderTracker) :
    t.activeOrders.length = Slots.total activeWeight t.orders := by
  unfold activeOrders activeWeight
  rw [Slots.total_countP, List.countP_eq_length_filter]

/-- Writing a slot exchanges one contribution for another. -/
theorem length_activeOrders_setOrder {t : OrderTracker} {j : Nat} {x : Option TrackedOrder}
    (hx : t.orders[j]? = some x) (o : TrackedOrder) :
    (t.setOrder j o).activeOrders.length + Slots.slotWeight activeWeight x =
      t.activeOrders.length + activeWeight o := by
  rw [length_activeOrders, length_activeOrders]
  exact Slots.total_set activeWeight hx (some o)

/-- An active order in some slot makes the number of active orders positive. -/
theorem activeOrders_pos {t : OrderTracker} {j : Nat} {o : TrackedOrder}
    (ho : t.orders[j]? = some (some o)) (ha : o.isActive = true) :
    0 < t.activeOrders.length := by
  refine List.length_pos_of_mem (a := o) (List.mem_filter.mpr ⟨?_, ha⟩)
  exact Slots.mem_occupants_iff_getElem?.mpr ⟨j, ho⟩

/-- The number of active orders after a venue callback on the order it found. -/
theorem length_activeOrders_step {t : OrderTracker} {c : Callback} {id : UInt64} {j : Nat}
    {o : TrackedOrder} (hc : c.target = some id) (hf : t.findMut id = some (j, o)) :
    (t.step c).activeOrders.length + activeWeight o =
      t.activeOrders.length + activeWeight (c.effect o).1 := by
  have hlen := length_activeOrders_setOrder (findMut_some hf).1 (c.effect o).1
  rw [step_of_found hc hf]
  exact hlen

/-- A callback that ends the order it names and decrements the counter keeps the
counter exact just when that order was active or nothing was. -/
theorem exact_terminate_iff {t : OrderTracker} {c : Callback} {id : UInt64} {j : Nat}
    {o : TrackedOrder} (hc : c.target = some id) (hf : t.findMut id = some (j, o))
    (hend : (c.effect o).1.isActive = false) (hdec : (c.effect o).2 = true)
    (h : t.ActiveCountExact) :
    (t.step c).ActiveCountExact ↔ o.isActive = true ∨ t.activeOrders = [] := by
  have hlen := length_activeOrders_step hc hf
  have hcount : (t.step c).activeCount = t.activeCount - 1 := by
    rw [step_of_found hc hf, hdec]
    rfl
  have hw : activeWeight (c.effect o).1 = 0 := by simp [activeWeight, hend]
  unfold ActiveCountExact at h ⊢
  rw [hcount, ← List.length_eq_zero_iff]
  by_cases ha : o.isActive = true
  · have hpos := activeOrders_pos (findMut_some hf).1 ha
    have hwo : activeWeight o = 1 := by simp [activeWeight, ha]
    simp only [ha, true_or, iff_true]
    omega
  · have hwo : activeWeight o = 0 := by simp [activeWeight, ha]
    simp only [ha, Bool.false_eq_true, false_or]
    omega

/-- A callback that leaves the counter alone keeps it exact just when the order's
activity is unchanged. -/
theorem exact_keep_iff {t : OrderTracker} {c : Callback} {id : UInt64} {j : Nat}
    {o : TrackedOrder} (hc : c.target = some id) (hf : t.findMut id = some (j, o))
    (hdec : (c.effect o).2 = false) (h : t.ActiveCountExact) :
    (t.step c).ActiveCountExact ↔ (c.effect o).1.isActive = o.isActive := by
  have hlen := length_activeOrders_step hc hf
  have hcount : (t.step c).activeCount = t.activeCount := by
    rw [step_of_found hc hf, hdec]
    rfl
  unfold ActiveCountExact at h ⊢
  rw [hcount]
  unfold activeWeight at hlen
  cases ho : o.isActive <;> cases ho' : (c.effect o).1.isActive <;> simp [ho, ho'] at hlen ⊢ <;>
    omega

/-- An intent in an active state takes a slot that held no active order. -/
theorem exact_intentSent {t : OrderTracker} {order : TrackedOrder} (ha : order.isActive = true)
    (h : t.ActiveCountExact) : (t.step (.intentSent order)).ActiveCountExact := by
  rcases step_intentSent t order with ⟨j, x, -, hx, hreuse, hs⟩ | ⟨-, hs⟩
  · rw [hs]
    have hlen := length_activeOrders_setOrder hx order
    have hwx : Slots.slotWeight activeWeight x = 0 := by
      cases x with
      | none => rfl
      | some o =>
          have hterm : o.isTerminal = true := hreuse
          rw [TrackedOrder.isTerminal_eq_not_isActive, Bool.not_eq_true'] at hterm
          simp [Slots.slotWeight, activeWeight, hterm]
    have hwo : activeWeight order = 1 := by simp [activeWeight, ha]
    show t.activeCount + 1 = (t.setOrder j order).activeOrders.length
    unfold ActiveCountExact at h
    omega
  · rw [hs]
    exact h

/-- A venue callback that finds no order satisfies any condition on the order found. -/
theorem forall_found_of_unknown {t : OrderTracker} {id : UInt64} (hf : t.findMut id = none)
    {q : Nat → TrackedOrder → Prop} : ∀ j o, t.findMut id = some (j, o) → q j o := by
  intro j o hfound
  rw [hf] at hfound
  cases hfound

theorem forall_found_iff {t : OrderTracker} {id : UInt64} {j : Nat} {o : TrackedOrder}
    (hf : t.findMut id = some (j, o)) {q : Nat → TrackedOrder → Prop} :
    (∀ j' o', t.findMut id = some (j', o') → q j' o') ↔ q j o := by
  rw [hf]
  constructor
  · intro h
    exact h j o rfl
  · intro h j' o' heq
    cases heq
    exact h

/-- The rejections and cancel confirmations: whatever order such a callback finds is
ended and counted out, guarded by nothing. -/
theorem exact_end_iff {t : OrderTracker} {c : Callback} {id : UInt64} (hc : c.target = some id)
    (hend : ∀ o, (c.effect o).1.isActive = false) (hdec : ∀ o, (c.effect o).2 = true)
    (h : t.ActiveCountExact) :
    (t.step c).ActiveCountExact ↔
      ∀ j o, t.findMut id = some (j, o) → o.isActive = true ∨ t.activeOrders = [] := by
  cases hf : t.findMut id with
  | none =>
      rw [step_of_unknown hc hf, ← hf]
      exact iff_of_true h (forall_found_of_unknown hf)
  | some q =>
      rw [exact_terminate_iff hc hf (hend q.2) (hdec q.2) h, ← hf, forall_found_iff hf]

/-- An exact counter stays exact through a callback exactly when it keeps the count. -/
theorem exact_step_iff {t : OrderTracker} {c : Callback} (hc : RegistersActive c)
    (h : t.ActiveCountExact) : (t.step c).ActiveCountExact ↔ t.KeepsCount c := by
  cases c with
  | intentSent order => exact iff_of_true (exact_intentSent hc h) trivial
  | ack id ex ackedAt =>
      cases hf : t.findMut id with
      | none =>
          rw [step_of_unknown (c := .ack id ex ackedAt) rfl hf]
          exact iff_of_true h (forall_found_of_unknown hf)
      | some q =>
          rw [exact_keep_iff (c := .ack id ex ackedAt) rfl hf rfl h]
          show true = q.2.isActive ↔ ∀ j o, t.findMut id = some (j, o) → o.isActive = true
          rw [forall_found_iff hf, eq_comm]
  | reject id => exact exact_end_iff (c := .reject id) rfl (fun _ => rfl) (fun _ => rfl) h
  | fill id qty =>
      -- the guard on `is_active` and the decrement go together, so a fill never drifts
      refine iff_of_true ?_ trivial
      cases hf : t.findMut id with
      | none =>
          rw [step_of_unknown (c := .fill id qty) rfl hf]
          exact h
      | some q =>
          obtain ⟨j, o⟩ := q
          by_cases ha : o.isActive = true
          · by_cases hq : o.originalQty ≤ o.filledQty + qty
            · refine (exact_terminate_iff (c := .fill id qty) rfl hf ?_ ?_ h).mpr (.inl ha)
              · simp only [Callback.effect, ha, hq, if_true]
                rfl
              · simp [Callback.effect, ha, hq]
            · refine (exact_keep_iff (c := .fill id qty) rfl hf ?_ h).mpr ?_
              · simp [Callback.effect, ha, hq]
              · simp only [Callback.effect, ha, hq, if_true, if_false]
                exact (TrackedOrder.isActive_congr rfl).trans ha
          · refine (exact_keep_iff (c := .fill id qty) rfl hf ?_ h).mpr ?_
            · simp [Callback.effect, ha]
            · simp [Callback.effect, ha]
  | cancelAck id => exact exact_end_iff (c := .cancelAck id) rfl (fun _ => rfl) (fun _ => rfl) h

theorem exact_new : new.ActiveCountExact := by
  unfold ActiveCountExact activeOrders new
  rw [Slots.occupants_replicate_none]
  rfl

/-- **The active counter over whole runs.** From an empty tracker, in any run that
registers its orders active, the counter equals the number of active orders in every
state reached if and only if every step keeps the count. -/
theorem activeCount_exact_iff (cs : List Callback) (hcs : ∀ c ∈ cs, RegistersActive c) :
    Always step ActiveCountExact new cs ↔ AllSteps step KeepsCount new cs :=
  have hvalid : AllSteps step (fun _ c => RegistersActive c) new cs := allSteps_of_forall hcs new
  always_iff_allSteps (J := fun _ => True) (fun _ _ _ _ => trivial)
    (fun _ _ _ hc h => exact_step_iff hc h) trivial exact_new hvalid

/-- The venue order the tracker's own tests use: 100 lots bid at 650 ticks. -/
def sampleOrder (clientOrderId : UInt64) : TrackedOrder where
  clientOrderId := clientOrderId
  exchangeOrderId := 0
  strategyId := 0
  instrumentId := 1
  side := .bid
  price := 650
  originalQty := 100
  filledQty := 0
  state := .pending
  createdAtNs := 1000
  ackedAtNs := 0

/-- An order that fills before its acknowledgement arrives. -/
def lateAckRun : List Callback := [.intentSent (sampleOrder 1), .fill 1 100, .ack 1 42 999]

/-- The late acknowledgement leaves one active order and a counter at zero. -/
theorem activeCount_drifts :
    (∀ c ∈ lateAckRun, RegistersActive c) ∧
      (run step new lateAckRun).activeCount = 0 ∧
      (run step new lateAckRun).activeOrders.length = 1 ∧
      ¬ (run step new lateAckRun).ActiveCountExact := by
  refine ⟨?_, by decide, by decide, by unfold ActiveCountExact; decide⟩
  intro c hc
  simp only [lateAckRun, List.mem_cons, List.not_mem_nil, or_false] at hc
  rcases hc with rfl | rfl | rfl
  · rfl
  · trivial
  · trivial

/-- An acknowledged, filled and settled order runs with an exact counter throughout. -/
theorem activeCount_exact_on_plain_run :
    (∀ c ∈ [Callback.intentSent (sampleOrder 1), .ack 1 42 999, .fill 1 100],
        RegistersActive c) ∧
      (Always step ActiveCountExact new
          [Callback.intentSent (sampleOrder 1), .ack 1 42 999, .fill 1 100] ↔
        AllSteps step KeepsCount new
          [Callback.intentSent (sampleOrder 1), .ack 1 42 999, .fill 1 100]) := by
  have hreg : ∀ c ∈ [Callback.intentSent (sampleOrder 1), .ack 1 42 999, .fill 1 100],
      RegistersActive c := by
    intro c hc
    simp only [List.mem_cons, List.not_mem_nil, or_false] at hc
    rcases hc with rfl | rfl | rfl
    · rfl
    · trivial
    · trivial
  exact ⟨hreg, activeCount_exact_iff _ hreg⟩

/-! ### Terminal states -/

/-- Empty slot `j`. -/
def vacate (t : OrderTracker) (j : Nat) : OrderTracker :=
  { t with
    orders := t.orders.set j none
    length_orders := by rw [List.length_set, t.length_orders] }

/-- Slot `j` still holds `o` in its terminal state with its filled quantity: it is
not among the active orders, and emptying the slot would change no open quantity. -/
def Settled (j : Nat) (o : TrackedOrder) (t : OrderTracker) : Prop :=
  ∃ o', t.orders[j]? = some (some o') ∧ o'.state = o.state ∧ o'.filledQty = o.filledQty ∧
    o' ∉ t.activeOrders ∧ ∀ i s, t.openQty i s = (t.vacate j).openQty i s

/-- No intent reuses slot `j`. -/
def KeepsSlot (j : Nat) (t : OrderTracker) : Callback → Prop
  | .intentSent _ => t.freeSlot ≠ some j
  | _ => True

/-- The callbacks a terminal order `o` in slot `j` survives: no acknowledgement may
resolve to it, and a rejection or a cancel confirmation only if `o` already is
rejected, respectively cancelled. Fills are harmless. -/
def SparesTerminal (j : Nat) (o : TrackedOrder) (t : OrderTracker) : Callback → Prop
  | .ack id _ _ => ∀ o', t.findMut id ≠ some (j, o')
  | .reject id => ∀ o', t.findMut id = some (j, o') → o.state = .rejected
  | .cancelAck id => ∀ o', t.findMut id = some (j, o') → o.state = .cancelled
  | .intentSent _ | .fill _ _ => True

/-- Summing the remaining quantity over the orders kept by `isOpenFor`. -/
theorem openQty_eq_foldl_filter (t : OrderTracker) (i : InstrumentId) (s : Side) :
    t.openQty i s = ((Slots.occupants t.orders).filter (isOpenFor i s)).foldl
      (fun total o => total + o.remainingQty) 0 := by
  unfold openQty
  rw [List.foldl_filter]

/-- An inactive order contributes to no open quantity. -/
theorem openQty_vacate {t : OrderTracker} {j : Nat} {o : TrackedOrder}
    (ho : t.orders[j]? = some (some o)) (ha : o.isActive = false) (i : InstrumentId) (s : Side) :
    (t.vacate j).openQty i s = t.openQty i s := by
  rw [openQty_eq_foldl_filter, openQty_eq_foldl_filter]
  congr 1
  exact Slots.filter_occupants_set_none ho (by simp [isOpenFor, ha])

/-- For a terminal order, being settled only means keeping state and filled quantity. -/
theorem settled_iff {j : Nat} {o : TrackedOrder} (hterm : o.isTerminal = true)
    (t : OrderTracker) :
    Settled j o t ↔
      ∃ o', t.orders[j]? = some (some o') ∧ o'.state = o.state ∧ o'.filledQty = o.filledQty := by
  constructor
  · rintro ⟨o', ho', hs, hq, -, -⟩
    exact ⟨o', ho', hs, hq⟩
  · rintro ⟨o', ho', hs, hq⟩
    have ha : o'.isActive = false := by
      rw [TrackedOrder.isActive_congr hs]
      simpa [TrackedOrder.isTerminal_eq_not_isActive] using hterm
    refine ⟨o', ho', hs, hq, ?_, fun i s => (openQty_vacate ho' ha i s).symm⟩
    intro hmem
    rw [(List.mem_filter.mp hmem).2] at ha
    exact absurd ha (by decide)

/-- A settled order stays settled through a venue callback that found it exactly
when the callback leaves its state and filled quantity alone. -/
theorem settled_step_found_iff {t : OrderTracker} {c : Callback} {id : UInt64} {j : Nat}
    {o o' : TrackedOrder} (hterm : o.isTerminal = true) (hc : c.target = some id)
    (hf : t.findMut id = some (j, o')) :
    Settled j o (t.step c) ↔
      (c.effect o').1.state = o.state ∧ (c.effect o').1.filledQty = o.filledQty := by
  rw [settled_iff hterm, step_getElem? hc hf, if_pos rfl]
  constructor
  · rintro ⟨o'', heq, hs, hq⟩
    cases heq
    exact ⟨hs, hq⟩
  · rintro ⟨hs, hq⟩
    exact ⟨_, rfl, hs, hq⟩

/-- A settled order is untouched by a venue callback that found another slot, or none. -/
theorem settled_step_elsewhere {t : OrderTracker} {c : Callback} {id : UInt64} {j : Nat}
    {o : TrackedOrder} (hterm : o.isTerminal = true) (hc : c.target = some id)
    (helse : ∀ o', t.findMut id ≠ some (j, o')) (h : Settled j o t) : Settled j o (t.step c) := by
  cases hf : t.findMut id with
  | none =>
      rw [step_of_unknown hc hf]
      exact h
  | some q =>
      obtain ⟨k, o'⟩ := q
      have hkj : k ≠ j := by
        rintro rfl
        exact helse o' hf
      rw [settled_iff hterm] at h ⊢
      rw [step_getElem? hc hf, if_neg hkj]
      exact h

/-- What a callback finds in the slot of a settled order is that order. -/
theorem Settled.found {t : OrderTracker} {id : UInt64} {j : Nat} {o o' : TrackedOrder}
    (h : Settled j o t) (hf : t.findMut id = some (j, o')) :
    o'.state = o.state ∧ o'.filledQty = o.filledQty := by
  obtain ⟨cur, hcur, hstate, hfilled, -⟩ := h
  have hget := (findMut_some hf).1
  rw [hcur] at hget
  cases hget
  exact ⟨hstate, hfilled⟩

/-- The rejections and cancel confirmations: such a callback moves whatever order it
finds to the state `final`, and a settled order survives it only in that state. -/
theorem settled_end_iff {t : OrderTracker} {c : Callback} {id : UInt64} {j : Nat}
    {o : TrackedOrder} {final : OrderState} (hterm : o.isTerminal = true)
    (hc : c.target = some id)
    (hend : ∀ o, (c.effect o).1.state = final ∧ (c.effect o).1.filledQty = o.filledQty)
    (h : Settled j o t) :
    Settled j o (t.step c) ↔ ∀ o', t.findMut id = some (j, o') → o.state = final := by
  by_cases hex : ∃ o', t.findMut id = some (j, o')
  · obtain ⟨o', hf⟩ := hex
    rw [settled_step_found_iff hterm hc hf, (hend o').1, (hend o').2]
    constructor
    · intro hsame o'' _
      exact hsame.1.symm
    · intro hspare
      exact ⟨(hspare o' hf).symm, (h.found hf).2⟩
  · have helse : ∀ o', t.findMut id ≠ some (j, o') := fun o' hf => hex ⟨o', hf⟩
    exact iff_of_true (settled_step_elsewhere hterm hc helse h)
      (fun o' hf => absurd hf (helse o'))

/-- A settled order stays settled through a callback exactly when the callback
spares it. -/
theorem settled_step_iff {t : OrderTracker} {c : Callback} {j : Nat} {o : TrackedOrder}
    (hterm : o.isTerminal = true) (hkeep : KeepsSlot j t c) (h : Settled j o t) :
    Settled j o (t.step c) ↔ SparesTerminal j o t c := by
  obtain ⟨cur, hcur, hstate, hfilled⟩ := (settled_iff hterm t).mp h
  cases c with
  | intentSent order =>
      refine iff_of_true ?_ trivial
      rcases step_intentSent t order with ⟨k, x, hk, -, -, hs⟩ | ⟨-, hs⟩
      · have hkj : k ≠ j := by
          rintro rfl
          exact hkeep hk
        rw [hs, settled_iff hterm]
        exact ⟨cur, (setOrder_getElem?_ne hkj order).trans hcur, hstate, hfilled⟩
      · rw [hs]
        exact h
  | ack id ex ackedAt =>
      by_cases hex : ∃ o', t.findMut id = some (j, o')
      · -- acknowledged: the order comes back to life as `Live`
        obtain ⟨o', hf⟩ := hex
        rw [settled_step_found_iff (c := .ack id ex ackedAt) hterm rfl hf]
        refine iff_of_false ?_ (fun hspare => hspare o' hf)
        rintro ⟨hlive, -⟩
        simp only [Callback.effect] at hlive
        simp [TrackedOrder.isTerminal, ← hlive] at hterm
      · have helse : ∀ o', t.findMut id ≠ some (j, o') := fun o' hf => hex ⟨o', hf⟩
        exact iff_of_true (settled_step_elsewhere (c := .ack id ex ackedAt) hterm rfl helse h) helse
  | reject id =>
      exact settled_end_iff (c := .reject id) hterm rfl (fun _ => ⟨rfl, rfl⟩) h
  | fill id qty =>
      refine iff_of_true ?_ trivial
      by_cases hex : ∃ o', t.findMut id = some (j, o')
      · obtain ⟨o', hf⟩ := hex
        obtain ⟨hsame, hqty⟩ := h.found hf
        have hinactive : o'.isActive = false := by
          rw [TrackedOrder.isActive_congr hsame]
          simpa [TrackedOrder.isTerminal_eq_not_isActive] using hterm
        rw [settled_step_found_iff (c := .fill id qty) hterm rfl hf]
        simp [Callback.effect, hinactive, hsame, hqty]
      · have helse : ∀ o', t.findMut id ≠ some (j, o') := fun o' hf => hex ⟨o', hf⟩
        exact settled_step_elsewhere (c := .fill id qty) hterm rfl helse h
  | cancelAck id =>
      exact settled_end_iff (c := .cancelAck id) hterm rfl (fun _ => ⟨rfl, rfl⟩) h

/-- **Finality of terminal states over whole runs.** From any tracker holding a
terminal order in slot `j`, through any callbacks that do not reuse the slot, the
order keeps its state and filled quantity (and so stays out of `active_orders` and
`open_qty`) in every state reached if and only if every callback spares it. -/
theorem terminal_final_iff (t : OrderTracker) (j : Nat) (o : TrackedOrder)
    (ho : t.orders[j]? = some (some o)) (hterm : o.isTerminal = true) (cs : List Callback)
    (hkeep : AllSteps step (KeepsSlot j) t cs) :
    Always step (Settled j o) t cs ↔ AllSteps step (SparesTerminal j o) t cs :=
  always_iff_allSteps (J := fun _ => True) (fun _ _ _ _ => trivial)
    (fun _ _ _ hk h => settled_step_iff hterm hk h) trivial
    ((settled_iff hterm t).mpr ⟨o, ho, rfl, rfl⟩) hkeep

/-- A filled order, acknowledged late, is live again: its state has changed and it is
back among the active orders. -/
theorem filled_order_revived :
    ∃ o, (run step new [.intentSent (sampleOrder 1), .fill 1 100]).orders[0]? = some (some o) ∧
      o.state = .filled ∧
      ∃ o', (run step new lateAckRun).orders[0]? = some (some o') ∧ o'.state = .live ∧
        o' ∈ (run step new lateAckRun).activeOrders := by
  refine ⟨_, rfl, rfl, _, rfl, rfl, by decide⟩

/-- A filled order shrugs off a late fill and a rejection meant for another order. -/
theorem terminal_final_on_late_fill :
    Always step
      (Settled 0 { sampleOrder 1 with filledQty := 100, state := .filled })
      (run step new [.intentSent (sampleOrder 1), .fill 1 100]) [.fill 1 7, .reject 2] := by
  have hunknown : ((run step new [.intentSent (sampleOrder 1), .fill 1 100]).step
      (.fill 1 7)).findMut 2 = none := by decide
  refine (terminal_final_iff (run step new [.intentSent (sampleOrder 1), .fill 1 100]) 0 _ rfl rfl
    [.fill 1 7, .reject 2] ⟨trivial, trivial, trivial⟩).mpr ⟨trivial, ?_, trivial⟩
  intro o' hf
  rw [hunknown] at hf
  cases hf

end OrderTracker

end Mantis
