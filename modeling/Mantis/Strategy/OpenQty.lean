import Mantis.Strategy.OrderLifecycle

/-!
# Mantis.Strategy.OpenQty

Fill accounting in an `OrderTracker` (`crates/strategy/src/order_tracker.rs`): how
`on_fill` moves the filled quantity of an order and the open quantity of its instrument
and side.

The open quantity is never stored. `open_qty` sums what remains of the active orders over
all slots, so a callback changes it by exchanging the contribution of one slot
(`exactOpen_step`), and everything about it follows from what the callback does to one
order. `fills_accounted` states it for every run of callbacks.
-/

namespace Mantis

/-! ### Exact open quantity -/

namespace OrderTracker

/-- Remaining quantity of an order as an integer. -/
def exactRemaining (o : TrackedOrder) : Int := o.originalQty.toInt - o.filledQty.toInt

/-- One order's contribution to the open quantity of an instrument and side. -/
def openWeight (i : InstrumentId) (s : Side) (o : TrackedOrder) : Int :=
  if isOpenFor i s o then exactRemaining o else 0

/-- The open quantity as an exact integer. -/
def exactOpen (t : OrderTracker) (i : InstrumentId) (s : Side) : Int :=
  Slots.total (openWeight i s) t.orders

/-- The machine sum is the exact one, reduced to 64 bits. -/
theorem openQty_eq_ofInt (t : OrderTracker) (i : InstrumentId) (s : Side) :
    t.openQty i s = Int64.ofInt (t.exactOpen i s) := by
  have hremaining : ∀ o : TrackedOrder, o.remainingQty = Int64.ofInt (exactRemaining o) := by
    intro o
    simp [TrackedOrder.remainingQty, exactRemaining]
  have hfold : ∀ (os : List TrackedOrder) (a : Int64),
      os.foldl (fun total o => if isOpenFor i s o then total + o.remainingQty else total) a =
        Int64.ofInt (a.toInt + (os.map (openWeight i s)).sum) := by
    intro os
    induction os with
    | nil => intro a; simp
    | cons o os ih =>
        intro a
        rw [List.foldl_cons, ih, List.map_cons, List.sum_cons]
        by_cases ho : isOpenFor i s o = true
        · simp only [ho, if_true, openWeight, hremaining, Int64.ofInt_add, Int64.ofInt_toInt,
            Int64.add_assoc]
        · simp [ho, openWeight]
  rw [openQty, hfold, Int64.toInt_zero, zero_add]
  rfl

/-- Distinct slots hold orders with distinct client ids. -/
def DistinctIds (t : OrderTracker) : Prop :=
  ∀ (j k : Nat) (o o' : TrackedOrder), t.orders[j]? = some (some o) →
    t.orders[k]? = some (some o') → o.clientOrderId = o'.clientOrderId → j = k

/-- Every order satisfies `0 ≤ filled_qty ≤ original_qty`. -/
def FilledWithin (t : OrderTracker) : Prop :=
  ∀ o ∈ Slots.occupants t.orders,
    0 ≤ o.filledQty.toInt ∧ o.filledQty.toInt ≤ o.originalQty.toInt

theorem openWeight_nonneg {t : OrderTracker} (h : t.FilledWithin) (i : InstrumentId) (s : Side) :
    ∀ o ∈ Slots.occupants t.orders, 0 ≤ openWeight i s o := by
  intro o ho
  have hfilled := h o ho
  unfold openWeight exactRemaining
  split <;> omega

theorem exactOpen_nonneg {t : OrderTracker} (h : t.FilledWithin) (i : InstrumentId) (s : Side) :
    0 ≤ t.exactOpen i s := Slots.total_nonneg (openWeight_nonneg h i s)

/-- A venue callback exchanges the contribution of the order it found. -/
theorem exactOpen_step {t : OrderTracker} {c : Callback} {id : UInt64} {j : Nat}
    {o : TrackedOrder} (hc : c.target = some id) (hf : t.findMut id = some (j, o))
    (i : InstrumentId) (s : Side) :
    (t.step c).exactOpen i s + openWeight i s o =
      t.exactOpen i s + openWeight i s (c.effect o).1 := by
  rw [step_of_found hc hf]
  exact Slots.total_set (openWeight i s) (findMut_some hf).1 (some (c.effect o).1)

/-- The orders after a venue callback: the one it changed, and old ones. -/
theorem mem_occupants_step {t : OrderTracker} {c : Callback} {id : UInt64} {j : Nat}
    {o o' : TrackedOrder} (hc : c.target = some id) (hf : t.findMut id = some (j, o))
    (ho' : o' ∈ Slots.occupants (t.step c).orders) :
    o' = (c.effect o).1 ∨ o' ∈ Slots.occupants t.orders := by
  obtain ⟨k, hk⟩ := Slots.mem_occupants_iff_getElem?.mp ho'
  rw [step_getElem? hc hf] at hk
  split at hk
  · cases hk
    exact Or.inl rfl
  · exact Or.inr (Slots.mem_occupants_iff_getElem?.mpr ⟨k, hk⟩)

/-- Venue callbacks never change a client id. -/
theorem DistinctIds.step {t : OrderTracker} {c : Callback} {id : UInt64} {j : Nat}
    {o : TrackedOrder} (h : t.DistinctIds) (hc : c.target = some id)
    (hf : t.findMut id = some (j, o)) : (t.step c).DistinctIds := by
  have hold := (findMut_some hf).1
  have hsame := (effect_identity c o).1
  -- pull a slot of the new tracker back to the old one, with its client id
  have back : ∀ (k : Nat) (x : TrackedOrder), (t.step c).orders[k]? = some (some x) →
      ∃ y, t.orders[k]? = some (some y) ∧ y.clientOrderId = x.clientOrderId := by
    intro k x hx
    rw [step_getElem? hc hf] at hx
    split at hx
    · next hjk =>
        cases hx
        subst hjk
        exact ⟨o, hold, hsame.symm⟩
    · exact ⟨x, hx, rfl⟩
  intro k l x x' hx hx' hid
  obtain ⟨y, hy, hyx⟩ := back k x hx
  obtain ⟨y', hy', hyx'⟩ := back l x' hx'
  exact h k l y y' hy hy' (hyx.trans (hid.trans hyx'.symm))

/-! ### What a fill does to one order -/

section
variable {o : TrackedOrder} {id : UInt64} {qty : Lots}

theorem isOpenFor_of_active (ha : o.isActive = true) (i : InstrumentId) (s : Side) :
    isOpenFor i s o = true ↔ o.instrumentId = i ∧ o.side = s := by
  simp [isOpenFor, ha]

/-- A fill within the remaining quantity cannot overflow. -/
theorem fits_filled_add (hq : 0 ≤ qty.toInt ∧ qty.toInt ≤ exactRemaining o) :
    I64.Fits (o.filledQty.toInt + qty.toInt) := by
  unfold exactRemaining at hq
  refine I64.Fits.of_le (I64.fits_toInt o.filledQty) (I64.fits_toInt o.originalQty) ?_ ?_ <;> omega

/-- A fill is clamped to what remains, and ends the order when it covers that. -/
theorem filledQty_fill (id : UInt64) (ha : o.isActive = true)
    (hfits : I64.Fits (o.filledQty.toInt + qty.toInt)) :
    ((Callback.fill id qty).effect o).1.filledQty.toInt =
        o.filledQty.toInt + min qty.toInt (exactRemaining o) ∧
      ((Callback.fill id qty).effect o).1.state =
        if exactRemaining o ≤ qty.toInt then .filled else o.state := by
  have hadd := I64.toInt_add hfits
  have hcovers : o.originalQty ≤ o.filledQty + qty ↔ exactRemaining o ≤ qty.toInt := by
    rw [Int64.le_iff_toInt_le, hadd, exactRemaining]
    omega
  simp only [Callback.effect, ha, if_true]
  by_cases hfull : exactRemaining o ≤ qty.toInt
  · rw [if_pos (hcovers.mpr hfull), if_pos hfull]
    refine ⟨?_, rfl⟩
    show o.originalQty.toInt = _
    rw [min_eq_right hfull, exactRemaining]
    omega
  · rw [if_neg (mt hcovers.mp hfull), if_neg hfull]
    refine ⟨?_, rfl⟩
    rw [min_eq_left (by omega)]
    exact hadd

theorem exactRemaining_fill (id : UInt64) (ha : o.isActive = true)
    (hfits : I64.Fits (o.filledQty.toInt + qty.toInt)) :
    exactRemaining ((Callback.fill id qty).effect o).1 =
      exactRemaining o - min qty.toInt (exactRemaining o) := by
  have hfilled := (filledQty_fill id ha hfits).1
  have hsize := (effect_identity (.fill id qty) o).2.2.2
  rw [exactRemaining, hfilled, hsize]
  unfold exactRemaining
  omega

theorem filled_fill (id : UInt64) (ha : o.isActive = true)
    (ho : 0 ≤ o.filledQty.toInt ∧ o.filledQty.toInt ≤ o.originalQty.toInt) (hq : 0 ≤ qty.toInt)
    (hfits : I64.Fits (o.filledQty.toInt + qty.toInt)) :
    0 ≤ ((Callback.fill id qty).effect o).1.filledQty.toInt ∧
      ((Callback.fill id qty).effect o).1.filledQty.toInt ≤
        ((Callback.fill id qty).effect o).1.originalQty.toInt := by
  have hfilled := (filledQty_fill id ha hfits).1
  have hsize := (effect_identity (.fill id qty) o).2.2.2
  rw [hfilled, hsize]
  unfold exactRemaining
  omega

theorem openWeight_fill (id : UInt64) (ha : o.isActive = true)
    (hfits : I64.Fits (o.filledQty.toInt + qty.toInt)) (i : InstrumentId) (s : Side) :
    openWeight i s ((Callback.fill id qty).effect o).1 =
      openWeight i s o -
        if o.instrumentId = i ∧ o.side = s then min qty.toInt (exactRemaining o) else 0 := by
  have hrem := exactRemaining_fill id ha hfits
  obtain ⟨-, hinst, hside, -⟩ := effect_identity (.fill id qty) o
  by_cases hkey : o.instrumentId = i ∧ o.side = s
  · have hopen : isOpenFor i s o = true := (isOpenFor_of_active ha i s).mpr hkey
    rw [if_pos hkey]
    unfold openWeight
    rw [if_pos hopen]
    by_cases hact : ((Callback.fill id qty).effect o).1.isActive = true
    · rw [if_pos ((isOpenFor_of_active hact i s).mpr ⟨hinst.trans hkey.1, hside.trans hkey.2⟩), hrem]
    · -- the order was completed: nothing remained beyond the fill
      rw [if_neg (by simp [isOpenFor, hact]), ← hrem]
      simp only [Callback.effect, ha, if_true] at hact ⊢
      split at hact
      · next hfull => rw [if_pos hfull]; simp [exactRemaining]
      · next hfull => exact absurd ((TrackedOrder.isActive_congr rfl).trans ha) hact
  · have hclosed : ∀ x : TrackedOrder, x.instrumentId = o.instrumentId → x.side = o.side →
        openWeight i s x = 0 := by
      intro x hxi hxs
      refine if_neg fun hx => hkey ?_
      simp only [isOpenFor, Bool.and_eq_true, beq_iff_eq] at hx
      exact ⟨hxi.symm.trans hx.1.2, hxs.symm.trans hx.2⟩
    rw [if_neg hkey, hclosed _ hinst hside, hclosed o rfl rfl, sub_zero]

end

/-! ### Runs of callbacks -/

open Runs

/-- The callbacks fill accounting is about: orders are registered within their bounds and
under an id no tracked order has; fills are not negative and do not overflow. -/
def FillsSanely (t : OrderTracker) : Callback → Prop
  | .intentSent order =>
      (0 ≤ order.filledQty.toInt ∧ order.filledQty.toInt ≤ order.originalQty.toInt) ∧
        ∀ o ∈ Slots.occupants t.orders, o.clientOrderId ≠ order.clientOrderId
  | .fill id qty =>
      0 ≤ qty.toInt ∧ ∀ (j : Nat) o, t.findMut id = some (j, o) → o.isActive = true →
        I64.Fits (o.filledQty.toInt + qty.toInt)
  | .ack _ _ _ | .reject _ | .cancelAck _ => True

/-- The sum of what remains of the active orders of an instrument and side. -/
def remainingSum (t : OrderTracker) (i : InstrumentId) (s : Side) : Int :=
  ((t.activeOrders.filter fun o => o.instrumentId == i && o.side == s).map exactRemaining).sum

/-- What `on_fill` of `q` lots does for the active order `o` in slot `j`. -/
structure FillEffect (t : OrderTracker) (j : Nat) (o : TrackedOrder) (q : Lots) : Prop where
  /-- The order takes what remains of it at most, and nothing else of it changes. -/
  order : ∃ o', (t.onFill o.clientOrderId q).orders[j]? = some (some o') ∧
    o'.filledQty.toInt = o.filledQty.toInt + min q.toInt (exactRemaining o) ∧
    (o'.state = .filled ↔ exactRemaining o ≤ q.toInt) ∧
    (q.toInt < exactRemaining o → o'.state = o.state) ∧
    o' = { o with filledQty := o'.filledQty, state := o'.state }
  others : ∀ k : Nat, k ≠ j → (t.onFill o.clientOrderId q).orders[k]? = t.orders[k]?
  own : I64.Fits (t.remainingSum o.instrumentId o.side) →
    ((t.onFill o.clientOrderId q).openQty o.instrumentId o.side).toInt =
      (t.openQty o.instrumentId o.side).toInt - min q.toInt (exactRemaining o)
  elsewhere : ∀ i s, ¬ (o.instrumentId = i ∧ o.side = s) →
    (t.onFill o.clientOrderId q).openQty i s = t.openQty i s

/-- The books of one tracker are in order, before and after any fill. -/
structure Accounted (t : OrderTracker) : Prop where
  filled : t.FilledWithin
  openQty : ∀ i s, I64.Fits (t.remainingSum i s) →
    0 ≤ (t.openQty i s).toInt ∧ (t.openQty i s).toInt = t.remainingSum i s
  fill : ∀ (j : Nat) o q, t.orders[j]? = some (some o) → o.isActive = true → 0 ≤ q.toInt →
    I64.Fits (o.filledQty.toInt + q.toInt) → t.FillEffect j o q

theorem remainingSum_eq (t : OrderTracker) (i : InstrumentId) (s : Side) :
    t.remainingSum i s = t.exactOpen i s := by
  unfold remainingSum exactOpen Slots.total activeOrders
  induction Slots.occupants t.orders with
  | nil => rfl
  | cons o os ih =>
      have hopen : isOpenFor i s o = (o.isActive && (o.instrumentId == i && o.side == s)) := by
        rw [isOpenFor, Bool.and_assoc]
      rw [List.map_cons, List.sum_cons, ← ih, openWeight, hopen, List.filter_cons]
      cases o.isActive with
      | false => simp
      | true => cases hkey : (o.instrumentId == i && o.side == s) <;> simp [hkey]

/-- Under distinct ids a slot is found by the id of its order. -/
theorem DistinctIds.findMut {t : OrderTracker} (h : t.DistinctIds) {j : Nat} {o : TrackedOrder}
    (hj : t.orders[j]? = some (some o)) : t.findMut o.clientOrderId = some (j, o) := by
  cases hf : t.findMut o.clientOrderId with
  | none => exact absurd (Slots.find?_none hf hj) (by simp)
  | some q =>
      obtain ⟨k, o'⟩ := q
      obtain ⟨hk, hid⟩ := findMut_some hf
      obtain rfl := h k j o' o hk hj hid
      rw [hj] at hk
      cases hk
      rfl

theorem DistinctIds.intentSent {t : OrderTracker} (h : t.DistinctIds) {order : TrackedOrder}
    (hnew : ∀ o ∈ Slots.occupants t.orders, o.clientOrderId ≠ order.clientOrderId) (j : Nat) :
    (t.setOrder j order).DistinctIds := by
  -- a slot of the new tracker is the new order's, or it is an old one
  have back : ∀ (k : Nat) x, (t.setOrder j order).orders[k]? = some (some x) →
      (k = j ∧ x = order) ∨ t.orders[k]? = some (some x) := by
    intro k x hx
    rw [setOrder_orders, List.getElem?_set] at hx
    split at hx
    · next hjk =>
        split at hx
        · cases hx
          exact Or.inl ⟨hjk.symm, rfl⟩
        · cases hx
    · exact Or.inr hx
  intro k l x x' hx hx' hid
  rcases back k x hx with ⟨rfl, rfl⟩ | hk <;> rcases back l x' hx' with ⟨rfl, rfl⟩ | hl
  · rfl
  · exact absurd hid.symm (hnew x' (Slots.mem_occupants_iff_getElem?.mpr ⟨l, hl⟩))
  · exact absurd hid (hnew x (Slots.mem_occupants_iff_getElem?.mpr ⟨k, hk⟩))
  · exact h k l x x' hk hl hid

/-- A sane callback leaves the order it found within its bounds. -/
theorem FillsSanely.filled {t : OrderTracker} {c : Callback} {id : UInt64} {j : Nat}
    {o : TrackedOrder} (hc : c.target = some id) (hf : t.findMut id = some (j, o))
    (hsane : t.FillsSanely c)
    (ho : 0 ≤ o.filledQty.toInt ∧ o.filledQty.toInt ≤ o.originalQty.toInt) :
    0 ≤ (c.effect o).1.filledQty.toInt ∧
      (c.effect o).1.filledQty.toInt ≤ (c.effect o).1.originalQty.toInt := by
  cases c with
  | intentSent order => cases hc
  | ack _ _ _ | reject _ | cancelAck _ => exact ho
  | fill id' qty =>
      cases hc
      by_cases ha : o.isActive = true
      · exact filled_fill id ha ho hsane.1 (hsane.2 j o hf ha)
      · simpa [Callback.effect, ha] using ho

/-- **Invariant step.** -/
theorem FillsSanely.step {t : OrderTracker} {c : Callback} (hsane : t.FillsSanely c)
    (h : t.DistinctIds ∧ t.FilledWithin) : (t.step c).DistinctIds ∧ (t.step c).FilledWithin := by
  obtain ⟨hids, hfilled⟩ := h
  cases hc : c.target with
  | none =>
      cases c with
      | ack _ _ _ | reject _ | fill _ _ | cancelAck _ => cases hc
      | intentSent order =>
          obtain ⟨hin, hnew⟩ := hsane
          rcases step_intentSent t order with ⟨j, x, -, -, -, hs⟩ | ⟨-, hs⟩
          · rw [hs]
            refine ⟨hids.intentSent hnew j, ?_⟩
            intro o ho
            obtain ⟨k, hk⟩ := Slots.mem_occupants_iff_getElem?.mp ho
            rw [show ({ t.setOrder j order with activeCount := t.activeCount + 1 } :
              OrderTracker).orders = t.orders.set j (some order) from rfl,
              List.getElem?_set] at hk
            split at hk
            · split at hk
              · cases hk
                exact hin
              · cases hk
            · exact hfilled o (Slots.mem_occupants_iff_getElem?.mpr ⟨k, hk⟩)
          · rw [hs]
            exact ⟨hids, hfilled⟩
  | some id =>
      cases hf : t.findMut id with
      | none =>
          rw [step_of_unknown hc hf]
          exact ⟨hids, hfilled⟩
      | some q =>
          obtain ⟨j, o⟩ := q
          have hmem : o ∈ Slots.occupants t.orders :=
            Slots.mem_occupants_iff_getElem?.mpr ⟨j, (findMut_some hf).1⟩
          refine ⟨hids.step hc hf, ?_⟩
          intro o' ho'
          rcases mem_occupants_step hc hf ho' with rfl | hold
          · exact hsane.filled hc hf (hfilled o hmem)
          · exact hfilled o' hold

/-- What is open afterwards: the clamped fill is taken out of the order's own key. -/
theorem exactOpen_onFill {t : OrderTracker} {id : UInt64} {j : Nat} {o : TrackedOrder} {q : Lots}
    (hf : t.findMut id = some (j, o)) (ha : o.isActive = true)
    (hfits : I64.Fits (o.filledQty.toInt + q.toInt)) (i : InstrumentId) (s : Side) :
    (t.onFill id q).exactOpen i s = t.exactOpen i s -
      if o.instrumentId = i ∧ o.side = s then min q.toInt (exactRemaining o) else 0 := by
  have hstep : (t.step (.fill id q)).exactOpen i s + openWeight i s o =
      t.exactOpen i s + openWeight i s ((Callback.fill id q).effect o).1 :=
    exactOpen_step (c := .fill id q) rfl hf i s
  rw [openWeight_fill _ ha hfits i s] at hstep
  show (t.step (.fill id q)).exactOpen i s = _
  omega

theorem toInt_openQty {t : OrderTracker} (i : InstrumentId) (s : Side)
    (h : I64.Fits (t.exactOpen i s)) : (t.openQty i s).toInt = t.exactOpen i s := by
  rw [openQty_eq_ofInt, I64.toInt_ofInt h]

theorem fillEffect_of_distinct {t : OrderTracker} (hids : t.DistinctIds) (hfilled : t.FilledWithin)
    {j : Nat} {o : TrackedOrder} {q : Lots} (hj : t.orders[j]? = some (some o))
    (ha : o.isActive = true) (hq : 0 ≤ q.toInt)
    (hfits : I64.Fits (o.filledQty.toInt + q.toInt)) : t.FillEffect j o q := by
  have hf := hids.findMut hj
  have hmem : o ∈ Slots.occupants t.orders := Slots.mem_occupants_iff_getElem?.mpr ⟨j, hj⟩
  have ho := hfilled o hmem
  have hopen := exactOpen_onFill hf ha hfits
  have hslot := step_getElem? (c := .fill o.clientOrderId q) rfl hf
  obtain ⟨hfilledQty, hstate⟩ := filledQty_fill o.clientOrderId ha hfits
  refine ⟨⟨_, (hslot j).trans (if_pos rfl), hfilledQty, ?_, ?_, ?_⟩, ?_, ?_, ?_⟩
  · rw [hstate]
    split
    · next hfull => simp [hfull]
    · next hpart =>
        refine iff_of_false ?_ hpart
        intro hfin
        simp [TrackedOrder.isActive, hfin] at ha
  · intro hlt
    rw [hstate, if_neg (by omega)]
  · simp only [Callback.effect, ha, if_true]
    split <;> rfl
  · intro k hk
    exact (hslot k).trans (if_neg hk.symm)
  · intro hsum
    rw [remainingSum_eq] at hsum
    have hown := hopen o.instrumentId o.side
    rw [if_pos ⟨rfl, rfl⟩] at hown
    have hshare : exactRemaining o ≤ t.exactOpen o.instrumentId o.side := by
      have hweight : openWeight o.instrumentId o.side o = exactRemaining o :=
        if_pos ((isOpenFor_of_active ha o.instrumentId o.side).mpr ⟨rfl, rfl⟩)
      rw [← hweight]
      exact Slots.le_total hj (openWeight_nonneg hfilled o.instrumentId o.side)
    have hrem : 0 ≤ exactRemaining o := by
      unfold exactRemaining
      omega
    have hfits' : I64.Fits ((t.onFill o.clientOrderId q).exactOpen o.instrumentId o.side) := by
      obtain ⟨hmin, hmax⟩ := hsum
      rw [hown]
      constructor <;> omega
    rw [toInt_openQty _ _ hsum, toInt_openQty _ _ hfits', hown]
  · intro i s hkey
    have hother := hopen i s
    rw [if_neg hkey, sub_zero] at hother
    rw [openQty_eq_ofInt, openQty_eq_ofInt, hother]

theorem accounted_of_invariant {t : OrderTracker} (h : t.DistinctIds ∧ t.FilledWithin) :
    t.Accounted where
  filled := h.2
  openQty i s hsum := by
    rw [remainingSum_eq] at hsum ⊢
    have hopen := toInt_openQty i s hsum
    exact ⟨hopen ▸ exactOpen_nonneg h.2 i s, hopen⟩
  fill _ _ _ hj ha hq hfits := fillEffect_of_distinct h.1 h.2 hj ha hq hfits

theorem invariant_new : new.DistinctIds ∧ new.FilledWithin := by
  have hempty : Slots.occupants new.orders = [] := Slots.occupants_replicate_none maxTrackedOrders
  refine ⟨?_, ?_⟩
  · intro j k o o' hj
    have hmem := Slots.mem_occupants_iff_getElem?.mpr ⟨j, hj⟩
    rw [hempty] at hmem
    cases hmem
  · intro o ho
    rw [hempty] at ho
    cases ho

/-- **Fill accounting over whole runs.** Through any callbacks that register orders within
their bounds under new ids and fill by nonnegative quantities, in every state reached:
every order is filled within its bounds, `open_qty` is the sum of what remains of the
active orders and not negative, and a fill of an active order moves exactly the smaller of
its quantity and what remains, of that order and its key alone. -/
theorem fills_accounted (cs : List Callback) (h : AllSteps step FillsSanely new cs) :
    Always step Accounted new cs := by
  have hall : Always step (fun t => t.DistinctIds ∧ t.FilledWithin) new cs :=
    always_of_allSteps (fun _ _ hinv hsane => hsane.step hinv) invariant_new h
  intro pre hpre
  exact accounted_of_invariant (hall pre hpre)

/-- An order filled in two parts, the second of which is clamped, and then acknowledged
late: what is open goes from 100 to 60 and stays at 0. -/
theorem fills_accounted_overfill :
    AllSteps step FillsSanely new
      [.intentSent (sampleOrder 1), .fill 1 40, .fill 1 100, .ack 1 42 999] ∧
    Always step Accounted new
      [.intentSent (sampleOrder 1), .fill 1 40, .fill 1 100, .ack 1 42 999] ∧
    ((List.range 4).map fun n => (run step new (List.take (n + 1)
      [.intentSent (sampleOrder 1), .fill 1 40, .fill 1 100, .ack 1 42 999])).openQty 1 .bid) =
      [100, 60, 0, 0] ∧
    ((run step new [.intentSent (sampleOrder 1), .fill 1 40, .fill 1 100]).get 1).map
      (·.filledQty) = some 100 := by
  have hsane : AllSteps step FillsSanely new
      [.intentSent (sampleOrder 1), .fill 1 40, .fill 1 100, .ack 1 42 999] := by
    refine ⟨⟨by decide, by decide⟩, ⟨by decide, ?_⟩, ⟨by decide, ?_⟩, trivial, trivial⟩
    · intro j o hf _
      cases hf
      decide
    · intro j o hf _
      cases hf
      decide
  exact ⟨hsane, fills_accounted _ hsane, by decide, by decide⟩

end OrderTracker

end Mantis
