import Mantis.Strategy.QueueEstimator

/-!
# Mantis.Strategy.QueuePosition

Whole runs of a `QueueEstimator` (`crates/strategy/src/queue.rs`).

The state of a tracked order is a function of its registration and of the calls since
(`Registration.ahead`, `filled`, `Closed`). `Describes.after_call` carries that description
through one call, `History` through a run, and `queue_position` reads the result off.
-/

namespace Mantis

/-! ### The life of one order -/

namespace Registration

open QueueEstimator

/-- What a call trades at the order's own level. -/
def tradedBy (r : Registration) : Call → Int
  | .onTrade instrumentId side price qty =>
      if r.instrumentId = instrumentId ∧ r.side = side ∧ r.price = price then qty.toInt else 0
  | _ => 0

/-- What a call fills of the order. -/
def filledBy (r : Registration) : Call → Int
  | .orderFilled id qty => if r.orderId = id then qty.toInt else 0
  | _ => 0

def isFill (r : Registration) : Call → Bool
  | .orderFilled id _ => r.orderId == id
  | _ => false

def isCancel (r : Registration) : Call → Bool
  | .orderCancelled id => r.orderId == id
  | _ => false

/-- Everything traded at the order's level by the calls since its registration. -/
def traded (r : Registration) (later : List Call) : Int := (later.map r.tradedBy).sum

/-- The sum of the order's fills since its registration. -/
def filled (r : Registration) (later : List Call) : Int := (later.map r.filledBy).sum

/-- The quantity ahead: what the trades since have left of the level, and nothing once the
order has been filled in part. -/
def ahead (r : Registration) (later : List Call) : Int :=
  if later.any r.isFill then 0 else max 0 (r.currentLevelSize.toInt - r.traded later)

/-- The order is done: its fills have reached its quantity, or it was cancelled. -/
def Closed (r : Registration) (later : List Call) : Prop :=
  r.qty.toInt ≤ r.filled later ∨ later.any r.isCancel = true

theorem traded_concat (r : Registration) (later : List Call) (c : Call) :
    r.traded (later ++ [c]) = r.traded later + r.tradedBy c := by
  simp [traded]

theorem filled_concat (r : Registration) (later : List Call) (c : Call) :
    r.filled (later ++ [c]) = r.filled later + r.filledBy c := by
  simp [filled]

theorem closed_concat (r : Registration) (later : List Call) (c : Call) :
    r.Closed (later ++ [c]) ↔
      r.qty.toInt ≤ r.filled later + r.filledBy c ∨
        later.any r.isCancel = true ∨ r.isCancel c = true := by
  rw [Closed, filled_concat, List.any_append, Bool.or_eq_true, List.any_cons, List.any_nil,
    Bool.or_false]

theorem ahead_concat (r : Registration) (later : List Call) (c : Call) :
    r.ahead (later ++ [c]) =
      if later.any r.isFill || r.isFill c then 0
      else max 0 (r.currentLevelSize.toInt - (r.traded later + r.tradedBy c)) := by
  rw [ahead, traded_concat, List.any_append, List.any_cons, List.any_nil, Bool.or_false]

theorem ahead_nonneg (r : Registration) (later : List Call) : 0 ≤ r.ahead later := by
  unfold ahead
  split <;> omega

end Registration

namespace QueuedOrder

open QueueEstimator

/-- The order is what its registration and the calls since have made of it. -/
structure Describes (o : QueuedOrder) (r : Registration) (later : List Call) : Prop where
  orderId : o.orderId = r.orderId
  level : o.instrumentId = r.instrumentId ∧ o.side = r.side ∧ o.price = r.price
  posted : o.postedAtLevelSize.toInt = r.currentLevelSize.toInt + r.qty.toInt
  qty : o.qty.toInt = r.qty.toInt - r.filled later
  ahead : o.aheadQty.toInt = r.ahead later

theorem describes_queued {r : Registration} (h0 : 0 ≤ r.currentLevelSize.toInt)
    (hfits : I64.Fits (r.currentLevelSize.toInt + r.qty.toInt)) : (queued r).Describes r [] where
  orderId := rfl
  level := ⟨rfl, rfl, rfl⟩
  posted := I64.toInt_add hfits
  qty := by simp [queued, Registration.filled]
  ahead := by simp [queued, Registration.ahead, Registration.traded, h0]

/-- A call that neither trades at the order's level nor fills it changes nothing. -/
theorem Describes.keep {o : QueuedOrder} {r : Registration} {later : List Call} {c : Call}
    (h : o.Describes r later) (htraded : r.tradedBy c = 0) (hfilled : r.filledBy c = 0)
    (hfill : r.isFill c = false) : o.Describes r (later ++ [c]) where
  orderId := h.orderId
  level := h.level
  posted := h.posted
  qty := by rw [h.qty, Registration.filled_concat, hfilled, add_zero]
  ahead := by
    rw [h.ahead, Registration.ahead_concat, htraded, hfill, add_zero, Bool.or_false]
    rfl

/-- A trade at the order's level consumes from the front of the queue. -/
theorem toInt_advance {o : QueuedOrder} {qty : Lots} (h0 : 0 ≤ o.aheadQty.toInt)
    (hq : 0 ≤ qty.toInt) :
    (advance o.instrumentId o.side o.price qty o).aheadQty.toInt =
      max 0 (o.aheadQty.toInt - qty.toInt) := by
  have hmax := (I64.fits_toInt o.aheadQty).2
  have hmin := I64.toInt_min qty o.aheadQty
  have hsub : (o.aheadQty - min qty o.aheadQty).toInt =
      o.aheadQty.toInt - min qty.toInt o.aheadQty.toInt := by
    rw [I64.toInt_sub, hmin]
    rw [hmin]
    constructor <;> omega
  rw [advance, if_pos ⟨rfl, rfl, rfl⟩]
  show (max (o.aheadQty - min qty o.aheadQty) 0).toInt = _
  rw [I64.toInt_max, hsub, Int64.toInt_zero]
  omega

/-- The quantity ahead after a trade at the order's own level. -/
theorem Describes.trade {o : QueuedOrder} {r : Registration} {later : List Call} {qty : Lots}
    (h : o.Describes r later) (hq : 0 ≤ qty.toInt) :
    (advance o.instrumentId o.side o.price qty o).Describes r
      (later ++ [.onTrade o.instrumentId o.side o.price qty]) := by
  have hadvance := toInt_advance (h.ahead ▸ r.ahead_nonneg later) hq
  have hother : advance o.instrumentId o.side o.price qty o =
      { o with aheadQty := (advance o.instrumentId o.side o.price qty o).aheadQty } := by
    rw [advance, if_pos ⟨rfl, rfl, rfl⟩]
  have htraded : r.tradedBy (.onTrade o.instrumentId o.side o.price qty) = qty.toInt :=
    if_pos ⟨h.level.1.symm, h.level.2.1.symm, h.level.2.2.symm⟩
  refine ⟨?_, ?_, ?_, ?_, ?_⟩
  · rw [hother]
    exact h.orderId
  · rw [hother]
    exact h.level
  · rw [hother]
    exact h.posted
  · rw [hother, Registration.filled_concat]
    exact h.qty.trans (by simp [Registration.filledBy])
  · rw [hadvance, h.ahead, Registration.ahead_concat, htraded, Registration.ahead]
    simp only [Registration.isFill, Bool.or_false]
    split <;> omega

/-- A partial fill puts the order at the front. -/
theorem Describes.fill {o : QueuedOrder} {r : Registration} {later : List Call} {qty : Lots}
    (h : o.Describes r later) (hpos : 0 < o.qty.toInt) (hq : 0 ≤ qty.toInt) :
    ({ o with qty := o.qty - qty, aheadQty := 0 } : QueuedOrder).Describes r
      (later ++ [.orderFilled r.orderId qty]) where
  orderId := h.orderId
  level := h.level
  posted := h.posted
  qty := by
    have hmax := (I64.fits_toInt o.qty).2
    have hmax' := (I64.fits_toInt qty).2
    have hsub : (o.qty - qty).toInt = o.qty.toInt - qty.toInt :=
      I64.toInt_sub ⟨by omega, by omega⟩
    rw [Registration.filled_concat, hsub, h.qty]
    simp only [Registration.filledBy, if_true]
    omega
  ahead := by simp [Registration.ahead_concat, Registration.isFill]

/-- **One call in the life of an order.** It ends the order, or takes the description of
the order along. -/
theorem Describes.after_call {t : QueueEstimator} {o : QueuedOrder} {r : Registration}
    {later : List Call} {c : Call} (h : o.Describes r later) (hopen : ¬ r.Closed later)
    (hc : t.Valid c) :
    (r.Closed (later ++ [c]) ∧ o.after c = none) ∨
      (¬ r.Closed (later ++ [c]) ∧ ∃ o', o.after c = some o' ∧ o'.Describes r (later ++ [c])) := by
  have hqty := h.qty
  simp only [Registration.Closed, not_or, not_le, Bool.not_eq_true] at hopen
  obtain ⟨hleft, hnotCancelled⟩ := hopen
  have hpos : 0 < o.qty.toInt := by omega
  -- a call that is not about the order leaves it as it is
  have keep : r.tradedBy c = 0 → r.filledBy c = 0 → r.isFill c = false → r.isCancel c = false →
      o.after c = some o →
      ¬ r.Closed (later ++ [c]) ∧ ∃ o', o.after c = some o' ∧ o'.Describes r (later ++ [c]) := by
    intro htraded hfilled hfill hcancel hafter
    refine ⟨?_, o, hafter, h.keep htraded hfilled hfill⟩
    rw [Registration.closed_concat, hfilled, hnotCancelled, hcancel]
    simpa using hleft
  cases c with
  | registerOrder r' => exact Or.inr (keep rfl rfl rfl rfl rfl)
  | orderFilled id qty =>
      by_cases hid : r.orderId = id
      · subst hid
        have hmax := (I64.fits_toInt o.qty).2
        have hmax' := (I64.fits_toInt qty).2
        have hq : 0 ≤ qty.toInt := hc
        have hsub : (o.qty - qty).toInt = o.qty.toInt - qty.toInt :=
          I64.toInt_sub ⟨by omega, by omega⟩
        have hclosed : r.Closed (later ++ [.orderFilled r.orderId qty]) ↔ o.qty - qty ≤ 0 := by
          rw [Registration.closed_concat, hnotCancelled, Int64.le_iff_toInt_le, hsub,
            Int64.toInt_zero]
          simp only [Registration.filledBy, if_true, Registration.isCancel, Bool.false_eq_true,
            or_false]
          omega
        simp only [after, if_pos h.orderId]
        by_cases hdone : o.qty - qty ≤ 0
        · exact Or.inl ⟨hclosed.mpr hdone, if_pos hdone⟩
        · exact Or.inr ⟨mt hclosed.mp hdone, _, if_neg hdone, h.fill hpos hq⟩
      · exact Or.inr (keep rfl (if_neg hid) (by simpa [Registration.isFill] using hid) rfl
          (if_neg (h.orderId ▸ hid)))
  | orderCancelled id =>
      by_cases hid : r.orderId = id
      · refine Or.inl ⟨?_, if_pos (h.orderId.trans hid)⟩
        rw [Registration.closed_concat]
        exact Or.inr (Or.inr (by simpa [Registration.isCancel] using hid))
      · exact Or.inr (keep rfl rfl rfl (by simpa [Registration.isCancel] using hid)
          (if_neg (h.orderId ▸ hid)))
  | onTrade i s p qty =>
      by_cases hlevel : o.instrumentId = i ∧ o.side = s ∧ o.price = p
      · obtain ⟨rfl, rfl, rfl⟩ := hlevel
        refine Or.inr ⟨?_, _, rfl, h.trade hc⟩
        rw [Registration.closed_concat, hnotCancelled]
        simpa [Registration.filledBy, Registration.isCancel] using hleft
      · have hlevel' : ¬ (r.instrumentId = i ∧ r.side = s ∧ r.price = p) := by
          rw [← h.level.1, ← h.level.2.1, ← h.level.2.2]
          exact hlevel
        exact Or.inr (keep (if_neg hlevel') rfl rfl rfl (congrArg some (if_neg hlevel)))

/-- No call of a valid run raises the quantity ahead. -/
theorem after_aheadQty_le {t : QueueEstimator} {o o' : QueuedOrder} {c : Call}
    (h0 : 0 ≤ o.aheadQty.toInt) (hc : t.Valid c) (h : o.after c = some o') :
    o'.aheadQty.toInt ≤ o.aheadQty.toInt := by
  rcases after_cases h with rfl | ⟨qty, rfl, rfl⟩ | ⟨qty, rfl, rfl⟩
  · exact le_refl _
  · exact h0
  · have hq : 0 ≤ qty.toInt := hc
    rw [toInt_advance h0 hq]
    omega

end QueuedOrder

namespace QueueEstimator

open Runs

/-! ### Whole runs -/

/-- The estimator accepted this registration after the calls `before`. -/
def Accepted (before : List Call) (r : Registration) : Prop :=
  ((run step new before).registerOrder r).2 = .ok ()

/-- The invariant that ties the slots to the calls made so far. -/
structure History (calls : List Call) (t : QueueEstimator) : Prop where
  distinct : t.DistinctIds
  count : t.CountExact
  registered : ∀ (j : Nat) o, t.orders[j]? = some (some o) → ∃ before r later,
    calls = before ++ .registerOrder r :: later ∧ Accepted before r ∧ ¬ r.Closed later ∧
      o.Describes r later
  kept : ∀ before r later, calls = before ++ .registerOrder r :: later → Accepted before r →
    ¬ r.Closed later → ∃ (j : Nat) (o : QueuedOrder),
      t.orders[j]? = some (some o) ∧ o.Describes r later

theorem accepted_iff (t : QueueEstimator) (r : Registration) :
    (t.registerOrder r).2 = .ok () ↔ t.freeSlot.isSome := by
  unfold registerOrder
  cases t.freeSlot <;> simp

/-- A new order is not done. -/
theorem not_closed_nil {r : Registration} (h : 0 < r.qty.toInt) : ¬ r.Closed [] := by
  simpa [Registration.Closed, Registration.filled] using h

/-- What was not done after a call was not done before it. -/
theorem not_closed_of_concat {t : QueueEstimator} {r : Registration} {later : List Call} {c : Call}
    (hc : t.Valid c) (h : ¬ r.Closed (later ++ [c])) : ¬ r.Closed later := by
  have hnonneg : 0 ≤ r.filledBy c := by
    cases c with
    | orderFilled id qty =>
        have hq : 0 ≤ qty.toInt := hc
        simp only [Registration.filledBy]
        split <;> omega
    | registerOrder _ | orderCancelled _ | onTrade _ _ _ _ => exact le_refl 0
  rw [Registration.closed_concat] at h
  rintro (hdone | hcancel)
  · exact h (Or.inl (by omega))
  · exact h (Or.inr (Or.inl hcancel))

theorem new_slot (j : Nat) (o : QueuedOrder) : new.orders[j]? ≠ some (some o) := by
  intro h
  have hmem := List.mem_of_getElem? h
  cases List.eq_of_mem_replicate hmem

theorem history_new : History [] new where
  distinct j _ o _ hj := absurd hj (new_slot j o)
  count := by
    show 0 = _
    rw [show new.orders = List.replicate maxQueuedOrders none from rfl,
      Slots.occupants_replicate_none]
    rfl
  registered j o hj := absurd hj (new_slot j o)
  kept := by
    intro before r later h
    simp at h

/-- **Invariant step.** -/
theorem History.concat {calls : List Call} {c : Call} (h : History calls (run step new calls))
    (hc : (run step new calls).Valid c) :
    History (calls ++ [c]) ((run step new calls).step c) where
  distinct := h.distinct.step hc
  count := h.count.step c
  registered := by
    intro j o' ho'
    obtain ⟨slot, hj⟩ := slot_of_step ho'
    cases slot with
    | none =>
        -- registered just now
        obtain ⟨r, rfl, hfree, rfl⟩ := step_empty hj ho'
        refine ⟨calls, r, [], rfl, ?_, not_closed_nil hc.2.1,
          QueuedOrder.describes_queued hc.2.2.1 hc.2.2.2⟩
        exact (accepted_iff _ r).mpr (by rw [hfree]; rfl)
    | some o =>
        obtain ⟨before, r, later, rfl, hacc, hopen, hdesc⟩ := h.registered j o hj
        have hafter := Option.some.inj ((step_slot h.distinct hj c).symm.trans ho')
        rcases hdesc.after_call hopen hc with ⟨-, hnone⟩ | ⟨hopen', o'', hsome, hdesc'⟩
        · cases hafter.symm.trans hnone
        · cases hafter.symm.trans hsome
          exact ⟨before, r, later ++ [c], by simp, hacc, hopen', hdesc'⟩
  kept := by
    intro before r later hcalls hacc hopen
    rcases List.eq_nil_or_concat later with rfl | ⟨later, c', rfl⟩
    · obtain ⟨rfl, hlast⟩ := List.append_inj' hcalls rfl
      obtain rfl : c = .registerOrder r := by simpa using hlast
      obtain ⟨j, hfree⟩ := Option.isSome_iff_exists.mp ((accepted_iff _ r).mp hacc)
      refine ⟨j, queued r, ?_, QueuedOrder.describes_queued hc.2.2.1 hc.2.2.2⟩
      show ((run step new calls).registerOrder r).1.orders[j]? = _
      rw [registerOrder, hfree]
      exact setSlot_self (freeSlot_some hfree) _
    · rw [List.concat_eq_append, ← List.cons_append, ← List.append_assoc] at hcalls
      obtain ⟨hpre, hlast⟩ := List.append_inj' hcalls rfl
      obtain rfl : c = c' := by simpa using hlast
      rw [List.concat_eq_append] at hopen ⊢
      obtain ⟨j, o, hj, hdesc⟩ := h.kept before r later hpre hacc (not_closed_of_concat hc hopen)
      rcases hdesc.after_call (not_closed_of_concat hc hopen) hc with
        ⟨hclosed, -⟩ | ⟨-, o', hsome, hdesc'⟩
      · exact absurd hclosed hopen
      · exact ⟨j, o', (step_slot h.distinct hj c).trans (congrArg some hsome), hdesc'⟩

theorem history_run (calls : List Call) (h : AllSteps step Valid new calls) :
    History calls (run step new calls) := by
  induction calls using List.reverseRecOn with
  | nil => exact history_new
  | append_singleton calls c ih =>
      obtain ⟨hcalls, hc, -⟩ := allSteps_append.mp h
      have hstep := (ih hcalls).concat hc
      rw [run_append]
      exact hstep

/-- What holds of the estimator after a run of calls. -/
structure QueuePosition (calls : List Call) : Prop where
  /-- A tracked order is what its registration and the calls since have made of it. -/
  tracked : ∀ o ∈ Slots.occupants (run step new calls).orders, ∃ before r later,
    calls = before ++ .registerOrder r :: later ∧ Accepted before r ∧ ¬ r.Closed later ∧
      o.Describes r later ∧ 0 < o.qty.toInt ∧ 0 ≤ o.aheadQty.toInt
  /-- An order stays tracked until it is filled or cancelled. -/
  kept : ∀ before r later, calls = before ++ .registerOrder r :: later → Accepted before r →
    ¬ r.Closed later → ∃ o ∈ Slots.occupants (run step new calls).orders, o.Describes r later
  /-- The call that fills or cancels it removes it. -/
  removed : ∀ before r later c, calls = before ++ .registerOrder r :: (later ++ [c]) →
    Accepted before r → ¬ r.Closed later → r.Closed (later ++ [c]) →
      ∀ o ∈ Slots.occupants (run step new calls).orders, o.orderId ≠ r.orderId
  /-- No next call raises the quantity ahead, and one that is about something else leaves the
  order alone. -/
  next : ∀ c, (run step new calls).Valid c → ∀ (j : Nat) o,
    (run step new calls).orders[j]? = some (some o) →
      (∀ o', ((run step new calls).step c).orders[j]? = some (some o') →
        o'.orderId = o.orderId ∧ o'.aheadQty.toInt ≤ o.aheadQty.toInt) ∧
      (¬ o.Concerns c → ((run step new calls).step c).orders[j]? = some (some o))
  count : (run step new calls).orderCount = (Slots.occupants (run step new calls).orders).length

theorem History.positive {calls : List Call} {t : QueueEstimator} (h : History calls t) {j : Nat}
    {o : QueuedOrder} (hj : t.orders[j]? = some (some o)) :
    0 < o.qty.toInt ∧ 0 ≤ o.aheadQty.toInt := by
  obtain ⟨-, r, later, -, -, hopen, hdesc⟩ := h.registered j o hj
  have hqty := hdesc.qty
  have hahead := r.ahead_nonneg later
  rw [← hdesc.ahead] at hahead
  simp only [Registration.Closed, not_or, not_le] at hopen
  exact ⟨by omega, hahead⟩

/-- A closing call empties the only slot with that id. -/
theorem History.removed {calls : List Call} {c : Call} (h : History calls (run step new calls))
    (hc : (run step new calls).Valid c) {before : List Call} {r : Registration}
    {later : List Call} (hcalls : calls = before ++ .registerOrder r :: later)
    (hacc : Accepted before r) (hopen : ¬ r.Closed later) (hclosed : r.Closed (later ++ [c])) :
    ∀ o ∈ Slots.occupants ((run step new calls).step c).orders,
      o.orderId ≠ r.orderId := by
  obtain ⟨j, x, hj, hdesc⟩ := h.kept before r later hcalls hacc hopen
  have hgone : x.after c = none := by
    rcases hdesc.after_call hopen hc with ⟨-, hnone⟩ | ⟨hnot, -⟩
    · exact hnone
    · exact absurd hclosed hnot
  intro o ho hid
  obtain ⟨k, hk⟩ := Slots.mem_occupants_iff_getElem?.mp ho
  obtain ⟨slot, hslot⟩ := slot_of_step hk
  cases slot with
  | none =>
      obtain ⟨r', rfl, -, -⟩ := step_empty hslot hk
      cases hgone
  | some y =>
      have hafter := Option.some.inj ((step_slot h.distinct hslot c).symm.trans hk)
      have hyid := (QueuedOrder.after_orderId hafter).symm.trans (hid.trans hdesc.orderId.symm)
      obtain rfl := h.distinct k j y x hslot hj hyid
      rw [hj] at hslot
      cases hslot
      cases hafter.symm.trans hgone

/-- **Queue position in closed form.** After every valid run of calls, each tracked order
has ahead of it the size of its level at registration less what has traded at that level
since, at least zero, and nothing from its first fill on; its quantity is what its fills
have left; it is tracked until its fills reach its quantity or it is cancelled, and not
beyond; calls about something else do not touch it; and the counter counts the slots. -/
theorem queue_position (calls : List Call) (h : AllSteps step Valid new calls) :
    QueuePosition calls := by
  have hist := history_run calls h
  refine ⟨?_, ?_, ?_, ?_, hist.count⟩
  · intro o ho
    obtain ⟨j, hj⟩ := Slots.mem_occupants_iff_getElem?.mp ho
    obtain ⟨before, r, later, hcalls, hacc, hopen, hdesc⟩ := hist.registered j o hj
    exact ⟨before, r, later, hcalls, hacc, hopen, hdesc, hist.positive hj⟩
  · intro before r later hcalls hacc hopen
    obtain ⟨j, o, hj, hdesc⟩ := hist.kept before r later hcalls hacc hopen
    exact ⟨o, Slots.mem_occupants_iff_getElem?.mpr ⟨j, hj⟩, hdesc⟩
  · intro before r later c hcalls hacc hopen hclosed
    rw [← List.cons_append, ← List.append_assoc] at hcalls
    subst hcalls
    obtain ⟨hcalls, hc, -⟩ := allSteps_append.mp h
    have hgone := (history_run _ hcalls).removed hc rfl hacc hopen hclosed
    rw [run_append]
    exact hgone
  · intro c hc j o hj
    have hslot := step_slot hist.distinct hj c
    refine ⟨?_, ?_⟩
    · intro o' ho'
      have hafter := Option.some.inj (hslot.symm.trans ho')
      exact ⟨QueuedOrder.after_orderId hafter,
        QueuedOrder.after_aheadQty_le (hist.positive hj).2 hc hafter⟩
    · intro hother
      rw [hslot, QueuedOrder.after_of_not_concerns hother]

/-- Two orders at one level: the second has the first one's level and size ahead of it, a
trade moves both up, and the first is filled in two parts. The ids, the quantities ahead and
the quantities left are those after the trade, after the first fill and after the second. -/
theorem queue_position_two_orders :
    AllSteps step Valid new
      [.registerOrder ⟨1, 7, .bid, 650, 100, 500⟩, .registerOrder ⟨2, 7, .bid, 650, 80, 600⟩,
        .onTrade 7 .bid 650 200, .orderFilled 1 40, .orderFilled 1 60] ∧
    QueuePosition
      [.registerOrder ⟨1, 7, .bid, 650, 100, 500⟩, .registerOrder ⟨2, 7, .bid, 650, 80, 600⟩,
        .onTrade 7 .bid 650 200, .orderFilled 1 40, .orderFilled 1 60] ∧
    ([3, 4, 5].map fun n => (Slots.occupants (run step new (List.take n
      [.registerOrder ⟨1, 7, .bid, 650, 100, 500⟩, .registerOrder ⟨2, 7, .bid, 650, 80, 600⟩,
        .onTrade 7 .bid 650 200, .orderFilled 1 40, .orderFilled 1 60])).orders).map
          fun o => (o.orderId, o.aheadQty, o.qty)) =
      [[(1, 300, 100), (2, 400, 80)], [(1, 0, 60), (2, 400, 80)], [(2, 400, 80)]] :=
  ⟨by decide, queue_position _ (by decide), by decide⟩

end QueueEstimator

end Mantis
