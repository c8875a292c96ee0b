import Mantis.Strategy.OrderLifecycle

/-!
# Mantis.Strategy.SlotReuse

Which slot `OrderTracker::on_intent_sent` writes
(`crates/strategy/src/order_tracker.rs`).

Its comment says that empty slots are tried first and terminal ones only then. The code
makes a single scan that stops at the first slot of either kind. Slots are filled from
the front and never emptied (`packed_run`), so every terminal order stands before every
empty slot, and the scan reaches it first: the policy is kept exactly while there is
nothing to choose between (`reusePolicy_iff`).
-/

namespace Mantis

namespace OrderTracker

open Runs

/-! ### The policy -/

/-- The policy for one call: a slot is found whenever there is one, active orders and all
other slots are left alone, and a terminal record is given up only when no slot is
empty. -/
structure ReusePolicy (t : OrderTracker) (order : TrackedOrder) : Prop where
  succeeds : (t.onIntentSent order).2 = .ok () ↔ ∃ x ∈ t.orders, canReuse x = true
  active_kept : ∀ (j : Nat) o, t.orders[j]? = some (some o) → o.isActive = true →
    (t.onIntentSent order).1.orders[j]? = some (some o)
  placed : (t.onIntentSent order).2 = .ok () → ∃ (j : Nat) (x : Option TrackedOrder),
    t.orders[j]? = some x ∧ (t.onIntentSent order).1.orders = t.orders.set j (some order) ∧
      (x = none ∨ canReuse x = true ∧ none ∉ t.orders)
  retrievable : none ∈ t.orders → ∀ id o, t.get id = some o → o.isTerminal = true →
    (t.onIntentSent order).1.get id = some o
  refused : (t.onIntentSent order).2 = .error .full → (t.onIntentSent order).1 = t

/-- Some tracked order is terminal. -/
def HasTerminal (t : OrderTracker) : Prop := ∃ o ∈ Slots.occupants t.orders, o.isTerminal = true

instance (t : OrderTracker) : Decidable t.HasTerminal :=
  inferInstanceAs (Decidable (∃ o ∈ Slots.occupants t.orders, o.isTerminal = true))

/-! ### Slots are filled from the front -/

/-- The scan passed over active orders only. -/
theorem freeSlot_before {t : OrderTracker} {j i : Nat} {x : Option TrackedOrder}
    (h : t.freeSlot = some j) (hi : i < j) (hx : t.orders[i]? = some x) : canReuse x = false := by
  obtain ⟨hj, -, hbefore⟩ := List.findIdx?_eq_some_iff_getElem.mp h
  have hget : t.orders[i] = x := by
    rw [List.getElem?_eq_getElem (by omega)] at hx
    exact Option.some.inj hx
  have := hbefore i hi
  rw [hget] at this
  simpa using this

theorem packed_step {t : OrderTracker} (h : Slots.Packed t.orders) (c : Callback) :
    Slots.Packed (t.step c).orders := by
  -- an occupied slot has no empty slot before it
  have hbefore : ∀ {j : Nat} {o : TrackedOrder}, t.orders[j]? = some (some o) →
      ∀ i < j, t.orders[i]? ≠ some none := by
    intro j o hj i hi hnone
    exact h i j hi.le hnone o hj
  cases hc : c.target with
  | none =>
      cases c with
      | intentSent order =>
          rcases step_intentSent t order with ⟨j, x, hfree, -, -, hs⟩ | ⟨-, hs⟩
          · rw [hs]
            refine h.set (fun i hi hnone => ?_) order
            exact absurd (freeSlot_before hfree hi hnone) (by decide)
          · rw [hs]
            exact h
      | ack _ _ _ | reject _ | fill _ _ | cancelAck _ => cases hc
  | some id =>
      cases hf : t.findMut id with
      | none =>
          rw [step_of_unknown hc hf]
          exact h
      | some q =>
          obtain ⟨j, o⟩ := q
          rw [step_of_found hc hf]
          exact h.set (hbefore (findMut_some hf).1) _

/-- No callback ever empties a slot or leaves a gap. -/
theorem packed_run (cs : List Callback) : Slots.Packed (run step new cs).orders := by
  have hall : Always step (fun t : OrderTracker => Slots.Packed t.orders) new cs :=
    always_of_step (fun _ c h => packed_step h c) (Slots.packed_replicate_none _) cs
  exact hall.last

/-! ### One call -/

theorem onIntentSent_of_free {t : OrderTracker} {j : Nat} (h : t.freeSlot = some j)
    (order : TrackedOrder) :
    t.onIntentSent order =
      ({ t.setOrder j order with activeCount := t.activeCount + 1 }, .ok ()) := by
  rw [onIntentSent, h]

theorem onIntentSent_of_full {t : OrderTracker} (h : t.freeSlot = none) (order : TrackedOrder) :
    t.onIntentSent order = (t, .error .full) := by
  rw [onIntentSent, h]

theorem freeSlot_eq_none_iff (t : OrderTracker) :
    t.freeSlot = none ↔ ∀ x ∈ t.orders, canReuse x = false := List.findIdx?_eq_none_iff

/-- In a packed tracker that has both, the scan stops at a terminal order. -/
theorem freeSlot_terminal {t : OrderTracker} (hpacked : Slots.Packed t.orders)
    (hempty : none ∈ t.orders) (hterm : t.HasTerminal) :
    ∃ j o, t.freeSlot = some j ∧ t.orders[j]? = some (some o) := by
  cases hfree : t.freeSlot with
  | none => exact absurd ((freeSlot_eq_none_iff t).mp hfree none hempty) (by decide)
  | some j =>
      obtain ⟨x, hx, -⟩ := freeSlot_some hfree
      cases x with
      | some o => exact ⟨j, o, rfl, hx⟩
      | none =>
          -- the terminal order stands before the empty slot the scan stopped at
          obtain ⟨o, ho, hto⟩ := hterm
          obtain ⟨k, hk⟩ := Slots.mem_occupants_iff_getElem?.mp ho
          have hkj : k < j := by
            by_contra hle
            exact hpacked j k (by omega) hx o hk
          have hactive := freeSlot_before hfree hkj hk
          rw [canReuse, hto] at hactive
          cases hactive

/-- While nothing has to be chosen, the slot written is empty or none is. -/
theorem freeSlot_placed {t : OrderTracker} {j : Nat} {x : Option TrackedOrder}
    (h : ¬ (none ∈ t.orders ∧ t.HasTerminal)) (hx : t.orders[j]? = some x)
    (hreuse : canReuse x = true) : x = none ∨ canReuse x = true ∧ none ∉ t.orders := by
  cases x with
  | none => exact Or.inl rfl
  | some o =>
      refine Or.inr ⟨hreuse, fun hempty => h ⟨hempty, o, ?_, hreuse⟩⟩
      exact Slots.mem_occupants_iff_getElem?.mpr ⟨j, hx⟩

/-- A record put behind all others hides none of them. -/
theorem get_of_packed {t : OrderTracker} {j : Nat} (hpacked : Slots.Packed t.orders)
    (hj : t.orders[j]? = some none) (order : TrackedOrder) {id : UInt64} {o : TrackedOrder}
    (hget : t.get id = some o) : (t.setOrder j order).get id = some o := by
  unfold get at hget ⊢
  rw [setOrder_orders, Slots.occupants_set_of_packed hpacked hj, List.find?_append, hget]
  rfl

/-- A full tracker refuses and stays as it is. -/
theorem reusePolicy_of_full {t : OrderTracker} (h : t.freeSlot = none) (order : TrackedOrder) :
    t.ReusePolicy order := by
  have hnone := (freeSlot_eq_none_iff t).mp h
  have heq := onIntentSent_of_full h order
  refine ⟨?_, ?_, ?_, ?_, ?_⟩ <;> rw [heq]
  · refine iff_of_false (by simp) ?_
    rintro ⟨x, hx, hreuse⟩
    exact Bool.false_ne_true ((hnone x hx).symm.trans hreuse)
  · intro j o ho _
    exact ho
  · intro hok
    cases hok
  · intro hempty
    exact absurd (hnone none hempty) (by decide)
  · intro _
    rfl

/-- Where nothing has to be chosen, the policy is kept. -/
theorem reusePolicy_of_free {t : OrderTracker} {j : Nat} (hfree : t.freeSlot = some j)
    (hpacked : Slots.Packed t.orders) (h : ¬ (none ∈ t.orders ∧ t.HasTerminal))
    (order : TrackedOrder) : t.ReusePolicy order := by
  obtain ⟨x, hx, hreuse⟩ := freeSlot_some hfree
  have hplaced := freeSlot_placed h hx hreuse
  have heq := onIntentSent_of_free hfree order
  refine ⟨?_, ?_, ?_, ?_, ?_⟩ <;> rw [heq]
  · exact iff_of_true rfl ⟨x, List.mem_of_getElem? hx, hreuse⟩
  · intro k o ho hactive
    have hne : j ≠ k := by
      rintro rfl
      obtain rfl : x = some o := Option.some.inj (hx.symm.trans ho)
      rw [canReuse, TrackedOrder.isTerminal_eq_not_isActive, hactive] at hreuse
      cases hreuse
    exact (setOrder_getElem?_ne hne order).trans ho
  · intro _
    exact ⟨j, x, hx, rfl, hplaced⟩
  · intro hempty id o hget _
    rcases hplaced with rfl | ⟨-, hfull⟩
    · exact get_of_packed hpacked hx order hget
    · exact absurd hempty hfull
  · intro herr
    cases herr

/-- With both an empty slot and a terminal order at hand, the terminal one is taken. -/
theorem not_reusePolicy {t : OrderTracker} (hpacked : Slots.Packed t.orders)
    (hempty : none ∈ t.orders) (hterm : t.HasTerminal) (order : TrackedOrder) :
    ¬ t.ReusePolicy order := by
  intro h
  obtain ⟨j, o, hfree, hj⟩ := freeSlot_terminal hpacked hempty hterm
  have heq := onIntentSent_of_free hfree order
  obtain ⟨k, x, hk, hset, hx⟩ := h.placed (by rw [heq])
  rcases hx with rfl | ⟨-, hfull⟩
  · -- the empty slot the policy asks for is still empty
    have hne : j ≠ k := by
      rintro rfl
      cases hj.symm.trans hk
    have hafter : (t.onIntentSent order).1.orders[k]? = some none := by
      rw [heq]
      exact (setOrder_getElem?_ne hne order).trans hk
    rw [hset, List.getElem?_set_self (List.getElem?_eq_some_iff.mp hk).1] at hafter
    cases hafter
  · exact hfull hempty

/-- **Exact condition for the reuse policy.** In every tracker that callbacks can lead to,
registering an order follows the policy if and only if the tracker does not have both an
empty slot and a terminal order. -/
theorem reusePolicy_iff (cs : List Callback) (order : TrackedOrder) :
    (run step new cs).ReusePolicy order ↔
      ¬ (none ∈ (run step new cs).orders ∧ (run step new cs).HasTerminal) := by
  have hpacked := packed_run cs
  constructor
  · rintro h ⟨hempty, hterm⟩
    exact not_reusePolicy hpacked hempty hterm order h
  · intro h
    cases hfree : (run step new cs).freeSlot with
    | none => exact reusePolicy_of_full hfree order
    | some j => exact reusePolicy_of_free hfree hpacked h order

/-- One filled order and 63 empty slots: the next order overwrites the filled one, which
`get` no longer finds. -/
theorem filled_record_overwritten :
    none ∈ (run step new [.intentSent (sampleOrder 1), .fill 1 100]).orders ∧
    (run step new [.intentSent (sampleOrder 1), .fill 1 100]).get 1 =
      some { sampleOrder 1 with filledQty := 100, state := .filled } ∧
    (run step new [.intentSent (sampleOrder 1), .fill 1 100, .intentSent (sampleOrder 2)]).get 1 =
      none ∧
    ¬ (run step new [.intentSent (sampleOrder 1), .fill 1 100]).ReusePolicy (sampleOrder 2) := by
  refine ⟨by decide, by decide, by decide, fun h => ?_⟩
  have hlost := h.retrievable (by decide) 1
    { sampleOrder 1 with filledQty := 100, state := .filled } (by decide) (by decide)
  exact absurd hlost (by decide)

end OrderTracker

end Mantis
