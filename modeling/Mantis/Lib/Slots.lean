import Mathlib.Algebra.Order.BigOperators.Group.List
import Mathlib.Tactic.Linarith

/-!
# Fixed arrays of optional slots

A component without an allocator keeps its records in an array of slots, each
empty or occupied. It looks a record up by scanning for the **first** occupant
that satisfies a predicate, writes one slot back, and derives its aggregates by
summing over the occupants. This module is that data structure over an arbitrary
record type: the first-match search `find?` and its specification, the sum of a
weight over the occupants with its one-slot update law `total_set`, and arrays that
are filled from the front (`Packed`).
-/

namespace Slots

variable {α M : Type*}

/-! ### First match -/

/-- The first occupant satisfying `p`, with the index of its slot. -/
def find? (p : α → Bool) : List (Option α) → Option (Nat × α)
  | [] => none
  | none :: rest => (find? p rest).map fun (j, a) => (j + 1, a)
  | some a :: rest =>
      if p a then some (0, a) else (find? p rest).map fun (j, a) => (j + 1, a)

/-- What the search found is in its slot, satisfies `p`, and nothing before it does. -/
theorem find?_some {p : α → Bool} {slots : List (Option α)} {j : Nat} {a : α}
    (h : find? p slots = some (j, a)) :
    slots[j]? = some (some a) ∧ p a = true ∧
      ∀ i < j, ∀ b, slots[i]? = some (some b) → p b = false := by
  induction slots generalizing j with
  | nil => simp [find?] at h
  | cons x rest ih =>
      -- the head is skipped: shift the search of the tail by one
      have shift : (find? p rest).map (fun (j, a) => (j + 1, a)) = some (j, a) →
          (∀ b, x = some b → p b = false) →
          (x :: rest)[j]? = some (some a) ∧ p a = true ∧
            ∀ i < j, ∀ b, (x :: rest)[i]? = some (some b) → p b = false := by
        intro hmap hx
        obtain ⟨⟨k, b⟩, hk, hkb⟩ := Option.map_eq_some_iff.mp hmap
        cases hkb
        obtain ⟨hget, hp, hbefore⟩ := ih hk
        refine ⟨by simpa using hget, hp, ?_⟩
        intro i hi b hb
        cases i with
        | zero => exact hx b (by simpa using hb)
        | succ i => exact hbefore i (by omega) b (by simpa using hb)
      cases x with
      | none => exact shift (by simpa [find?] using h) (by simp)
      | some c =>
          by_cases hc : p c = true
          · simp only [find?, hc, if_true, Option.some.injEq, Prod.mk.injEq] at h
            obtain ⟨rfl, rfl⟩ := h
            exact ⟨rfl, hc, fun i hi => absurd hi (Nat.not_lt_zero i)⟩
          · simp only [find?, hc, Bool.false_eq_true, if_false] at h
            refine shift h ?_
            rintro b ⟨rfl⟩
            simpa using hc

/-- The search fails only when no occupant satisfies `p`. -/
theorem find?_none {p : α → Bool} {slots : List (Option α)} (h : find? p slots = none) {j : Nat}
    {a : α} (ha : slots[j]? = some (some a)) : p a = false := by
  induction slots generalizing j with
  | nil => simp at ha
  | cons x rest ih =>
      cases x with
      | none =>
          have hrest : find? p rest = none := by simpa [find?] using h
          cases j with
          | zero => simp at ha
          | succ j => exact ih hrest (by simpa using ha)
      | some c =>
          by_cases hc : p c = true
          · simp [find?, hc] at h
          · have hrest : find? p rest = none := by simpa [find?, hc] using h
            cases j with
            | zero =>
                obtain rfl : c = a := by simpa using ha
                simpa using hc
            | succ j => exact ih hrest (by simpa using ha)

/-! ### Occupants and their total weight -/

/-- The records present, in slot order. -/
def occupants (slots : List (Option α)) : List α := slots.filterMap id

@[simp] theorem occupants_nil : occupants ([] : List (Option α)) = [] := rfl

@[simp] theorem occupants_cons_none (rest : List (Option α)) :
    occupants (none :: rest) = occupants rest := rfl

@[simp] theorem occupants_cons_some (a : α) (rest : List (Option α)) :
    occupants (some a :: rest) = a :: occupants rest := rfl

theorem mem_occupants {slots : List (Option α)} {a : α} : a ∈ occupants slots ↔ some a ∈ slots := by
  simp [occupants]

theorem mem_occupants_iff_getElem? {slots : List (Option α)} {a : α} :
    a ∈ occupants slots ↔ ∃ j : Nat, slots[j]? = some (some a) := by
  rw [mem_occupants, List.mem_iff_getElem?]

/-- Changing each occupant keeps the slots occupied. -/
theorem occupants_map (f : α → α) (slots : List (Option α)) :
    occupants (slots.map (Option.map f)) = (occupants slots).map f := by
  induction slots with
  | nil => rfl
  | cons x rest ih =>
      cases x with
      | none => simp [ih]
      | some a => simp [ih]

theorem occupants_replicate_none (n : Nat) :
    occupants (List.replicate n (none : Option α)) = [] := by
  induction n with
  | zero => rfl
  | succ n ih => rw [List.replicate_succ, occupants_cons_none, ih]

/-- Emptying a slot whose occupant a filter rejects does not change what it keeps. -/
theorem filter_occupants_set_none {p : α → Bool} {slots : List (Option α)} {j : Nat} {a : α}
    (ha : slots[j]? = some (some a)) (hp : p a = false) :
    (occupants (slots.set j none)).filter p = (occupants slots).filter p := by
  induction slots generalizing j with
  | nil => simp at ha
  | cons x rest ih =>
      cases j with
      | zero =>
          obtain rfl : x = some a := by simpa using ha
          simp [hp]
      | succ j =>
          have hrest := ih (j := j) (by simpa using ha)
          cases x with
          | none => simpa using hrest
          | some b => simp [List.filter_cons, hrest]

/-- The weight of one slot: an empty slot weighs nothing. -/
def slotWeight [Zero M] (w : α → M) : Option α → M
  | none => 0
  | some a => w a

/-- The sum of a weight over the occupants. -/
def total [AddCommMonoid M] (w : α → M) (slots : List (Option α)) : M :=
  ((occupants slots).map w).sum

@[simp] theorem total_nil [AddCommMonoid M] (w : α → M) : total w [] = 0 := rfl

@[simp] theorem total_cons [AddCommMonoid M] (w : α → M) (x : Option α)
    (rest : List (Option α)) : total w (x :: rest) = slotWeight w x + total w rest := by
  cases x with
  | none => simp [total, slotWeight]
  | some a => simp [total, slotWeight]

/-- **One-slot update law.** Writing a slot exchanges its old weight for its new
one and touches nothing else. -/
theorem total_set [AddCommMonoid M] (w : α → M) {slots : List (Option α)} {j : Nat}
    {x : Option α} (hx : slots[j]? = some x) (y : Option α) :
    total w (slots.set j y) + slotWeight w x = total w slots + slotWeight w y := by
  induction slots generalizing j with
  | nil => simp at hx
  | cons z rest ih =>
      cases j with
      | zero =>
          obtain rfl : z = x := by simpa using hx
          simp only [List.set_cons_zero, total_cons]
          rw [add_right_comm, add_comm (slotWeight w y), add_right_comm, add_comm (slotWeight w z)]
      | succ j =>
          have := ih (j := j) (by simpa using hx)
          simp only [List.set_cons_succ, total_cons]
          rw [add_assoc, this, add_assoc]

/-- The total of a nonnegative weight is nonnegative. -/
theorem total_nonneg {w : α → Int} {slots : List (Option α)}
    (h : ∀ a ∈ occupants slots, 0 ≤ w a) : 0 ≤ total w slots := by
  unfold total
  refine List.sum_nonneg ?_
  intro x hx
  obtain ⟨a, ha, rfl⟩ := List.mem_map.mp hx
  exact h a ha

/-- One occupant's share of a nonnegative total. -/
theorem le_total {w : α → Int} {slots : List (Option α)} {j : Nat} {a : α}
    (ha : slots[j]? = some (some a)) (h : ∀ b ∈ occupants slots, 0 ≤ w b) :
    w a ≤ total w slots := by
  have hset := total_set w ha none
  have hnonneg : 0 ≤ total w (slots.set j none) := by
    refine total_nonneg fun b hb => h b ?_
    obtain ⟨i, hi⟩ := mem_occupants_iff_getElem?.mp hb
    rw [List.getElem?_set] at hi
    split at hi
    · split at hi <;> cases hi
    · exact mem_occupants_iff_getElem?.mpr ⟨i, hi⟩
  simp only [slotWeight, add_zero] at hset
  omega

/-- Counting the occupants that satisfy `q` is a total. -/
theorem total_countP (q : α → Bool) (slots : List (Option α)) :
    total (fun a => if q a then 1 else 0) slots = (occupants slots).countP q := by
  unfold total
  induction occupants slots with
  | nil => rfl
  | cons a rest ih =>
      rw [List.map_cons, List.sum_cons, ih, List.countP_cons]
      omega

/-- Writing a slot exchanges its old share in the number of occupants for its new one. -/
theorem length_occupants_set {slots : List (Option α)} {j : Nat} {x : Option α}
    (hx : slots[j]? = some x) (y : Option α) :
    (occupants (slots.set j y)).length + slotWeight (fun _ => 1) x =
      (occupants slots).length + slotWeight (fun _ => 1) y := by
  have hset := total_set (fun _ => 1) hx y
  simpa [total] using hset

/-! ### Arrays filled from the front -/

/-- No record stands behind an empty slot. -/
def Packed (slots : List (Option α)) : Prop :=
  ∀ j k : Nat, j ≤ k → slots[j]? = some none → ∀ a, slots[k]? ≠ some (some a)

theorem packed_replicate_none (n : Nat) : Packed (List.replicate n (none : Option α)) := by
  intro j k _ _ a hk
  rw [List.getElem?_replicate] at hk
  split at hk <;> cases hk

/-- Writing a slot that has only records before it keeps the array packed. -/
theorem Packed.set {slots : List (Option α)} {j : Nat} (h : Packed slots)
    (hbefore : ∀ i < j, slots[i]? ≠ some none) (a : α) : Packed (slots.set j (some a)) := by
  intro i k hik hi b hk
  have hne : j ≠ i := by
    rintro rfl
    rw [List.getElem?_set_self'] at hi
    cases hslot : slots[j]? <;> simp [hslot] at hi
  rw [List.getElem?_set_ne hne] at hi
  by_cases hjk : j = k
  · subst hjk
    exact hbefore i (by omega) hi
  · rw [List.getElem?_set_ne hjk] at hk
    exact h i k hik hi b hk

/-- A record put in an empty slot of a packed array becomes the last one. -/
theorem occupants_set_of_packed {slots : List (Option α)} {j : Nat} (h : Packed slots)
    (hj : slots[j]? = some none) (a : α) : occupants (slots.set j (some a)) = occupants slots ++ [a] := by
  induction slots generalizing j with
  | nil => simp at hj
  | cons x rest ih =>
      have htail : Packed rest := by
        intro i k hik hi b hk
        exact h (i + 1) (k + 1) (by omega) (by simpa using hi) b (by simpa using hk)
      cases j with
      | zero =>
          obtain rfl : x = none := by simpa using hj
          have hempty : occupants rest = [] := by
            refine List.eq_nil_iff_forall_not_mem.mpr fun b hb => ?_
            obtain ⟨k, hk⟩ := mem_occupants_iff_getElem?.mp hb
            exact h 0 (k + 1) (by omega) rfl b (by simpa using hk)
          simp [hempty]
      | succ j =>
          have hrest := ih htail (j := j) (by simpa using hj)
          cases x with
          | none => simpa using hrest
          | some b => simp [hrest]

end Slots
