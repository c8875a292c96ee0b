import Mathlib.Data.List.TakeDrop

/-!
# Bounded FIFO queues

A queue that holds at most `cap` elements, as a list that carries its bound. Pushing
to a full queue and popping from an empty one fail and change nothing. `pushAll` and
`popAll` iterate the single operations until one fails; `pushAll_items` and
`popAll_items` say what that amounts to.

`outputs` is the sequence of answers a sequential object gives to a sequence of calls.
Two objects related by a simulation give the same answers (`outputs_eq`), which is how
an implementation is shown to be a bounded queue.
-/

/-! ### Sequential objects -/

namespace Objects

variable {σ τ ι ο : Type*}

/-- The answers to a sequence of calls. -/
def outputs (call : σ → ι → σ × ο) : σ → List ι → List ο
  | _, [] => []
  | s, i :: is => (call s i).2 :: outputs call (call s i).1 is

/-- The state after a sequence of calls. -/
def final (call : σ → ι → σ × ο) : σ → List ι → σ
  | s, [] => s
  | s, i :: is => final call (call s i).1 is

/-- Related states give equal answers to every call and stay related. -/
def Simulates (R : σ → τ → Prop) (call : σ → ι → σ × ο) (spec : τ → ι → τ × ο) : Prop :=
  ∀ s t i, R s t → (call s i).2 = (spec t i).2 ∧ R (call s i).1 (spec t i).1

variable {R : σ → τ → Prop} {call : σ → ι → σ × ο} {spec : τ → ι → τ × ο} {s : σ} {t : τ}

/-- **Simulation.** Related states cannot be told apart by any sequence of calls. -/
theorem Simulates.outputs_eq (h : Simulates R call spec) (hrel : R s t) (is : List ι) :
    outputs call s is = outputs spec t is := by
  induction is generalizing s t with
  | nil => rfl
  | cons i is ih =>
      obtain ⟨hanswer, hnext⟩ := h s t i hrel
      simp only [outputs]
      rw [hanswer, ih hnext]

theorem Simulates.final (h : Simulates R call spec) (hrel : R s t) (is : List ι) :
    R (final call s is) (final spec t is) := by
  induction is generalizing s t with
  | nil => exact hrel
  | cons i is ih => exact ih (h s t i hrel).2

end Objects

/-! ### Bounded queues -/

/-- A queue of at most `cap` elements, oldest first. -/
@[ext] structure Fifo (α : Type*) (cap : Nat) where
  items : List α
  length_le : items.length ≤ cap

namespace Fifo

variable {α : Type*} {cap : Nat}

def empty : Fifo α cap := ⟨[], Nat.zero_le cap⟩

/-- Append one element; `false` when the queue is full. -/
def push (q : Fifo α cap) (v : α) : Fifo α cap × Bool :=
  if h : q.items.length < cap then
    (⟨q.items ++ [v], by rw [List.length_append, List.length_singleton]; exact h⟩, true)
  else (q, false)

/-- Take the oldest element; `none` when the queue is empty. -/
def pop (q : Fifo α cap) : Fifo α cap × Option α :=
  (⟨q.items.tail, Nat.le_trans (by simp) q.length_le⟩, q.items.head?)

/-- Push one element after the other until one does not fit; the number pushed. -/
def pushAll (q : Fifo α cap) : List α → Fifo α cap × Nat
  | [] => (q, 0)
  | v :: vs =>
      match q.push v with
      | (q, true) => ((q.pushAll vs).1, (q.pushAll vs).2 + 1)
      | (q, false) => (q, 0)

/-- Pop up to `n` times, until the queue is empty; the elements popped. -/
def popAll (q : Fifo α cap) : Nat → Fifo α cap × List α
  | 0 => (q, [])
  | n + 1 =>
      match q.pop with
      | (q, some v) => ((q.popAll n).1, v :: (q.popAll n).2)
      | (q, none) => (q, [])

theorem push_of_lt {q : Fifo α cap} (h : q.items.length < cap) (v : α) :
    (q.push v).1.items = q.items ++ [v] ∧ (q.push v).2 = true := by
  simp only [push]
  rw [dif_pos h]
  exact ⟨rfl, rfl⟩

theorem push_of_full {q : Fifo α cap} (h : ¬ q.items.length < cap) (v : α) :
    q.push v = (q, false) := by
  simp only [push]
  rw [dif_neg h]

/-- **Iterated push.** As many elements as there are free places, from the front. -/
theorem pushAll_items (q : Fifo α cap) (vs : List α) :
    (q.pushAll vs).1.items = q.items ++ vs.take (min vs.length (cap - q.items.length)) ∧
      (q.pushAll vs).2 = min vs.length (cap - q.items.length) := by
  induction vs generalizing q with
  | nil => simp [pushAll]
  | cons v vs ih =>
      by_cases hroom : q.items.length < cap
      · obtain ⟨hitems, hok⟩ := push_of_lt hroom v
        obtain ⟨hrest, hcount⟩ := ih (q.push v).1
        have hpush : q.push v = ((q.push v).1, true) := by rw [← hok]
        have hfree : min (v :: vs).length (cap - q.items.length) =
            min vs.length (cap - (q.push v).1.items.length) + 1 := by
          rw [hitems, List.length_append, List.length_singleton, List.length_cons]
          omega
        simp only [pushAll]
        rw [hpush, hfree]
        dsimp only
        refine ⟨?_, ?_⟩
        · rw [hrest, hitems, List.take_succ_cons, List.append_assoc]
          rfl
        · rw [hcount]
      · have hfree : cap - q.items.length = 0 := by omega
        simp only [pushAll]
        rw [push_of_full hroom, hfree]
        simp

/-- **Iterated pop.** The oldest elements, as many as asked for and held. -/
theorem popAll_items (q : Fifo α cap) (n : Nat) :
    (q.popAll n).1.items = q.items.drop n ∧ (q.popAll n).2 = q.items.take n := by
  induction n generalizing q with
  | zero => simp [popAll]
  | succ n ih =>
      obtain ⟨items, hle⟩ := q
      cases items with
      | nil => simp [popAll, pop]
      | cons v items =>
          obtain ⟨hrest, hout⟩ := ih ⟨items, Nat.le_trans (Nat.le_succ _) hle⟩
          simp only [popAll, pop, List.head?_cons, List.tail_cons, List.drop_succ_cons,
            List.take_succ_cons]
          exact ⟨hrest, by rw [hout]⟩

end Fifo
