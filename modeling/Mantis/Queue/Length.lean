import Mantis.Queue.CopyRing
import Mantis.Queue.Linearizable
import Mathlib.Data.Int.ModEq

/-!
# Mantis.Queue.Length

`len` and `is_empty` while the threads of a ring are at work (`crates/queue/src/engine.rs`,
`crates/queue/src/handle.rs`). `len` loads the head and then the tail, so a thread that may
not be either of the two computes a distance between indices of two moments.
`len_between` says what the answer is, wherever the two loads fall in a schedule: the values
published by the first load less those taken by the second, modulo the capacity.

It is exact on the consumer's thread, which takes nothing between the loads, and on the
producer's, which publishes nothing. On another thread it is at most what the ring held at
either load, unless the consumer has in the meantime passed the head that was loaded; then
the difference goes around the ring and a ring that is nearly empty reports that it is
nearly full.
-/

namespace Mantis

open Runs

variable {α : Type}

/-- `len` on the indices it has loaded. -/
def lenOf (cap head tail : Nat) : Nat := (head + cap - tail) % cap

theorem Ring.len_eq_lenOf (cfg : RingConfig) (r : Ring α) :
    r.len cfg = lenOf cfg.cap r.producer.head r.consumer.tail := rfl

/-- The copy ring computes the same with a branch. -/
theorem ringLen_eq_lenOf {cap head tail : Nat} (hhead : head < cap) (htail : tail < cap) :
    ringLen cap head tail = some (lenOf cap head tail) := by
  simp only [ringLen, checkedSub, lenOf]
  split
  · next hle =>
      rw [show head + cap - tail = head - tail + cap by omega, Nat.add_mod_right,
        Nat.mod_eq_of_lt (by omega)]
  · rw [if_pos (by omega), Option.map_some, Nat.mod_eq_of_lt (by omega)]
    congr 1
    omega

/-- Indices stand for positions that never wrap; their distance is taken modulo the capacity. -/
theorem lenOf_positions {cap : Nat} (hpos : 0 < cap) (pushed popped : Nat) :
    (lenOf cap (pushed % cap) (popped % cap) : Int) = ((pushed : Int) - popped) % cap := by
  have hlt := Nat.mod_lt popped hpos
  rw [lenOf, Int.natCast_emod, Nat.cast_sub (by omega)]
  push_cast
  rw [add_sub_right_comm, Int.add_emod_right, ← Int.sub_emod]

/-- The consumer has not passed the head that was loaded. -/
theorem lenOf_of_le {cap : Nat} {pushed popped : Nat} (hle : popped ≤ pushed)
    (hround : pushed < popped + cap) :
    lenOf cap (pushed % cap) (popped % cap) = pushed - popped := by
  have hpos : 0 < cap := by omega
  have hcast := lenOf_positions hpos pushed popped
  rw [Int.emod_eq_of_lt (by omega) (by omega)] at hcast
  omega

/-- The indices of a ring stand for the lengths of its logs, less than a round apart. -/
structure Ring.Indices (cfg : RingConfig) (r : Ring α) : Prop where
  head : r.producer.head = r.producer.pushed.length % cfg.cap
  tail : r.consumer.tail = r.consumer.popped.length % cfg.cap
  popped_le : r.consumer.popped.length ≤ r.producer.pushed.length
  pushed_lt : r.producer.pushed.length < r.consumer.popped.length + cfg.cap

/-- The distance between the indices of two moments, unless the later tail has passed the
earlier head. -/
theorem Ring.Indices.lenOf_eq {cfg : RingConfig} {first second : Ring α}
    (h₁ : first.Indices cfg) (h₂ : second.Indices cfg)
    (hpopped : first.consumer.popped.length ≤ second.consumer.popped.length)
    (hle : second.consumer.popped.length ≤ first.producer.pushed.length) :
    lenOf cfg.cap first.producer.head second.consumer.tail =
      first.producer.pushed.length - second.consumer.popped.length := by
  have hround := h₁.pushed_lt
  rw [h₁.head, h₂.tail]
  exact lenOf_of_le hle (by omega)

/-! ### What the threads do to each other's indices -/

theorem Ring.pushStep_consumer (cfg : RingConfig) (r : Ring α) (pc : PushPc α) :
    (r.pushStep cfg pc).1.consumer = r.consumer := by
  cases pc with
  | compare value head nextHead | refresh value head nextHead | publish value head nextHead =>
      simp only [Ring.pushStep]
      split <;> rfl
  | write value head nextHead | setLocal nextHead => rfl

theorem Ring.popStep_producer (cfg : RingConfig) (r : Ring α) (pc : PopPc α) :
    (r.popStep cfg pc).1.producer = r.producer := by
  obtain ⟨-, -, -, hline⟩ := r.popStep_ledger cfg pc
  exact hline

theorem Ring.pushed_le_pushStep (cfg : RingConfig) (r : Ring α) (pc : PushPc α) :
    r.producer.pushed.length ≤ (r.pushStep cfg pc).1.producer.pushed.length := by
  cases pc with
  | compare value head nextHead | refresh value head nextHead =>
      simp only [Ring.pushStep]
      split <;> exact le_refl _
  | publish value head nextHead =>
      simp only [Ring.pushStep]
      split <;> simp
  | write value head nextHead | setLocal nextHead => exact le_refl _

theorem Ring.popped_le_popStep (cfg : RingConfig) (r : Ring α) (pc : PopPc α) :
    r.consumer.popped.length ≤ (r.popStep cfg pc).1.consumer.popped.length := by
  obtain ⟨new, hpopped, -, -⟩ := r.popStep_ledger cfg pc
  rw [hpopped, List.length_append]
  exact Nat.le_add_right ..

namespace RingEngine

variable {cfg : RingConfig} {s : RingEngine α} {act : Action α}

/-- A step of the producer leaves the ring, or is a step of a push. -/
theorem producerStep_ring (cfg : RingConfig) (s : RingEngine α) :
    (s.producerStep cfg).ring = s.ring ∨
      ∃ pc, (s.producerStep cfg).ring = (s.ring.pushStep cfg pc).1 := by
  cases hthread : s.producer with
  | idle last => exact Or.inl (by simp only [RingEngine.producerStep, hthread])
  | running call value pc =>
      refine Or.inr ⟨pc, ?_⟩
      simp only [RingEngine.producerStep, hthread]
      rcases s.ring.pushStep cfg pc with ⟨ring, pc' | ok⟩ <;> rfl

theorem consumerStep_ring (cfg : RingConfig) (s : RingEngine α) :
    (s.consumerStep cfg).ring = s.ring ∨
      ∃ pc, (s.consumerStep cfg).ring = (s.ring.popStep cfg pc).1 := by
  cases hthread : s.consumer with
  | idle last => exact Or.inl (by simp only [RingEngine.consumerStep, hthread])
  | running call pc =>
      refine Or.inr ⟨pc, ?_⟩
      simp only [RingEngine.consumerStep, hthread]
      rcases s.ring.popStep cfg pc with ⟨ring, pc' | value⟩ <;> rfl

/-- Starting a call leaves the ring. -/
theorem start_ring (hproducer : act.isStepOf .producer = false)
    (hconsumer : act.isStepOf .consumer = false) : (s.step cfg act).ring = s.ring := by
  cases act with
  | producer => cases hproducer
  | consumer => cases hconsumer
  | push value | tryPush value =>
      simp only [RingEngine.step, RingEngine.startPush]
      split <;> rfl
  | pop | tryPop =>
      simp only [RingEngine.step, RingEngine.startPop]
      split <;> rfl

/-- The consumer takes only in its own steps. -/
theorem consumer_line (hact : act.isStepOf .consumer = false) :
    (s.step cfg act).ring.consumer = s.ring.consumer := by
  cases hown : act.isStepOf .producer with
  | false => rw [start_ring hown hact]
  | true =>
      cases act <;> cases hown
      rcases s.producerStep_ring cfg with hring | ⟨pc, hring⟩
      · exact congrArg Ring.consumer hring
      · exact (congrArg Ring.consumer hring).trans (s.ring.pushStep_consumer cfg pc)

/-- The producer publishes only in its own steps. -/
theorem producer_line (hact : act.isStepOf .producer = false) :
    (s.step cfg act).ring.producer = s.ring.producer := by
  cases hown : act.isStepOf .consumer with
  | false => rw [start_ring hact hown]
  | true =>
      cases act <;> cases hown
      rcases s.consumerStep_ring cfg with hring | ⟨pc, hring⟩
      · exact congrArg Ring.producer hring
      · exact (congrArg Ring.producer hring).trans (s.ring.popStep_producer cfg pc)

/-- Nothing published is withdrawn, and nothing taken is given back. -/
theorem logs_le_step (cfg : RingConfig) (s : RingEngine α) (act : Action α) :
    s.ring.producer.pushed.length ≤ (s.step cfg act).ring.producer.pushed.length ∧
      s.ring.consumer.popped.length ≤ (s.step cfg act).ring.consumer.popped.length := by
  constructor
  · cases hown : act.isStepOf .producer with
    | false => rw [producer_line hown]
    | true =>
        cases act <;> cases hown
        rcases s.producerStep_ring cfg with hring | ⟨pc, hring⟩
        · rw [RingEngine.step, hring]
        · rw [RingEngine.step, hring]
          exact s.ring.pushed_le_pushStep cfg pc
  · cases hown : act.isStepOf .consumer with
    | false => rw [consumer_line hown]
    | true =>
        cases act <;> cases hown
        rcases s.consumerStep_ring cfg with hring | ⟨pc, hring⟩
        · rw [RingEngine.step, hring]
        · rw [RingEngine.step, hring]
          exact s.ring.popped_le_popStep cfg pc

theorem logs_le_run (cfg : RingConfig) (s : RingEngine α) (schedule : List (Action α)) :
    s.ring.producer.pushed.length ≤
        (run (step cfg) s schedule).ring.producer.pushed.length ∧
      s.ring.consumer.popped.length ≤
        (run (step cfg) s schedule).ring.consumer.popped.length := by
  induction schedule generalizing s with
  | nil => exact ⟨le_refl _, le_refl _⟩
  | cons act schedule ih =>
      obtain ⟨hpushed, hpopped⟩ := s.logs_le_step cfg act
      obtain ⟨hpushed', hpopped'⟩ := ih (s.step cfg act)
      exact ⟨hpushed.trans hpushed', hpopped.trans hpopped'⟩

theorem consumer_line_run {schedule : List (Action α)}
    (hquiet : schedule.countP (Action.isStepOf .consumer) = 0) :
    (run (step cfg) s schedule).ring.consumer = s.ring.consumer := by
  induction schedule generalizing s with
  | nil => rfl
  | cons act schedule ih =>
      rw [List.countP_eq_zero] at hquiet ih
      rw [run_cons, ih (fun act' hact' => hquiet act' (List.mem_cons_of_mem _ hact'))]
      exact consumer_line (by simpa using hquiet act List.mem_cons_self)

theorem producer_line_run {schedule : List (Action α)}
    (hquiet : schedule.countP (Action.isStepOf .producer) = 0) :
    (run (step cfg) s schedule).ring.producer = s.ring.producer := by
  induction schedule generalizing s with
  | nil => rfl
  | cons act schedule ih =>
      rw [List.countP_eq_zero] at hquiet ih
      rw [run_cons, ih (fun act' hact' => hquiet act' (List.mem_cons_of_mem _ hact'))]
      exact producer_line (by simpa using hquiet act List.mem_cons_self)

/-! ### The answer -/

theorem explained_run (cfg : RingConfig) (slots : Nat → α) (schedule : List (Action α)) :
    (run (step cfg) (new slots) schedule).Explained cfg :=
  (always_of_step (fun _ act hs => hs.step act) (explained_new cfg slots) schedule).last

theorem Explained.indices (h : s.Explained cfg) : s.ring.Indices cfg := by
  obtain ⟨a, hsim⟩ := h
  have hpos := cfg.cap_pos
  have hround := hsim.ring.inv.waiting_le
  rw [← hsim.ring.producer.pushed, ← hsim.ring.consumer.popped] at hround
  refine ⟨?_, ?_, ?_, by omega⟩
  · rw [hsim.ring.producer.head, hsim.ring.producer.pushed]
  · rw [hsim.ring.consumer.tail, hsim.ring.consumer.popped]
  · simpa using hsim.ring.logs.1.length_le

/-- **`len` at two moments.** The head is loaded after any schedule `before` and the tail
after any `between` more actions. The answer is below the capacity, and is what was
published by the first load less what was taken by the second, modulo the capacity. If the
consumer has not passed the loaded head by then, it is that difference, and at most what the
ring held at either load. It is exact at the first load when the consumer takes no step in
between, and exact at the second when the producer takes none. The copy ring's formula gives
the same answer. -/
theorem len_between (cfg : RingConfig) (slots : Nat → α) (before between : List (Action α)) :
    let first := (run (step cfg) (new slots) before).ring
    let second := (run (step cfg) (new slots) (before ++ between)).ring
    let len := lenOf cfg.cap first.producer.head second.consumer.tail
    len < cfg.cap ∧
      (len : Int) =
        ((first.producer.pushed.length : Int) - second.consumer.popped.length) % cfg.cap ∧
      (second.consumer.popped.length ≤ first.producer.pushed.length →
        len = first.producer.pushed.length - second.consumer.popped.length ∧
          len ≤ first.contents.length ∧ len ≤ second.contents.length) ∧
      (between.countP (Action.isStepOf .consumer) = 0 → len = first.contents.length) ∧
      (between.countP (Action.isStepOf .producer) = 0 → len = second.contents.length) ∧
      ringLen cfg.cap first.producer.head second.consumer.tail = some len := by
  intro first second len
  have hpos := cfg.cap_pos
  have h₁ : first.Indices cfg := (explained_run cfg slots before).indices
  have h₂ : second.Indices cfg := (explained_run cfg slots (before ++ between)).indices
  have hsecond : second = (run (step cfg) (run (step cfg) (new slots) before) between).ring :=
    congrArg RingEngine.ring (run_append ..)
  obtain ⟨hpushed, hpopped⟩ := logs_le_run cfg (run (step cfg) (new slots) before) between
  rw [← hsecond] at hpushed hpopped
  refine ⟨Nat.mod_lt _ hpos, ?_, ?_, ?_, ?_, ?_⟩
  · show (lenOf cfg.cap first.producer.head second.consumer.tail : Int) = _
    rw [h₁.head, h₂.tail, lenOf_positions hpos]
  · intro hle
    have hlen : len = _ := h₁.lenOf_eq h₂ hpopped hle
    rw [first.length_contents, second.length_contents, hlen]
    exact ⟨rfl, Nat.sub_le_sub_left hpopped _, Nat.sub_le_sub_right hpushed _⟩
  · intro hquiet
    have hline : second.consumer = first.consumer := by
      rw [hsecond]
      exact consumer_line_run hquiet
    have hlen : len = _ := h₁.lenOf_eq h₂ hpopped (hline ▸ h₁.popped_le)
    rw [hlen, hline, first.length_contents]
  · intro hquiet
    have hline : second.producer = first.producer := by
      rw [hsecond]
      exact producer_line_run hquiet
    have hlen : len = _ := h₁.lenOf_eq h₂ hpopped (hline ▸ h₂.popped_le)
    rw [hlen, ← hline, second.length_contents]
  · refine ringLen_eq_lenOf ?_ ?_
    · rw [h₁.head]
      exact Nat.mod_lt _ hpos
    · rw [h₂.tail]
      exact Nat.mod_lt _ hpos

/-- A ring that never holds more than one value, observed between the loads of `len`: a push
and a pop are complete, and the answer is three. -/
example :
    let before : List (Action Nat) := []
    let between : List (Action Nat) := [.push 7, .producer, .producer, .producer, .pop, .consumer,
      .consumer, .consumer, .consumer]
    lenOf 4 (run (step (.masked 2 false)) (new fun _ => 0) before).ring.producer.head
      (run (step (.masked 2 false)) (new fun _ => 0) (before ++ between)).ring.consumer.tail = 3 := by
  decide

end RingEngine

end Mantis
