import Mantis.Queue.RingEngine

/-!
# Mantis.Queue.Teardown

The end of a ring: `drop_range` (`crates/queue/src/raw/mod.rs`) and `Drop for RingEngine`
(`crates/queue/src/engine.rs`). The loop of `drop_range` has no counter; it ends when the
wrapping tail meets the head, which it does after as many turns as there are slots between
them.

When the ring is dropped no call is in progress, so what the `Ledger` says was accepted and
handed out and the dropped slots account for every value.
-/

namespace Mantis

open Runs

variable {α : Type}

/-! ### The loop -/

/-- `drop_range`: the slots dropped and what they held, in order; `none` when the loop is
still running after `fuel` tests of its condition. -/
def dropRange? (strategy : IndexStrategy) (cap : Nat) (slots : Nat → α) :
    Nat → Nat → Nat → Option (List (Nat × α))
  | 0, _, _ => none
  | fuel + 1, tail, head =>
      if tail = head then some []
      else
        (dropRange? strategy cap slots fuel (strategy.wrap (tail + 1) cap) head).map
          ((tail, slots tail) :: ·)

/-- `Drop for RingEngine`. -/
def Ring.drop? (cfg : RingConfig) (r : Ring α) (fuel : Nat) : Option (List (Nat × α)) :=
  let head := r.producer.head
  let tail := r.consumer.tail
  dropRange? cfg.strategy cfg.cap r.slots fuel tail head

/-- The loop walks the arc from the tail to a head `n` slots ahead. -/
theorem dropRange?_arc {strategy : IndexStrategy} {cap : Nat}
    (hcap : strategy = .pow2Masked → cap.isPowerOfTwo) (slots : Nat → α) {fuel tail n : Nat}
    (htail : tail < cap) (hn : n < cap) (hfuel : n < fuel) :
    dropRange? strategy cap slots fuel tail ((tail + n) % cap) =
      some (Spsc.arc cap slots tail n) := by
  induction n generalizing fuel tail with
  | zero =>
      obtain ⟨fuel, rfl⟩ := Nat.exists_eq_succ_of_ne_zero (Nat.ne_of_gt hfuel)
      have hmeet : tail = (tail + 0) % cap := (Nat.mod_eq_of_lt htail).symm
      rw [dropRange?, if_pos hmeet, Spsc.arc_zero]
  | succ n ih =>
      obtain ⟨fuel, rfl⟩ := Nat.exists_eq_succ_of_ne_zero (Nat.ne_of_gt (Nat.zero_lt_of_lt hfuel))
      have hpos : 0 < cap := Nat.zero_lt_of_lt hn
      have hapart : tail ≠ (tail + (n + 1)) % cap := by
        have hahead : tail < tail + (n + 1) := Nat.lt_add_of_pos_right (Nat.succ_pos n)
        have hne : tail % cap ≠ (tail + (n + 1)) % cap := Spsc.slot_ne hahead (by omega)
        rwa [Nat.mod_eq_of_lt htail] at hne
      have hhead : (tail + (n + 1)) % cap = ((tail + 1) % cap + n) % cap := by
        rw [Nat.mod_add_mod]
        congr 1
        omega
      rw [dropRange?, if_neg hapart, IndexStrategy.wrap_next hcap htail, hhead,
        ih (Nat.mod_lt _ hpos) (by omega) (by omega), Spsc.arc_mod, Spsc.arc_succ,
        Nat.mod_eq_of_lt htail, Option.map_some]

/-- Any two positions below the capacity: the distance to the head is the length. -/
theorem dropRange?_eq {strategy : IndexStrategy} {cap : Nat}
    (hcap : strategy = .pow2Masked → cap.isPowerOfTwo) (slots : Nat → α) {fuel tail head : Nat}
    (htail : tail < cap) (hhead : head < cap) (hfuel : cap ≤ fuel) :
    dropRange? strategy cap slots fuel tail head =
      some (Spsc.arc cap slots tail ((head + cap - tail) % cap)) := by
  have hpos : 0 < cap := Nat.zero_lt_of_lt htail
  have hlt := Nat.mod_lt (head + cap - tail) hpos
  have hmeet : (tail + (head + cap - tail) % cap) % cap = head := by
    rw [Nat.add_mod_mod, Nat.add_sub_cancel' (by omega), Nat.add_mod_right,
      Nat.mod_eq_of_lt hhead]
  have harc := dropRange?_arc hcap slots htail hlt (Nat.lt_of_lt_of_le hlt hfuel)
  rwa [hmeet] at harc

/-! ### The states of the protocol -/

/-- Whatever the threads are doing, the published and unreleased values are what the loop
would drop. -/
theorem Ring.Sim.drop?_eq {cfg : RingConfig} {r : Ring α} {a : Spsc.State α} (h : r.Sim cfg a)
    {fuel : Nat} (hfuel : cfg.cap ≤ fuel) :
    r.drop? cfg fuel = some r.waiting ∧ (r.waiting.map Prod.fst).Nodup := by
  have hpos := cfg.cap_pos
  have hle : a.consumer.taken.length ≤ a.producer.published.length := by
    simpa using h.inv.taken_prefix.length_le
  have hround := h.inv.waiting_le
  have hwaiting : r.waiting = Spsc.arc cfg.cap r.slots a.consumer.taken.length
      (a.producer.published.length - a.consumer.taken.length) := by
    rw [Ring.waiting, h.producer.pushed, h.consumer.popped, h.slots]
    exact h.inv.waiting_eq_arc
  have hhead : r.producer.head = (r.consumer.tail +
      (a.producer.published.length - a.consumer.taken.length)) % cfg.cap := by
    rw [h.producer.head, h.consumer.tail, Nat.mod_add_mod, Nat.add_sub_cancel' hle]
  have htail : r.consumer.tail < cfg.cap := by
    rw [h.consumer.tail]
    exact Nat.mod_lt _ hpos
  rw [hwaiting]
  constructor
  · rw [Ring.drop?, hhead, dropRange?_arc (fun _ => cfg.cap_isPowerOfTwo) r.slots htail (by omega)
      (by omega), h.consumer.tail, Spsc.arc_mod]
  · exact Spsc.arc_nodup r.slots (by omega)

/-! ### The end of a ring -/

/-- Neither thread is in a call: `drop` has the engine to itself. -/
def RingEngine.Idle (s : RingEngine α) : Prop :=
  (∃ last, s.producer = .idle last) ∧ ∃ last, s.consumer = .idle last

/-- What has been handed out and what is still waiting is what was accepted, in order. -/
theorem Ledger.Balanced.idle {l : Ledger α} {cfg : RingConfig} (h : l.Balanced)
    (hexplained : l.engine.Explained cfg) (hidle : l.engine.Idle) :
    l.handedOut ++ l.engine.ring.waiting.map Prod.snd = l.accepted := by
  obtain ⟨⟨lastPush, hproducer⟩, lastPop, hconsumer⟩ := hidle
  have haccepted := h.producer
  have hhanded := h.consumer
  rw [hproducer, ProducerThread.Balanced] at haccepted
  rw [hconsumer, ConsumerThread.Balanced] at hhanded
  obtain ⟨a, hsim⟩ := hexplained
  have hprefix : l.engine.ring.consumer.popped <+: l.engine.ring.producer.pushed.map Prod.snd := by
    rw [hsim.ring.consumer.popped, hsim.ring.producer.pushed]
    exact hsim.ring.inv.taken_prefix
  rw [← haccepted, ← hhanded, Ring.waiting, List.map_drop]
  exact List.prefix_append_drop hprefix |>.symm

/-- **Teardown.** From any two positions below any capacity the loop ends within a round
and visits each slot from the tail up to the head once. In every state of every schedule it
drops exactly the published and unpopped values, from their own slots, oldest first, and no
slot twice. When no call is in progress, as `drop` requires, what the pops have returned
and what is dropped is what the pushes have accepted, each value once. -/
theorem teardown_exact :
    (∀ (strategy : IndexStrategy) (cap : Nat) (slots : Nat → α) (tail head fuel : Nat),
      (strategy = .pow2Masked → cap.isPowerOfTwo) → tail < cap → head < cap → cap ≤ fuel →
        dropRange? strategy cap slots fuel tail head =
            some (Spsc.arc cap slots tail ((head + cap - tail) % cap)) ∧
          ((Spsc.arc cap slots tail ((head + cap - tail) % cap)).map Prod.fst).Nodup) ∧
      ∀ (cfg : RingConfig) (slots : Nat → α) (schedule : List (RingEngine.Action α))
        (fuel : Nat), cfg.cap ≤ fuel →
        let l := run (Ledger.step cfg) (.new slots) schedule
        l.engine = run (RingEngine.step cfg) (.new slots) schedule ∧
          l.engine.ring.drop? cfg fuel = some l.engine.ring.waiting ∧
          (l.engine.ring.waiting.map Prod.fst).Nodup ∧
          (l.engine.Idle →
            l.handedOut ++ l.engine.ring.waiting.map Prod.snd = l.accepted) := by
  constructor
  · intro strategy cap slots tail head fuel hcap htail hhead hfuel
    have hlt := Nat.mod_lt (head + cap - tail) (Nat.zero_lt_of_lt htail)
    exact ⟨dropRange?_eq hcap slots htail hhead hfuel, Spsc.arc_nodup slots (Nat.le_of_lt hlt)⟩
  · intro cfg slots schedule fuel hfuel l
    have hengine : l.engine = run (RingEngine.step cfg) (.new slots) schedule :=
      Ledger.run_engine cfg (.new slots) schedule
    have hexplained : l.engine.Explained cfg := by
      rw [hengine]
      exact (always_of_step (fun _ act hs => hs.step act) (RingEngine.explained_new cfg slots)
        schedule).last
    obtain ⟨a, hsim⟩ := hexplained
    obtain ⟨hdrop, hnodup⟩ := hsim.ring.drop?_eq hfuel
    exact ⟨hengine, hdrop, hnodup, (Ledger.balanced_run cfg slots schedule).idle ⟨a, hsim⟩⟩

/-- A value pushed around the end of two slots is still there when the ring is dropped. -/
theorem teardown_exact_two_slots :
    let l := run (Ledger.step (.branching 1 false)) (.new fun _ => 0)
      [.push 7, .producer, .producer, .producer, .pop, .consumer, .consumer, .consumer,
        .consumer, .tryPush 8, .producer, .producer, .producer, .producer]
    dropRange? .branchWrap 3 (fun i => i) 3 2 1 = some (Spsc.arc 3 (fun i => i) 2 2) ∧
      l.engine.ring.drop? (.branching 1 false) 2 = some l.engine.ring.waiting ∧
      l.handedOut ++ l.engine.ring.waiting.map Prod.snd = l.accepted :=
  have hrun := teardown_exact.2 (.branching 1 false) (fun _ => 0)
    [.push 7, .producer, .producer, .producer, .pop, .consumer, .consumer, .consumer,
      .consumer, .tryPush 8, .producer, .producer, .producer, .producer] 2 (by decide)
  ⟨(teardown_exact.1 .branchWrap 3 (fun i => i) 2 1 3 (by decide) (by decide) (by decide)
      (by decide)).1,
    hrun.2.1, hrun.2.2.2 ⟨⟨_, rfl⟩, _, rfl⟩⟩

example : (run (Ledger.step (.branching 1 false)) (.new fun _ => 0)
      [.push 7, .producer, .producer, .producer, .pop, .consumer, .consumer, .consumer,
        .consumer, .tryPush 8, .producer, .producer, .producer, .producer]).engine.ring.drop?
      (.branching 1 false) 2 = some [(1, 8)] := by decide

end Mantis
