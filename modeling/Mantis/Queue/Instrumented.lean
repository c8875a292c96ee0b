import Mantis.Queue.CopySequential

/-!
# Mantis.Queue.Instrumented

`CopyRingEngine` with its measurement hooks (`Instrumentation` and `CountingInstr` in
`crates/core/src/lib.rs`), as the preset `SpscRingCopyInstrumented` has it.

`push` and `pop` call a hook on each of their paths; `push_batch` and `pop_batch` call
none. So the counters agree with the queue exactly as long as no batch moves an element,
and as the counters do not wrap.
-/

namespace Mantis

open Objects Runs

/-! ### Hooks -/

/-- Measurement hooks, each called after the event it is named after. -/
class Instrumentation (I : Type) where
  onPush : I → I
  onPop : I → I
  onPushFull : I → I
  onPopEmpty : I → I

/-- Counts push and pop operations. -/
structure CountingInstr where
  pushes : UInt64
  pops : UInt64
  pushFull : UInt64
  popEmpty : UInt64
  deriving DecidableEq, Repr

namespace CountingInstr

/-- All counters at zero. -/
def new : CountingInstr := ⟨0, 0, 0, 0⟩

/-- Total successful pushes. -/
def pushCount (c : CountingInstr) : UInt64 := c.pushes

/-- Total successful pops. -/
def popCount (c : CountingInstr) : UInt64 := c.pops

instance : Instrumentation CountingInstr where
  onPush c := { c with pushes := c.pushes + 1 }
  onPop c := { c with pops := c.pops + 1 }
  onPushFull c := { c with pushFull := c.pushFull + 1 }
  onPopEmpty c := { c with popEmpty := c.popEmpty + 1 }

end CountingInstr

namespace CopyRingEngine

/-! ### Instrumented calls -/

/-- A ring with its instrumentation. -/
structure Instrumented (α I : Type) where
  ring : Ring α
  instr : I

variable {α I : Type} [Instrumentation I]

open Instrumentation

namespace Instrumented

def push (cfg : RingConfig) (s : Instrumented α I) (value : α) : Instrumented α I × Bool :=
  match s.ring.push cfg value with
  | (ring, true) => (⟨ring, onPush s.instr⟩, true)
  | (ring, false) => (⟨ring, onPushFull s.instr⟩, false)

def pop (cfg : RingConfig) (s : Instrumented α I) : Instrumented α I × Option α :=
  match s.ring.pop cfg with
  | (ring, some value) => (⟨ring, onPop s.instr⟩, some value)
  | (ring, none) => (⟨ring, onPopEmpty s.instr⟩, none)

/-- One call; the batches have no hook. -/
def call (cfg : RingConfig) (s : Instrumented α I) : Call α → Instrumented α I × Answer α
  | .push value => ((s.push cfg value).1, .pushed (s.push cfg value).2)
  | .pop => ((s.pop cfg).1, .popped (s.pop cfg).2)
  | .pushBatch src =>
      match s.ring.pushBatch cfg src with
      | some (ring, n) => ({ s with ring }, .accepted n)
      | none => (s, .panicked)
  | .popBatch dst =>
      match s.ring.popBatch cfg dst with
      | some (ring, dst, n) => ({ s with ring }, .filled dst n)
      | none => (s, .panicked)
  | .len =>
      match len cfg s.ring with
      | some n => (s, .len n)
      | none => (s, .panicked)

end Instrumented

/-- What the hooks do in a call that gives this answer. -/
def hooks (instr : I) : Answer α → I
  | .pushed true => onPush instr
  | .pushed false => onPushFull instr
  | .popped (some _) => onPop instr
  | .popped none => onPopEmpty instr
  | .accepted _ | .filled _ _ | .len _ | .panicked => instr

/-- **Instrumentation only watches.** An instrumented call is the call on the ring, and its
hooks depend on the answer alone. -/
theorem Instrumented.call_eq (cfg : RingConfig) (s : Instrumented α I) (c : Call α) :
    s.call cfg c =
      (⟨(CopyRingEngine.call cfg s.ring c).1, hooks s.instr (CopyRingEngine.call cfg s.ring c).2⟩,
        (CopyRingEngine.call cfg s.ring c).2) := by
  cases c with
  | push value =>
      simp only [Instrumented.call, Instrumented.push, CopyRingEngine.call]
      rcases s.ring.push cfg value with ⟨ring, _ | _⟩ <;> rfl
  | pop =>
      simp only [Instrumented.call, Instrumented.pop, CopyRingEngine.call]
      rcases s.ring.pop cfg with ⟨ring, _ | _⟩ <;> rfl
  | pushBatch src =>
      simp only [Instrumented.call, CopyRingEngine.call]
      rcases s.ring.pushBatch cfg src with _ | ⟨ring, n⟩ <;> rfl
  | popBatch dst =>
      simp only [Instrumented.call, CopyRingEngine.call]
      rcases s.ring.popBatch cfg dst with _ | ⟨ring, dst', n⟩ <;> rfl
  | len =>
      simp only [Instrumented.call, CopyRingEngine.call]
      rcases len cfg s.ring with _ | n <;> rfl

/-! ### Counting elements -/

/-- Elements a call has put into the queue, by its answer. -/
def Answer.acceptedCount : Answer α → Nat
  | .pushed true => 1
  | .accepted n => n
  | .pushed false | .popped _ | .filled _ _ | .len _ | .panicked => 0

/-- Elements a call has taken out of the queue, by its answer. -/
def Answer.removedCount : Answer α → Nat
  | .popped (some _) => 1
  | .filled _ n => n
  | .pushed _ | .popped none | .accepted _ | .len _ | .panicked => 0

/-- What goes in or out of a bounded queue changes its length. -/
theorem fifoCall_length {cap : Nat} (q : Fifo α cap) (c : Call α) :
    (fifoCall q c).1.items.length + (fifoCall q c).2.removedCount =
      q.items.length + (fifoCall q c).2.acceptedCount := by
  cases c with
  | push value =>
      by_cases hroom : q.items.length < cap
      · obtain ⟨hitems, hok⟩ := Fifo.push_of_lt hroom value
        simp only [fifoCall, hok, Answer.removedCount, Answer.acceptedCount, hitems,
          List.length_append, List.length_singleton]
      · simp only [fifoCall, Fifo.push_of_full hroom, Answer.removedCount, Answer.acceptedCount]
  | pop =>
      obtain ⟨items, hle⟩ := q
      cases items with
      | nil => rfl
      | cons v vs => rfl
  | pushBatch src =>
      obtain ⟨hitems, hcount⟩ := q.pushAll_items src
      simp only [fifoCall, Answer.removedCount, Answer.acceptedCount, hitems, hcount,
        List.length_append, List.length_take]
      omega
  | popBatch dst =>
      obtain ⟨hitems, hout⟩ := q.popAll_items dst.length
      simp only [fifoCall, Answer.removedCount, Answer.acceptedCount, hitems, hout,
        List.length_drop, List.length_take]
      omega
  | len => rfl

/-! ### Counters and the queue -/

/-- An instrumented ring, and how many elements its calls have accepted and removed so far. -/
structure Tally (α : Type) where
  engine : Instrumented α CountingInstr
  accepted : Nat
  removed : Nat

namespace Tally

/-- A new ring. -/
def new (slots : Nat → α) : Tally α := ⟨⟨Ring.new slots, .new⟩, 0, 0⟩

def step (cfg : RingConfig) (s : Tally α) (c : Call α) : Tally α :=
  let (engine, answer) := s.engine.call cfg c
  ⟨engine, s.accepted + answer.acceptedCount, s.removed + answer.removedCount⟩

/-- The counters are the numbers of elements accepted and removed, and `len` returns their
difference. -/
structure Matches (cfg : RingConfig) (s : Tally α) : Prop where
  pushCount : s.engine.instr.pushCount.toNat = s.accepted
  popCount : s.engine.instr.popCount.toNat = s.removed
  len : ∃ n, len cfg s.engine.ring = some n ∧
    s.engine.instr.pushCount.toNat = s.engine.instr.popCount.toNat + n

/-- The calls after which the counters still match: a push that is refused or does not wrap
its counter, and a batch that moves nothing. -/
def Good (cfg : RingConfig) (s : Tally α) : Call α → Prop
  | .push _ => len cfg s.engine.ring = some (cfg.cap - 1) ∨ s.accepted + 1 < 2 ^ 64
  | .pushBatch src => src = [] ∨ len cfg s.engine.ring = some (cfg.cap - 1)
  | .popBatch dst => dst = [] ∨ len cfg s.engine.ring = some 0
  | .pop | .len => True

instance (cfg : RingConfig) (s : Tally α) : DecidablePred (Good cfg s) := fun c =>
  match c with
  | .push _ =>
      inferInstanceAs (Decidable
        (CopyRingEngine.len cfg s.engine.ring = some (cfg.cap - 1) ∨ s.accepted + 1 < 2 ^ 64))
  | .pushBatch src =>
      inferInstanceAs (Decidable
        (src = [] ∨ CopyRingEngine.len cfg s.engine.ring = some (cfg.cap - 1)))
  | .popBatch dst =>
      inferInstanceAs (Decidable (dst = [] ∨ CopyRingEngine.len cfg s.engine.ring = some 0))
  | .pop | .len => isTrue trivial

/-- The ring holds what was accepted and not removed. -/
def Conserves (cfg : RingConfig) (s : Tally α) : Prop :=
  ∃ q : Fifo α (cfg.cap - 1), s.engine.ring.Holds cfg q ∧
    s.accepted = s.removed + q.items.length

variable {cfg : RingConfig} {s : Tally α}

theorem conserves_new (cfg : RingConfig) (slots : Nat → α) : (new slots).Conserves cfg :=
  ⟨.empty, Ring.holds_new cfg slots, rfl⟩

/-- One step, through the bounded queue. -/
theorem step_eq (hmask : cfg.strategy = .pow2Masked) {q : Fifo α (cfg.cap - 1)}
    (h : s.engine.ring.Holds cfg q) (c : Call α) :
    (s.step cfg c).engine.ring.Holds cfg (fifoCall q c).1 ∧
      (s.step cfg c).engine.instr = hooks s.engine.instr (fifoCall q c).2 ∧
      (s.step cfg c).accepted = s.accepted + (fifoCall q c).2.acceptedCount ∧
      (s.step cfg c).removed = s.removed + (fifoCall q c).2.removedCount := by
  obtain ⟨hanswer, hnext⟩ := call_simulates hmask s.engine.ring q c h
  simp only [step, Instrumented.call_eq]
  rw [hanswer]
  exact ⟨hnext, rfl, rfl, rfl⟩

/-- **Conservation step.** -/
theorem Conserves.step (hmask : cfg.strategy = .pow2Masked) (h : s.Conserves cfg) (c : Call α) :
    (s.step cfg c).Conserves cfg := by
  obtain ⟨q, hholds, hcount⟩ := h
  obtain ⟨hnext, -, haccepted, hremoved⟩ := step_eq hmask hholds c
  have hlength := fifoCall_length q c
  refine ⟨(fifoCall q c).1, hnext, ?_⟩
  rw [haccepted, hremoved]
  omega

/-- Where the elements are conserved, the counters decide. -/
theorem matches_iff {q : Fifo α (cfg.cap - 1)} (h : s.engine.ring.Holds cfg q)
    (hcount : s.accepted = s.removed + q.items.length) :
    s.Matches cfg ↔ s.engine.instr.pushCount.toNat = s.accepted ∧
      s.engine.instr.popCount.toNat = s.removed := by
  constructor
  · intro hmatches
    exact ⟨hmatches.pushCount, hmatches.popCount⟩
  · rintro ⟨hpush, hpop⟩
    exact ⟨hpush, hpop, q.items.length, len_of_holds h, by rw [hpush, hpop, hcount]⟩

/-- A counter that is incremented counts on exactly if it does not wrap. -/
theorem toNat_succ_iff {counter : UInt64} {n : Nat} (h : counter.toNat = n) :
    (counter + 1).toNat = n + 1 ↔ n + 1 < 2 ^ 64 := by
  have hsucc : (counter + 1).toNat = (counter.toNat + 1) % 2 ^ 64 := UInt64.toNat_add counter 1
  rw [hsucc, h]
  constructor
  · intro hmod
    rw [← hmod]
    exact Nat.mod_lt _ (by decide)
  · exact Nat.mod_eq_of_lt

/-- **Which calls keep the counters.** -/
theorem matches_step_iff (hmask : cfg.strategy = .pow2Masked) (hconserves : s.Conserves cfg)
    (hmatches : s.Matches cfg) (c : Call α) : (s.step cfg c).Matches cfg ↔ s.Good cfg c := by
  obtain ⟨q, hholds, hcount⟩ := hconserves
  have hpush : s.engine.instr.pushes.toNat = s.accepted := hmatches.pushCount
  have hpop : s.engine.instr.pops.toNat = s.removed := hmatches.popCount
  obtain ⟨hnext, hinstr, haccepted, hremoved⟩ := step_eq hmask hholds c
  have hlength := fifoCall_length q c
  have hlen : CopyRingEngine.len cfg s.engine.ring = some q.items.length := len_of_holds hholds
  have hle := q.length_le
  rw [matches_iff hnext (by rw [haccepted, hremoved]; omega), hinstr, haccepted, hremoved]
  cases c with
  | push value =>
      simp only [Good, hlen, Option.some.injEq]
      by_cases hroom : q.items.length < cfg.cap - 1
      · have hanswer : (fifoCall q (.push value)).2 = .pushed true :=
          congrArg Answer.pushed (Fifo.push_of_lt hroom value).2
        rw [hanswer]
        show (s.engine.instr.pushes + 1).toNat = s.accepted + 1 ∧
          s.engine.instr.pops.toNat = s.removed ↔ _
        rw [toNat_succ_iff hpush]
        exact ⟨fun h => Or.inr h.1, fun h => ⟨h.resolve_left (by omega), hpop⟩⟩
      · have hanswer : (fifoCall q (.push value)).2 = .pushed false := by
          simp only [fifoCall, Fifo.push_of_full hroom]
        rw [hanswer]
        exact iff_of_true ⟨hpush, hpop⟩ (Or.inl (by omega))
  | pop =>
      -- fewer were removed than accepted, so this counter wraps only after the other
      have hlt := s.engine.instr.pushes.toNat_lt
      obtain ⟨items, hitems⟩ := q
      cases items with
      | nil => exact iff_of_true ⟨hpush, hpop⟩ trivial
      | cons v vs =>
          rw [List.length_cons] at hcount
          exact iff_of_true ⟨hpush, (toNat_succ_iff hpop).mpr (by omega)⟩ trivial
  | pushBatch src =>
      have hn := (q.pushAll_items src).2
      simp only [Good, hlen, Option.some.injEq]
      show s.engine.instr.pushes.toNat = s.accepted + (q.pushAll src).2 ∧
        s.engine.instr.pops.toNat = s.removed ↔ _
      rw [hn, ← List.length_eq_zero_iff]
      constructor
      · rintro ⟨h, -⟩
        omega
      · intro h
        exact ⟨by omega, hpop⟩
  | popBatch dst =>
      have hn := (q.popAll_items dst.length).2
      simp only [Good, hlen, Option.some.injEq]
      show s.engine.instr.pushes.toNat = s.accepted ∧
        s.engine.instr.pops.toNat = s.removed + (q.popAll dst.length).2.length ↔ _
      rw [hn, List.length_take, ← List.length_eq_zero_iff]
      constructor
      · rintro ⟨-, h⟩
        omega
      · intro h
        exact ⟨hpush, by omega⟩
  | len => exact iff_of_true ⟨hpush, hpop⟩ trivial

/-- **Exact condition for the instrumentation.** From a new masked ring, through every
sequence of calls on one thread, the counters match the queue after every call if and only
if no batch moves an element and the push counter does not wrap. -/
theorem instrumentation_matches_iff (hmask : cfg.strategy = .pow2Masked) (slots : Nat → α)
    (calls : List (Call α)) :
    Always (step cfg) (Matches cfg) (new slots) calls ↔
      AllSteps (step cfg) (Good cfg) (new slots) calls := by
  have hvalid : AllSteps (step cfg) (fun _ _ => True) (new slots) calls :=
    allSteps_of_forall (fun _ _ => trivial) _
  have hstart : (new slots).Matches cfg :=
    (matches_iff (Ring.holds_new cfg slots) rfl).mpr ⟨rfl, rfl⟩
  exact always_iff_allSteps (fun _ c h _ => h.step hmask c)
    (fun _ c h _ hmatches => matches_step_iff hmask h hmatches c) (conserves_new cfg slots) hstart
    hvalid

/-- Single operations, an empty batch, and batches on a full and on an empty ring. -/
theorem instrumentation_matches_singles :
    Always (step (.masked 1 false)) (Matches (.masked 1 false)) (new fun _ => 0)
      [.push 1, .push 2, .pushBatch [3], .pop, .popBatch [0], .pushBatch []] := by
  have hmask : (RingConfig.masked 1 false).strategy = .pow2Masked := rfl
  exact (instrumentation_matches_iff hmask _ _).mpr (by decide)

/-- A batch of two is accepted and seen by `len`, but not by the counters. -/
theorem batch_not_counted :
    let s := run (step (.masked 2 false)) (new fun _ => 0) [.pushBatch [1, 2]]
    s.accepted = 2 ∧ CopyRingEngine.len (.masked 2 false) s.engine.ring = some 2 ∧
      s.engine.instr.pushCount = 0 ∧ ¬ s.Matches (.masked 2 false) := by
  refine ⟨by decide, by decide, by decide, fun h => ?_⟩
  exact absurd h.pushCount (by decide)

end Tally

end CopyRingEngine

end Mantis
