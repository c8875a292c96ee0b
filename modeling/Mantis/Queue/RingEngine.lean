import Mantis.Lib.Runs
import Mantis.Queue.Ledger

/-!
# Mantis.Queue.RingEngine

`RingEngine` under interleaving (`crates/queue/src/engine.rs`): one producer thread
calling `push` and `try_push`, one consumer thread calling `pop` and `try_pop`, each
call a sequence of atomic steps. A schedule is any list of actions, so a run covers
every sequentially consistent order of the two threads' steps; an action of a thread
that cannot take it does nothing.

A `Ledger` follows the values through the calls of both threads: what the pushes have
reported accepted and what the pops have handed out. `schedule_safe` is about the slots the
threads touch, the logs of what was published and taken, and these answers.
-/

namespace Mantis

open Runs

variable {α : Type}

/-- The producer's calls. -/
inductive PushCall
  /-- Drops the value when full. -/
  | push
  /-- Hands the value back when full. -/
  | tryPush
  deriving DecidableEq, Repr

/-- The consumer's calls. -/
inductive PopCall
  | pop
  | tryPop
  deriving DecidableEq, Repr

/-- What a call of the producer returns. -/
inductive PushResult (α : Type)
  | bool (ok : Bool)
  | ok
  | full (value : α)
  deriving DecidableEq, Repr

/-- What a call of the consumer returns; `pop` writes the value to its out-pointer. -/
inductive PopResult (α : Type)
  | bool (out : Option α)
  | ok (value : α)
  | empty
  deriving DecidableEq, Repr

/-- A refused `try_push` hands the value back. -/
def PushCall.result (call : PushCall) (value : α) (ok : Bool) : PushResult α :=
  match call, ok with
  | .push, ok => .bool ok
  | .tryPush, true => .ok
  | .tryPush, false => .full value

/-- The answer of either call to a step that ends with `value`. -/
def PopCall.result (call : PopCall) (value : Option α) : PopResult α :=
  match call, value with
  | .pop, value => .bool value
  | .tryPop, some value => .ok value
  | .tryPop, none => .empty

/-- A producer thread, with the result of its last call. -/
inductive ProducerThread (α : Type)
  | idle (last : Option (PushResult α))
  | running (call : PushCall) (value : α) (pc : PushPc α)

/-- A consumer thread, with the result of its last call. -/
inductive ConsumerThread (α : Type)
  | idle (last : Option (PopResult α))
  | running (call : PopCall) (pc : PopPc α)

/-- The ring with both threads. -/
structure RingEngine (α : Type) where
  ring : Ring α
  producer : ProducerThread α
  consumer : ConsumerThread α

namespace RingEngine

/-- A new engine over uninitialised slots. -/
def new (slots : Nat → α) : RingEngine α := ⟨.new slots, .idle none, .idle none⟩

/-- One action of the scheduler: a thread starts a call or takes its next step. -/
inductive Action (α : Type)
  | push (value : α)
  | tryPush (value : α)
  | pop
  | tryPop
  | producer
  | consumer

/-- Start a call of the producer. -/
def startPush (cfg : RingConfig) (s : RingEngine α) (call : PushCall) (value : α) :
    RingEngine α :=
  match s.producer with
  | .idle _ => { s with producer := .running call value (s.ring.pushStart cfg value) }
  | .running _ _ _ => s

/-- Start a call of the consumer. -/
def startPop (cfg : RingConfig) (s : RingEngine α) (call : PopCall) : RingEngine α :=
  match s.consumer with
  | .idle _ => { s with consumer := .running call (s.ring.popStart cfg) }
  | .running _ _ => s

/-- The producer's next step. -/
def producerStep (cfg : RingConfig) (s : RingEngine α) : RingEngine α :=
  match s.producer with
  | .idle _ => s
  | .running call value pc =>
      match s.ring.pushStep cfg pc with
      | (ring, .running pc) => { s with ring, producer := .running call value pc }
      | (ring, .returned ok) => { s with ring, producer := .idle (some (call.result value ok)) }

/-- The consumer's next step. -/
def consumerStep (cfg : RingConfig) (s : RingEngine α) : RingEngine α :=
  match s.consumer with
  | .idle _ => s
  | .running call pc =>
      match s.ring.popStep cfg pc with
      | (ring, .running pc) => { s with ring, consumer := .running call pc }
      | (ring, .returned value) => { s with ring, consumer := .idle (some (call.result value)) }

/-- One action. -/
def step (cfg : RingConfig) (s : RingEngine α) : Action α → RingEngine α
  | .push value => s.startPush cfg .push value
  | .tryPush value => s.startPush cfg .tryPush value
  | .pop => s.startPop cfg .pop
  | .tryPop => s.startPop cfg .tryPop
  | .producer => s.producerStep cfg
  | .consumer => s.consumerStep cfg

/-- The slot the producer is about to write. -/
def writing (s : RingEngine α) : Option Nat :=
  match s.producer with
  | .idle _ => none
  | .running _ _ pc => pc.slot?

/-- The slot the consumer is about to read. -/
def reading (s : RingEngine α) : Option Nat :=
  match s.consumer with
  | .idle _ => none
  | .running _ pc => pc.slot?

/-! ### Simulation -/

/-- Where the producer's thread stands in the abstract protocol. -/
def ProducerSim (cfg : RingConfig) (l : ProducerLine α) (p : Spsc.ProducerSide α) :
    ProducerThread α → Prop
  | .idle _ => l.Rest cfg p
  | .running _ _ pc => pc.Sim cfg l p

/-- Where the consumer's thread stands in the abstract protocol. -/
def ConsumerSim (cfg : RingConfig) (l : ConsumerLine α) (c : Spsc.ConsumerSide α) :
    ConsumerThread α → Prop
  | .idle _ => l.Rest cfg c
  | .running _ pc => pc.Sim cfg l c

/-- The engine against the abstract protocol. -/
structure Sim (cfg : RingConfig) (s : RingEngine α) (a : Spsc.State α) : Prop where
  ring : s.ring.Sim cfg a
  producer : ProducerSim cfg s.ring.producer a.producer s.producer
  consumer : ConsumerSim cfg s.ring.consumer a.consumer s.consumer

variable {cfg : RingConfig} {s : RingEngine α} {a : Spsc.State α}

theorem Sim.startPush (h : s.Sim cfg a) (call : PushCall) (value : α) :
    (s.startPush cfg call value).Sim cfg a := by
  simp only [RingEngine.startPush]
  have hproducer := h.producer
  split
  · next last hidle =>
      rw [hidle] at hproducer
      exact ⟨h.ring, h.ring.pushStart hproducer value, h.consumer⟩
  · exact h

theorem Sim.startPop (h : s.Sim cfg a) (call : PopCall) : (s.startPop cfg call).Sim cfg a := by
  simp only [RingEngine.startPop]
  have hconsumer := h.consumer
  split
  · next last hidle =>
      rw [hidle] at hconsumer
      exact ⟨h.ring, h.producer, h.ring.popStart hconsumer⟩
  · exact h

theorem Sim.producerStep (h : s.Sim cfg a) : ∃ a', (s.producerStep cfg).Sim cfg a' := by
  simp only [RingEngine.producerStep]
  have hproducer := h.producer
  split
  · exact ⟨a, h⟩
  · next call value pc hrun =>
      rw [hrun] at hproducer
      obtain ⟨a', hmatch, hnext⟩ := h.ring.pushStep hproducer
      -- the consumer sees neither side of the producer's step
      have hconsumer := h.consumer
      rw [← hmatch.line, ← hmatch.side] at hconsumer
      split
      · next ring pc' heq =>
          rw [heq] at hmatch hnext hconsumer
          exact ⟨a', hmatch.sim, hnext, hconsumer⟩
      · next ring ok heq =>
          rw [heq] at hmatch hnext hconsumer
          exact ⟨a', hmatch.sim, hnext.2, hconsumer⟩

theorem Sim.consumerStep (h : s.Sim cfg a) : ∃ a', (s.consumerStep cfg).Sim cfg a' := by
  simp only [RingEngine.consumerStep]
  have hconsumer := h.consumer
  split
  · exact ⟨a, h⟩
  · next call pc hrun =>
      rw [hrun] at hconsumer
      obtain ⟨a', hmatch, hnext⟩ := h.ring.popStep hconsumer
      have hproducer := h.producer
      rw [← hmatch.line, ← hmatch.side] at hproducer
      split
      · next ring pc' heq =>
          rw [heq] at hmatch hnext hproducer
          exact ⟨a', hmatch.sim, hproducer, hnext⟩
      · next ring value heq =>
          rw [heq] at hmatch hnext hproducer
          exact ⟨a', hmatch.sim, hproducer, hnext.2⟩

/-- The engine is in a state that the abstract protocol explains. -/
def Explained (cfg : RingConfig) (s : RingEngine α) : Prop := ∃ a, s.Sim cfg a

theorem explained_new (cfg : RingConfig) (slots : Nat → α) : (new slots).Explained cfg :=
  ⟨_, Ring.sim_new cfg slots, ⟨⟨rfl, rfl⟩, fun _ => rfl⟩, ⟨⟨rfl, rfl⟩, fun _ => rfl⟩⟩

theorem Explained.step (h : s.Explained cfg) (act : Action α) : (s.step cfg act).Explained cfg := by
  obtain ⟨a, ha⟩ := h
  cases act with
  | push value => exact ⟨a, ha.startPush .push value⟩
  | tryPush value => exact ⟨a, ha.startPush .tryPush value⟩
  | pop => exact ⟨a, ha.startPop .pop⟩
  | tryPop => exact ⟨a, ha.startPop .tryPop⟩
  | producer => exact ha.producerStep
  | consumer => exact ha.consumerStep

/-! ### Safety of a state -/

theorem Sim.safe (h : s.Sim cfg a) : s.ring.Safe cfg s.writing s.reading := by
  refine h.ring.safe ?_ ?_
  · intro slot hslot
    have hproducer := h.producer
    simp only [RingEngine.writing] at hslot
    split at hslot
    · cases hslot
    · next hrun =>
        rw [hrun] at hproducer
        exact hproducer.writing hslot
  · intro slot hslot
    have hconsumer := h.consumer
    simp only [RingEngine.reading] at hslot
    split at hslot
    · cases hslot
    · next hrun =>
        rw [hrun] at hconsumer
        exact hconsumer.reading hslot

/-! ### The values of finished calls -/

/-- The value accepted by the call of the producer that a step finishes. -/
def accepted (cfg : RingConfig) (s : RingEngine α) : Action α → List α
  | .producer =>
      match s.producer with
      | .idle _ => []
      | .running _ value pc =>
          match (s.ring.pushStep cfg pc).2 with
          | .returned true => [value]
          | _ => []
  | _ => []

/-- The value handed out by the call of the consumer that a step finishes. -/
def handedOut (cfg : RingConfig) (s : RingEngine α) : Action α → List α
  | .consumer =>
      match s.consumer with
      | .idle _ => []
      | .running _ pc =>
          match (s.ring.popStep cfg pc).2 with
          | .returned (some value) => [value]
          | _ => []
  | _ => []

end RingEngine

/-- A ring in use, with the values its finished calls have accepted and handed out. -/
structure Ledger (α : Type) where
  engine : RingEngine α
  accepted : List α
  handedOut : List α

namespace Ledger

/-- Over a new engine nothing has been answered. -/
def new (slots : Nat → α) : Ledger α := ⟨.new slots, [], []⟩

/-- One action, with the answer it gives. -/
def step (cfg : RingConfig) (l : Ledger α) (act : RingEngine.Action α) : Ledger α :=
  { engine := l.engine.step cfg act
    accepted := l.accepted ++ l.engine.accepted cfg act
    handedOut := l.handedOut ++ l.engine.handedOut cfg act }

/-- The ledger only watches the engine. -/
theorem run_engine (cfg : RingConfig) (l : Ledger α) (schedule : List (RingEngine.Action α)) :
    (run (step cfg) l schedule).engine = run (RingEngine.step cfg) l.engine schedule := by
  induction schedule generalizing l with
  | nil => rfl
  | cons act schedule ih => exact ih (l.step cfg act)

end Ledger

/-! ### The ledger -/

/-- The log of the producer is what its calls have accepted, and what the call in progress
has published. -/
def ProducerThread.Balanced (line : ProducerLine α) (accepted : List α) : ProducerThread α → Prop
  | .idle _ => line.pushed.map Prod.snd = accepted
  | .running _ value pc =>
      pc.Carries value ∧ line.pushed.map Prod.snd = accepted ++ pc.unreported value

/-- The log of the consumer is what its calls have handed out, and what the call in progress
has taken. -/
def ConsumerThread.Balanced (line : ConsumerLine α) (handedOut : List α) :
    ConsumerThread α → Prop
  | .idle _ => line.popped = handedOut
  | .running _ pc => line.popped = handedOut ++ pc.unreported

namespace Ledger

/-- Both logs are accounted for. -/
structure Balanced (l : Ledger α) : Prop where
  producer : l.engine.producer.Balanced l.engine.ring.producer l.accepted
  consumer : l.engine.consumer.Balanced l.engine.ring.consumer l.handedOut

theorem balanced_new (slots : Nat → α) : (new slots).Balanced := ⟨rfl, rfl⟩

variable {cfg : RingConfig} {l : Ledger α}

theorem Balanced.startPush (h : l.Balanced) (call : PushCall) (value : α) :
    ({ l with engine := l.engine.startPush cfg call value } : Ledger α).Balanced := by
  have hproducer := h.producer
  cases hthread : l.engine.producer with
  | idle last =>
      rw [hthread] at hproducer
      simp only [RingEngine.startPush, hthread]
      refine ⟨⟨rfl, ?_⟩, h.consumer⟩
      rw [hproducer]
      exact (List.append_nil _).symm
  | running call' value' pc =>
      simp only [RingEngine.startPush, hthread]
      exact h

theorem Balanced.startPop (h : l.Balanced) (call : PopCall) :
    ({ l with engine := l.engine.startPop cfg call } : Ledger α).Balanced := by
  have hconsumer := h.consumer
  cases hthread : l.engine.consumer with
  | idle last =>
      rw [hthread] at hconsumer
      simp only [RingEngine.startPop, hthread]
      refine ⟨h.producer, ?_⟩
      rw [ConsumerThread.Balanced, hconsumer]
      exact (List.append_nil _).symm
  | running call' pc =>
      simp only [RingEngine.startPop, hthread]
      exact h

theorem Balanced.producerStep (h : l.Balanced) :
    ({ l with
      engine := l.engine.producerStep cfg
      accepted := l.accepted ++ l.engine.accepted cfg .producer } : Ledger α).Balanced := by
  have hproducer := h.producer
  cases hthread : l.engine.producer with
  | idle last =>
      simp only [RingEngine.producerStep, RingEngine.accepted, hthread, List.append_nil]
      exact h
  | running call value pc =>
      rw [hthread] at hproducer
      obtain ⟨hcarries, hlog⟩ := hproducer
      obtain ⟨new, hpushed, hnext, hline, hkept⟩ := l.engine.ring.pushStep_ledger cfg hcarries
      rw [hlog, List.append_assoc, hnext] at hpushed
      have hconsumer := h.consumer
      rw [← hline] at hconsumer
      simp only [RingEngine.producerStep, RingEngine.accepted, hthread]
      cases hstep : l.engine.ring.pushStep cfg pc with
      | mk ring next =>
          rw [hstep] at hpushed hconsumer hkept
          cases next with
          | running pc' =>
              refine ⟨⟨hkept pc' rfl, ?_⟩, hconsumer⟩
              rw [List.append_nil]
              exact hpushed
          | returned ok =>
              refine ⟨?_, hconsumer⟩
              cases ok <;> exact hpushed

theorem Balanced.consumerStep (h : l.Balanced) :
    ({ l with
      engine := l.engine.consumerStep cfg
      handedOut := l.handedOut ++ l.engine.handedOut cfg .consumer } : Ledger α).Balanced := by
  have hlog := h.consumer
  cases hthread : l.engine.consumer with
  | idle last =>
      simp only [RingEngine.consumerStep, RingEngine.handedOut, hthread, List.append_nil]
      exact h
  | running call pc =>
      rw [hthread, ConsumerThread.Balanced] at hlog
      obtain ⟨new, hpopped, hnext, hline⟩ := l.engine.ring.popStep_ledger cfg pc
      rw [hlog, List.append_assoc, hnext] at hpopped
      have hproducer := h.producer
      rw [← hline] at hproducer
      simp only [RingEngine.consumerStep, RingEngine.handedOut, hthread]
      cases hstep : l.engine.ring.popStep cfg pc with
      | mk ring next =>
          rw [hstep] at hpopped hproducer
          cases next with
          | running pc' =>
              refine ⟨hproducer, ?_⟩
              rw [List.append_nil]
              exact hpopped
          | returned value =>
              refine ⟨hproducer, ?_⟩
              cases value <;> exact hpopped

/-- **One step.** -/
theorem Balanced.step (h : l.Balanced) (act : RingEngine.Action α) :
    (l.step cfg act).Balanced := by
  simp only [Ledger.step]
  cases act with
  | push value =>
      simp only [RingEngine.accepted, RingEngine.handedOut, List.append_nil]
      exact h.startPush .push value
  | tryPush value =>
      simp only [RingEngine.accepted, RingEngine.handedOut, List.append_nil]
      exact h.startPush .tryPush value
  | pop =>
      simp only [RingEngine.accepted, RingEngine.handedOut, List.append_nil]
      exact h.startPop .pop
  | tryPop =>
      simp only [RingEngine.accepted, RingEngine.handedOut, List.append_nil]
      exact h.startPop .tryPop
  | producer =>
      rw [show l.engine.handedOut cfg .producer = [] from rfl, List.append_nil]
      exact h.producerStep
  | consumer =>
      rw [show l.engine.accepted cfg .consumer = [] from rfl, List.append_nil]
      exact h.consumerStep

/-- **Every run.** -/
theorem balanced_run (cfg : RingConfig) (slots : Nat → α)
    (schedule : List (RingEngine.Action α)) :
    (run (step cfg) (new slots) schedule).Balanced :=
  (always_of_step (fun _ act hl => hl.step act) (balanced_new slots) schedule).last

end Ledger

namespace RingEngine

/-! ### Safety of every schedule -/

/-- **Safety of the SPSC ring under interleaving.** For every power-of-two capacity,
index strategy and schedule, from any uninitialised memory, every state passed through
is safe; and in each of them the values published are those of the pushes that have returned
`true` and the values taken are those the pops have returned, in order, up to the one that a
call in progress has moved and not reported yet. -/
theorem schedule_safe (cfg : RingConfig) (slots : Nat → α) (schedule : List (Action α)) :
    Always (step cfg) (fun s => s.ring.Safe cfg s.writing s.reading) (new slots) schedule ∧
      ∀ pre, pre <+: schedule →
        let l := run (Ledger.step cfg) (.new slots) pre
        l.engine = run (step cfg) (new slots) pre ∧ l.Balanced := by
  constructor
  · have hexplained : Always (step cfg) (Explained cfg) (new slots) schedule :=
      always_of_step (fun _ act hs => hs.step act) (explained_new cfg slots) schedule
    intro pre hpre
    obtain ⟨a, ha⟩ := hexplained pre hpre
    exact ha.safe
  · intro pre _ l
    exact ⟨Ledger.run_engine cfg (.new slots) pre, Ledger.balanced_run cfg slots pre⟩

/-- A push and a pop that overlap: the pop starts before the push has published. -/
example : (run (step ⟨4, ⟨2, rfl⟩, .branchWrap, false⟩) (new fun _ => 0)
    [.push 7, .pop, .producer, .producer, .consumer, .producer, .consumer, .consumer,
      .consumer]).ring.consumer.popped = [7] := by decide

end RingEngine

end Mantis
