import Mantis.Lib.Runs
import Mantis.Queue.BatchLedger

/-!
# Mantis.Queue.CopyRingEngine

The two threads of a `CopyRingEngine`: the producer runs any sequence of `push` and
`push_batch`, the consumer any sequence of `pop` and `pop_batch`. As in
`Mantis.Queue.RingEngine` a schedule is any list of actions.

`push_batch` answers with a count, which says how many values of its source were accepted; a
`CopyLedger` follows the counts and the values, and the values handed out, through the calls
of both threads.
-/

namespace Mantis

open Runs

variable {α : Type}

/-- What a call of the producer returns. -/
inductive CopyPushResult
  | bool (ok : Bool)
  | count (n : Nat)
  deriving DecidableEq, Repr

/-- What a call of the consumer returns, with the values written to its buffer. -/
inductive CopyPopResult (α : Type)
  | bool (out : Option α)
  | count (out : List α)
  deriving DecidableEq, Repr

/-- A producer thread, with the result of its last call. -/
inductive CopyProducer (α : Type)
  | idle (last : Option CopyPushResult)
  | push (pc : PushPc α)
  | batch (pc : PushBatchPc α)
  /-- A subtraction has underflowed. -/
  | panicked

/-- A consumer thread, with the result of its last call. -/
inductive CopyConsumer (α : Type)
  | idle (last : Option (CopyPopResult α))
  | pop (pc : PopPc α)
  | batch (pc : PopBatchPc α)
  | panicked

/-- The ring with both threads. -/
structure CopyRingEngine (α : Type) where
  ring : Ring α
  producer : CopyProducer α
  consumer : CopyConsumer α

namespace CopyRingEngine

/-- A new engine over uninitialised slots. -/
def new (slots : Nat → α) : CopyRingEngine α := ⟨.new slots, .idle none, .idle none⟩

/-- One action of the scheduler: a thread starts a call or takes its next step. -/
inductive Action (α : Type)
  | push (value : α)
  | pushBatch (src : List α)
  | pop
  /-- Pop into a buffer of `dstLen` elements. -/
  | popBatch (dstLen : Nat)
  | producer
  | consumer

/-- Start a call of the producer, if it is in none. -/
def startProducer (s : CopyRingEngine α) (next : CopyProducer α) : CopyRingEngine α :=
  match s.producer with
  | .idle _ => { s with producer := next }
  | _ => s

/-- Start a call of the consumer, if it is in none. -/
def startConsumer (s : CopyRingEngine α) (next : CopyConsumer α) : CopyRingEngine α :=
  match s.consumer with
  | .idle _ => { s with consumer := next }
  | _ => s

/-- An empty batch returns without touching the ring. -/
def pushBatchStart (cfg : RingConfig) (s : CopyRingEngine α) (src : List α) : CopyProducer α :=
  if src.isEmpty then .idle (some (.count 0)) else .batch (.compare src (s.ring.ownHead cfg))

/-- An empty buffer returns without touching the ring. -/
def popBatchStart (cfg : RingConfig) (s : CopyRingEngine α) (dstLen : Nat) : CopyConsumer α :=
  if dstLen = 0 then .idle (some (.count [])) else .batch (.compare dstLen (s.ring.ownTail cfg))

/-- The producer's next step; a subtraction that underflows ends the thread. -/
def producerStep (cfg : RingConfig) (s : CopyRingEngine α) : CopyRingEngine α :=
  match s.producer with
  | .idle _ | .panicked => s
  | .push pc =>
      match s.ring.pushStep cfg pc with
      | (ring, .running pc) => { s with ring, producer := .push pc }
      | (ring, .returned ok) => { s with ring, producer := .idle (some (.bool ok)) }
  | .batch pc =>
      match s.ring.pushBatchStep cfg pc with
      | (ring, .running pc) => { s with ring, producer := .batch pc }
      | (ring, .returned (some n)) => { s with ring, producer := .idle (some (.count n)) }
      | (ring, .returned none) => { s with ring, producer := .panicked }

/-- The consumer's next step. -/
def consumerStep (cfg : RingConfig) (s : CopyRingEngine α) : CopyRingEngine α :=
  match s.consumer with
  | .idle _ | .panicked => s
  | .pop pc =>
      match s.ring.popStep cfg pc with
      | (ring, .running pc) => { s with ring, consumer := .pop pc }
      | (ring, .returned value) => { s with ring, consumer := .idle (some (.bool value)) }
  | .batch pc =>
      match s.ring.popBatchStep cfg pc with
      | (ring, .running pc) => { s with ring, consumer := .batch pc }
      | (ring, .returned (some out)) => { s with ring, consumer := .idle (some (.count out)) }
      | (ring, .returned none) => { s with ring, consumer := .panicked }

/-- One action. -/
def step (cfg : RingConfig) (s : CopyRingEngine α) : Action α → CopyRingEngine α
  | .push value => s.startProducer (.push (s.ring.pushStart cfg value))
  | .pushBatch src => s.startProducer (s.pushBatchStart cfg src)
  | .pop => s.startConsumer (.pop (s.ring.popStart cfg))
  | .popBatch dstLen => s.startConsumer (s.popBatchStart cfg dstLen)
  | .producer => s.producerStep cfg
  | .consumer => s.consumerStep cfg

/-- The slot the producer is about to write. -/
def writing (s : CopyRingEngine α) : Option Nat :=
  match s.producer with
  | .idle _ | .panicked => none
  | .push pc => pc.slot?
  | .batch pc => pc.slot?

/-- The slot the consumer is about to read. -/
def reading (s : CopyRingEngine α) : Option Nat :=
  match s.consumer with
  | .idle _ | .panicked => none
  | .pop pc => pc.slot?
  | .batch pc => pc.slot?

/-! ### Simulation -/

/-- Where the producer's thread stands in the abstract protocol. -/
def ProducerSim (cfg : RingConfig) (l : ProducerLine α) (p : Spsc.ProducerSide α) :
    CopyProducer α → Prop
  | .idle _ => l.Rest cfg p
  | .push pc => pc.Sim cfg l p
  | .batch pc => pc.Sim cfg l p
  | .panicked => False

/-- Where the consumer's thread stands in the abstract protocol. -/
def ConsumerSim (cfg : RingConfig) (l : ConsumerLine α) (c : Spsc.ConsumerSide α) :
    CopyConsumer α → Prop
  | .idle _ => l.Rest cfg c
  | .pop pc => pc.Sim cfg l c
  | .batch pc => pc.Sim cfg l c
  | .panicked => False

/-- The engine against the abstract protocol, which has no place for a panic. -/
structure Sim (cfg : RingConfig) (s : CopyRingEngine α) (a : Spsc.State α) : Prop where
  ring : s.ring.Sim cfg a
  producer : ProducerSim cfg s.ring.producer a.producer s.producer
  consumer : ConsumerSim cfg s.ring.consumer a.consumer s.consumer

variable {cfg : RingConfig} {s : CopyRingEngine α} {a : Spsc.State α}

/-- A call starts from where the last one has left the thread. -/
theorem Sim.startProducer (h : s.Sim cfg a) {next : CopyProducer α}
    (hnext : s.ring.producer.Rest cfg a.producer →
      ProducerSim cfg s.ring.producer a.producer next) :
    (s.startProducer next).Sim cfg a := by
  simp only [CopyRingEngine.startProducer]
  have hproducer := h.producer
  split
  · next last hidle =>
      rw [hidle] at hproducer
      exact ⟨h.ring, hnext hproducer, h.consumer⟩
  · exact h

theorem Sim.startConsumer (h : s.Sim cfg a) {next : CopyConsumer α}
    (hnext : s.ring.consumer.Rest cfg a.consumer →
      ConsumerSim cfg s.ring.consumer a.consumer next) :
    (s.startConsumer next).Sim cfg a := by
  simp only [CopyRingEngine.startConsumer]
  have hconsumer := h.consumer
  split
  · next last hidle =>
      rw [hidle] at hconsumer
      exact ⟨h.ring, h.producer, hnext hconsumer⟩
  · exact h

/-- An empty batch stays at rest, any other reads its own index first. -/
theorem Sim.pushBatchStart (h : s.Sim cfg a) (hrest : s.ring.producer.Rest cfg a.producer)
    (src : List α) :
    ProducerSim cfg s.ring.producer a.producer (s.pushBatchStart cfg src) := by
  simp only [CopyRingEngine.pushBatchStart]
  split
  · exact hrest
  · exact ⟨hrest, h.ring.ownHead hrest⟩

theorem Sim.popBatchStart (h : s.Sim cfg a) (hrest : s.ring.consumer.Rest cfg a.consumer)
    (dstLen : Nat) :
    ConsumerSim cfg s.ring.consumer a.consumer (s.popBatchStart cfg dstLen) := by
  simp only [CopyRingEngine.popBatchStart]
  split
  · exact hrest
  · exact ⟨hrest, h.ring.ownTail hrest⟩

/-- A step of the producer is a step of the protocol, and leaves the consumer where it was.
That the free count does not underflow is part of what `pushBatchStep` reaches. -/
theorem Sim.producerStep (hmask : cfg.strategy = .pow2Masked) (h : s.Sim cfg a) :
    ∃ a', (s.producerStep cfg).Sim cfg a' := by
  simp only [CopyRingEngine.producerStep]
  have hproducer := h.producer
  have hconsumer := h.consumer
  split
  · exact ⟨a, h⟩
  · exact ⟨a, h⟩
  · next pc hrun =>
      rw [hrun] at hproducer
      obtain ⟨a', hmatch, hnext⟩ := h.ring.pushStep hproducer
      rw [← hmatch.line, ← hmatch.side] at hconsumer
      split
      · next ring pc' heq =>
          rw [heq] at hmatch hnext hconsumer
          exact ⟨a', hmatch.sim, hnext, hconsumer⟩
      · next ring ok heq =>
          rw [heq] at hmatch hnext hconsumer
          exact ⟨a', hmatch.sim, hnext.2, hconsumer⟩
  · next pc hrun =>
      rw [hrun] at hproducer
      obtain ⟨a', hmatch, hnext⟩ := h.ring.pushBatchStep hmask hproducer
      rw [← hmatch.line, ← hmatch.side] at hconsumer
      split
      · next ring pc' heq =>
          rw [heq] at hmatch hnext hconsumer
          exact ⟨a', hmatch.sim, hnext, hconsumer⟩
      · next ring n heq =>
          rw [heq] at hmatch hnext hconsumer
          exact ⟨a', hmatch.sim, hnext.2, hconsumer⟩
      · -- an underflow is no step of the protocol
        next ring heq =>
          rw [heq] at hnext
          exact absurd rfl hnext.1

/-- A step of the consumer, likewise. -/
theorem Sim.consumerStep (hmask : cfg.strategy = .pow2Masked) (h : s.Sim cfg a) :
    ∃ a', (s.consumerStep cfg).Sim cfg a' := by
  simp only [CopyRingEngine.consumerStep]
  have hproducer := h.producer
  have hconsumer := h.consumer
  split
  · exact ⟨a, h⟩
  · exact ⟨a, h⟩
  · next pc hrun =>
      rw [hrun] at hconsumer
      obtain ⟨a', hmatch, hnext⟩ := h.ring.popStep hconsumer
      rw [← hmatch.line, ← hmatch.side] at hproducer
      split
      · next ring pc' heq =>
          rw [heq] at hmatch hnext hproducer
          exact ⟨a', hmatch.sim, hproducer, hnext⟩
      · next ring value heq =>
          rw [heq] at hmatch hnext hproducer
          exact ⟨a', hmatch.sim, hproducer, hnext.2⟩
  · next pc hrun =>
      rw [hrun] at hconsumer
      obtain ⟨a', hmatch, hnext⟩ := h.ring.popBatchStep hmask hconsumer
      rw [← hmatch.line, ← hmatch.side] at hproducer
      split
      · next ring pc' heq =>
          rw [heq] at hmatch hnext hproducer
          exact ⟨a', hmatch.sim, hproducer, hnext⟩
      · next ring out heq =>
          rw [heq] at hmatch hnext hproducer
          exact ⟨a', hmatch.sim, hproducer, hnext.2⟩
      · -- an underflow is no step of the protocol
        next ring heq =>
          rw [heq] at hnext
          exact absurd rfl hnext.1

/-- The engine is in a state that the abstract protocol explains. -/
def Explained (cfg : RingConfig) (s : CopyRingEngine α) : Prop := ∃ a, s.Sim cfg a

theorem explained_new (cfg : RingConfig) (slots : Nat → α) : (new slots).Explained cfg :=
  ⟨_, Ring.sim_new cfg slots, ⟨⟨rfl, rfl⟩, fun _ => rfl⟩, ⟨⟨rfl, rfl⟩, fun _ => rfl⟩⟩

/-- **Step lemma.** Starting a call touches no memory; all else is a step of one thread. -/
theorem Explained.step (hmask : cfg.strategy = .pow2Masked) (h : s.Explained cfg)
    (act : Action α) : (s.step cfg act).Explained cfg := by
  obtain ⟨a, ha⟩ := h
  cases act with
  | push value => exact ⟨a, ha.startProducer fun hrest => ha.ring.pushStart hrest value⟩
  | pushBatch src => exact ⟨a, ha.startProducer fun hrest => ha.pushBatchStart hrest src⟩
  | pop => exact ⟨a, ha.startConsumer fun hrest => ha.ring.popStart hrest⟩
  | popBatch dstLen => exact ⟨a, ha.startConsumer fun hrest => ha.popBatchStart hrest dstLen⟩
  | producer => exact ha.producerStep hmask
  | consumer => exact ha.consumerStep hmask

/-! ### Safety of a state -/

/-- The ring is safe and no subtraction of either thread has underflowed. -/
structure Safe (cfg : RingConfig) (s : CopyRingEngine α) : Prop where
  ring : s.ring.Safe cfg s.writing s.reading
  producer : s.producer ≠ .panicked
  consumer : s.consumer ≠ .panicked

/-- What the protocol explains is safe: the slot being written is free, the one being read is
full, and a panic would stand nowhere in it. -/
theorem Sim.safe (h : s.Sim cfg a) : s.Safe cfg := by
  have hproducer := h.producer
  have hconsumer := h.consumer
  refine ⟨h.ring.safe ?_ ?_, ?_, ?_⟩
  · intro slot hslot
    simp only [CopyRingEngine.writing] at hslot
    split at hslot
    · cases hslot
    · cases hslot
    · next hrun =>
        rw [hrun] at hproducer
        exact hproducer.writing hslot
    · next hrun =>
        rw [hrun] at hproducer
        exact h.ring.batchWriting hproducer hslot
  · intro slot hslot
    simp only [CopyRingEngine.reading] at hslot
    split at hslot
    · cases hslot
    · cases hslot
    · next hrun =>
        rw [hrun] at hconsumer
        exact hconsumer.reading hslot
    · next hrun =>
        rw [hrun] at hconsumer
        exact h.ring.batchReading hconsumer hslot
  · intro hp
    rw [hp] at hproducer
    exact hproducer
  · intro hc
    rw [hc] at hconsumer
    exact hconsumer

/-! ### The values of finished calls -/

/-- The values offered by the last call of the producer, which was `source` before the action. -/
def offered (s : CopyRingEngine α) (source : List α) : Action α → List α
  | .push value =>
      match s.producer with
      | .idle _ => [value]
      | _ => source
  | .pushBatch src =>
      match s.producer with
      | .idle _ => src
      | _ => source
  | _ => source

/-- How many of them were accepted, by the answer of the call that a step finishes. -/
def accepted (cfg : RingConfig) (s : CopyRingEngine α) : Action α → Nat
  | .producer =>
      match s.producer with
      | .push pc =>
          match (s.ring.pushStep cfg pc).2 with
          | .returned true => 1
          | _ => 0
      | .batch pc =>
          match (s.ring.pushBatchStep cfg pc).2 with
          | .returned (some n) => n
          | _ => 0
      | _ => 0
  | _ => 0

/-- The values handed out by the call of the consumer that a step finishes. -/
def handedOut (cfg : RingConfig) (s : CopyRingEngine α) : Action α → List α
  | .consumer =>
      match s.consumer with
      | .pop pc =>
          match (s.ring.popStep cfg pc).2 with
          | .returned (some value) => [value]
          | _ => []
      | .batch pc =>
          match (s.ring.popBatchStep cfg pc).2 with
          | .returned (some out) => out
          | _ => []
      | _ => []
  | _ => []

end CopyRingEngine

/-- A ring in use, with the answers of its finished calls. -/
structure CopyLedger (α : Type) where
  engine : CopyRingEngine α
  /-- What the last call of the producer has offered. -/
  source : List α
  /-- The sum of the counts its calls have answered, `true` as one. -/
  count : Nat
  /-- The values these counts stand for: from the front of what was offered. -/
  accepted : List α
  handedOut : List α

namespace CopyLedger

/-- Over a new engine nothing has been answered. -/
def new (slots : Nat → α) : CopyLedger α := ⟨.new slots, [], 0, [], []⟩

/-- One action, with the answer it gives. -/
def step (cfg : RingConfig) (l : CopyLedger α) (act : CopyRingEngine.Action α) : CopyLedger α :=
  { engine := l.engine.step cfg act
    source := l.engine.offered l.source act
    count := l.count + l.engine.accepted cfg act
    accepted := l.accepted ++ l.source.take (l.engine.accepted cfg act)
    handedOut := l.handedOut ++ l.engine.handedOut cfg act }

/-- The ledger only watches the engine. -/
theorem run_engine (cfg : RingConfig) (l : CopyLedger α)
    (schedule : List (CopyRingEngine.Action α)) :
    (run (step cfg) l schedule).engine = run (CopyRingEngine.step cfg) l.engine schedule := by
  induction schedule generalizing l with
  | nil => rfl
  | cons act schedule ih => exact ih (l.step cfg act)

end CopyLedger

/-- The log of the producer is what its calls have accepted, and what the call in progress has
published of its source. -/
def CopyProducer.Balanced (line : ProducerLine α) (source accepted : List α) :
    CopyProducer α → Prop
  | .idle _ => line.pushed.map Prod.snd = accepted
  | .push pc => ∃ value, source = [value] ∧ pc.Carries value ∧
      line.pushed.map Prod.snd = accepted ++ pc.unreported value
  | .batch pc => pc.Carries source ∧
      line.pushed.map Prod.snd = accepted ++ source.take (pc.published?.getD 0)
  | .panicked => True

/-- The log of the consumer is what its calls have handed out, and what the call in progress
has taken. -/
def CopyConsumer.Balanced (line : ConsumerLine α) (handedOut : List α) : CopyConsumer α → Prop
  | .idle _ => line.popped = handedOut
  | .pop pc => line.popped = handedOut ++ pc.unreported
  | .batch pc => (∃ dstLen, pc.Carries dstLen) ∧ line.popped = handedOut ++ pc.taken?.getD []
  | .panicked => True

namespace CopyLedger

/-- Both logs are accounted for, and the counts are the numbers of values they stand for. -/
structure Balanced (l : CopyLedger α) : Prop where
  producer : l.engine.producer.Balanced l.engine.ring.producer l.source l.accepted
  consumer : l.engine.consumer.Balanced l.engine.ring.consumer l.handedOut
  counted : l.accepted.length = l.count

theorem balanced_new (slots : Nat → α) : (new slots).Balanced := ⟨rfl, rfl, rfl⟩

variable {cfg : RingConfig} {l : CopyLedger α}

/-- A producer that is in a call starts no other. -/
theorem Balanced.startProducer (h : l.Balanced) {source : List α} {next : CopyProducer α}
    (hnext : l.engine.ring.producer.pushed.map Prod.snd = l.accepted →
      next.Balanced l.engine.ring.producer source l.accepted) :
    ({ l with
      engine := l.engine.startProducer next
      source := match l.engine.producer with
        | .idle _ => source
        | _ => l.source } : CopyLedger α).Balanced := by
  have hproducer := h.producer
  cases hthread : l.engine.producer with
  | idle last =>
      rw [hthread] at hproducer
      simp only [CopyRingEngine.startProducer, hthread]
      exact ⟨hnext hproducer, h.consumer, h.counted⟩
  | push | batch | panicked =>
      simp only [CopyRingEngine.startProducer, hthread]
      exact h

theorem Balanced.startConsumer (h : l.Balanced) {next : CopyConsumer α}
    (hnext : l.engine.ring.consumer.popped = l.handedOut →
      next.Balanced l.engine.ring.consumer l.handedOut) :
    ({ l with engine := l.engine.startConsumer next } : CopyLedger α).Balanced := by
  have hconsumer := h.consumer
  cases hthread : l.engine.consumer with
  | idle last =>
      rw [hthread] at hconsumer
      simp only [CopyRingEngine.startConsumer, hthread]
      exact ⟨h.producer, hnext hconsumer, h.counted⟩
  | pop | batch | panicked =>
      simp only [CopyRingEngine.startConsumer, hthread]
      exact h

/-- A step of the producer moves values from its source to the log, and from the call in
progress to the answer; the ledger of the step says that none is lost in between. -/
theorem Balanced.producerStep (h : l.Balanced) :
    ({ l with
      engine := l.engine.producerStep cfg
      count := l.count + l.engine.accepted cfg .producer
      accepted := l.accepted ++ l.source.take (l.engine.accepted cfg .producer) } :
        CopyLedger α).Balanced := by
  have hproducer := h.producer
  have hcounted := h.counted
  cases hthread : l.engine.producer with
  | idle | panicked =>
      simp only [CopyRingEngine.producerStep, CopyRingEngine.accepted, hthread, List.take_zero,
        List.append_nil, Nat.add_zero]
      exact h
  | push pc =>
      rw [hthread] at hproducer
      obtain ⟨value, hsource, hcarries, hlog⟩ := hproducer
      obtain ⟨new, hpushed, hnext, hline, hkept⟩ := l.engine.ring.pushStep_ledger cfg hcarries
      rw [hlog, List.append_assoc, hnext] at hpushed
      have hconsumer := h.consumer
      rw [← hline] at hconsumer
      simp only [CopyRingEngine.producerStep, CopyRingEngine.accepted, hthread, hsource]
      -- what has been published is in the log, reported or not
      rcases hstep : l.engine.ring.pushStep cfg pc with ⟨ring, pc' | ok⟩
      · rw [hstep] at hpushed hconsumer hkept
        refine ⟨⟨value, rfl, hkept pc' rfl, ?_⟩, hconsumer, ?_⟩
        · rw [List.take_zero, List.append_nil]
          exact hpushed
        · rw [List.take_zero, List.append_nil]
          exact hcounted
      · rw [hstep] at hpushed hconsumer
        cases ok with
        | true => exact ⟨hpushed, hconsumer, by simp [hcounted]⟩
        | false => exact ⟨hpushed, hconsumer, by simp [hcounted]⟩
  | batch pc =>
      rw [hthread] at hproducer
      obtain ⟨hcarries, hlog⟩ := hproducer
      obtain ⟨new, hpushed, hnext, hle, hline, hkept⟩ :=
        l.engine.ring.pushBatchStep_ledger cfg hcarries
      rw [hlog, List.append_assoc, hnext] at hpushed
      have hconsumer := h.consumer
      rw [← hline] at hconsumer
      simp only [CopyRingEngine.producerStep, CopyRingEngine.accepted, hthread]
      rcases hstep : l.engine.ring.pushBatchStep cfg pc with ⟨ring, pc' | _ | n⟩
      · rw [hstep] at hpushed hconsumer hkept
        refine ⟨⟨hkept pc' rfl, ?_⟩, hconsumer, ?_⟩
        · rw [List.take_zero, List.append_nil]
          exact hpushed
        · rw [List.take_zero, List.append_nil]
          exact hcounted
      · rw [hstep] at hconsumer
        refine ⟨trivial, hconsumer, ?_⟩
        rw [List.take_zero, List.append_nil]
        exact hcounted
      · -- the count is answered for the front of the source
        rw [hstep] at hpushed hconsumer hle
        refine ⟨hpushed, hconsumer, ?_⟩
        have hcount : n ≤ l.source.length := hle
        show (l.accepted ++ l.source.take n).length = l.count + n
        rw [List.length_append, hcounted, List.length_take_of_le hcount]

/-- A step of the consumer, likewise. -/
theorem Balanced.consumerStep (h : l.Balanced) :
    ({ l with
      engine := l.engine.consumerStep cfg
      handedOut := l.handedOut ++ l.engine.handedOut cfg .consumer } : CopyLedger α).Balanced := by
  have hlog := h.consumer
  cases hthread : l.engine.consumer with
  | idle | panicked =>
      simp only [CopyRingEngine.consumerStep, CopyRingEngine.handedOut, hthread, List.append_nil]
      exact h
  | pop pc =>
      rw [hthread, CopyConsumer.Balanced] at hlog
      obtain ⟨new, hpopped, hnext, hline⟩ := l.engine.ring.popStep_ledger cfg pc
      rw [hlog, List.append_assoc, hnext] at hpopped
      have hproducer := h.producer
      rw [← hline] at hproducer
      simp only [CopyRingEngine.consumerStep, CopyRingEngine.handedOut, hthread]
      rcases hstep : l.engine.ring.popStep cfg pc with ⟨ring, pc' | value⟩
      · rw [hstep] at hpopped hproducer
        refine ⟨hproducer, ?_, h.counted⟩
        rw [List.append_nil]
        exact hpopped
      · rw [hstep] at hpopped hproducer
        refine ⟨hproducer, ?_, h.counted⟩
        cases value <;> exact hpopped
  | batch pc =>
      rw [hthread] at hlog
      obtain ⟨⟨dstLen, hcarries⟩, hlog⟩ := hlog
      obtain ⟨new, hpopped, hnext, -, hline, hkept⟩ :=
        l.engine.ring.popBatchStep_ledger cfg hcarries
      rw [hlog, List.append_assoc, hnext] at hpopped
      have hproducer := h.producer
      rw [← hline] at hproducer
      simp only [CopyRingEngine.consumerStep, CopyRingEngine.handedOut, hthread]
      rcases hstep : l.engine.ring.popBatchStep cfg pc with ⟨ring, pc' | _ | out⟩
      · rw [hstep] at hpopped hproducer hkept
        refine ⟨hproducer, ⟨⟨dstLen, hkept pc' rfl⟩, ?_⟩, h.counted⟩
        rw [List.append_nil]
        exact hpopped
      · rw [hstep] at hproducer
        exact ⟨hproducer, trivial, h.counted⟩
      · rw [hstep] at hpopped hproducer
        exact ⟨hproducer, hpopped, h.counted⟩

/-- **One step.** -/
theorem Balanced.step (h : l.Balanced) (act : CopyRingEngine.Action α) :
    (l.step cfg act).Balanced := by
  simp only [CopyLedger.step]
  cases act with
  | push value =>
      simp only [CopyRingEngine.accepted, CopyRingEngine.handedOut, List.take_zero,
        List.append_nil, Nat.add_zero]
      refine h.startProducer fun hidle => ⟨value, rfl, rfl, ?_⟩
      rw [hidle]
      exact (List.append_nil _).symm
  | pushBatch src =>
      simp only [CopyRingEngine.accepted, CopyRingEngine.handedOut, List.take_zero,
        List.append_nil, Nat.add_zero]
      refine h.startProducer fun hidle => ?_
      cases src with
      | nil => exact hidle
      | cons value rest =>
          refine ⟨⟨rfl, List.cons_ne_nil _ _⟩, ?_⟩
          rw [hidle]
          exact (List.append_nil _).symm
  | pop =>
      simp only [CopyRingEngine.accepted, CopyRingEngine.handedOut, List.take_zero,
        List.append_nil, Nat.add_zero]
      refine h.startConsumer fun hidle => ?_
      rw [CopyConsumer.Balanced, hidle]
      exact (List.append_nil _).symm
  | popBatch dstLen =>
      simp only [CopyRingEngine.accepted, CopyRingEngine.handedOut, List.take_zero,
        List.append_nil, Nat.add_zero]
      refine h.startConsumer fun hidle => ?_
      cases dstLen with
      | zero => exact hidle
      | succ n =>
          refine ⟨⟨n + 1, rfl, n.succ_ne_zero⟩, ?_⟩
          rw [hidle]
          exact (List.append_nil _).symm
  | producer =>
      rw [show l.engine.handedOut cfg .producer = [] from rfl, List.append_nil]
      exact h.producerStep
  | consumer =>
      rw [show l.engine.accepted cfg .consumer = 0 from rfl, List.take_zero, List.append_nil,
        Nat.add_zero]
      exact h.consumerStep

/-- **Every run.** -/
theorem balanced_run (cfg : RingConfig) (slots : Nat → α)
    (schedule : List (CopyRingEngine.Action α)) :
    (run (step cfg) (new slots) schedule).Balanced :=
  (always_of_step (fun _ act hl => hl.step act) (balanced_new slots) schedule).last

end CopyLedger

namespace CopyRingEngine

/-! ### Safety of every schedule -/

/-- **Safety of batches under interleaving.** For every masked ring and every schedule,
from any uninitialised memory, every state passed through is safe; and in each of them the
values published are the ones the answers of the pushes and batches stand for, the counts add
up to their number, and the values taken are those the pops have handed out, in order, up to
what a call in progress has moved and not reported yet. -/
theorem batch_schedule_safe (k : Nat) (aarch64 : Bool) (slots : Nat → α)
    (schedule : List (Action α)) :
    Always (step (.masked k aarch64)) (Safe (.masked k aarch64)) (new slots) schedule ∧
      ∀ pre, pre <+: schedule →
        let l := run (CopyLedger.step (.masked k aarch64)) (.new slots) pre
        l.engine = run (step (.masked k aarch64)) (new slots) pre ∧ l.Balanced := by
  constructor
  · have hexplained :
        Always (step (.masked k aarch64)) (Explained (.masked k aarch64)) (new slots) schedule :=
      always_of_step (fun _ act hs => hs.step rfl act) (explained_new _ slots) schedule
    intro pre hpre
    obtain ⟨a, ha⟩ := hexplained pre hpre
    exact ha.safe
  · intro pre _ l
    exact ⟨CopyLedger.run_engine _ (.new slots) pre, CopyLedger.balanced_run _ slots pre⟩

/-- A batch of three around the wrap point of a ring of four, popped in one call. -/
example : (run (step (.masked 2 false)) (new fun _ => 0)
    [.push 5, .producer, .producer, .producer, .pop, .consumer, .consumer, .consumer, .consumer,
      .pushBatch [7, 8, 9, 10], .producer, .producer, .producer, .producer, .producer, .producer,
      .popBatch 8, .consumer, .consumer, .consumer, .consumer, .consumer,
      .consumer]).ring.consumer.popped = [5, 7, 8, 9] := by decide

end CopyRingEngine

end Mantis
