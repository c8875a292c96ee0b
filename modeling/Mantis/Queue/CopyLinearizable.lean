import Mantis.Queue.CopyRingEngine
import Mantis.Queue.Linearizable

/-!
# Mantis.Queue.CopyLinearizable

What the two threads of a `CopyRingEngine` can rely on together, batches included. A batch
copies its elements one slot at a time, but the other thread sees all of them appear or
disappear at once: `batch_schedule_linearizable`.

The object behind it is a bounded queue on which a batch may be **short** (`ShortFifo`). A
batch computes its size from the index of the other side and moves that many elements
later, when there may be room for more. So `push_batch` accepts some prefix of its source;
only its answer zero says that the queue was full.
-/

namespace Mantis

open Linear Runs

variable {α : Type}

/-! ### The object -/

/-- A call of one of the threads. -/
inductive CopyCall (α : Type)
  | push (value : α)
  | pushBatch (src : List α)
  | pop
  | popBatch (dstLen : Nat)
  deriving DecidableEq, Repr

/-- What a call of one of the threads returns. -/
inductive CopyAnswer (α : Type)
  | pushed (result : CopyPushResult)
  | popped (result : CopyPopResult α)
  deriving DecidableEq, Repr

/-- A bounded queue with short batches. -/
inductive ShortFifo {cap : Nat} (q : Fifo α cap) :
    CopyCall α → CopyAnswer α → Fifo α cap → Prop
  | push (value : α) : ShortFifo q (.push value) (.pushed (.bool (q.push value).2)) (q.push value).1
  | pop : ShortFifo q .pop (.popped (.bool q.pop.2)) q.pop.1
  | pushBatch (src : List α) (n : Nat) (q' : Fifo α cap) (hle : n ≤ src.length)
      (hitems : q'.items = q.items ++ src.take n)
      (hnone : n = 0 → src = [] ∨ q.items.length = cap) :
      ShortFifo q (.pushBatch src) (.pushed (.count n)) q'
  | popBatch (dstLen : Nat) (out : List α) (q' : Fifo α cap) (hle : out.length ≤ dstLen)
      (hitems : q.items = out ++ q'.items) (hnone : out = [] → dstLen = 0 ∨ q.items = []) :
      ShortFifo q (.popBatch dstLen) (.popped (.count out)) q'

/-! ### What a step of a batch does to the contents -/

/-- What a step of a `push_batch` does to the queue: nothing, or the whole batch. -/
inductive PushBatchEffect (cfg : RingConfig) (src : List α) (r r' : Ring α)
    (pc : PushBatchPc α) : Next (PushBatchPc α) (Option Nat) → Prop
  | quiet (pc' : PushBatchPc α) (hcarries : pc'.Carries src) (hpc : pc.published? = none)
      (hpc' : pc'.published? = none) (hsame : r'.contents = r.contents) :
      PushBatchEffect cfg src r r' pc (.running pc')
  /-- Published, to be returned by a later step. -/
  | published (pc' : PushBatchPc α) (n : Nat) (hcarries : pc'.Carries src)
      (hpc : pc.published? = none) (hpc' : pc'.published? = some n) (hpos : n ≠ 0)
      (hle : n ≤ src.length) (hpush : r'.contents = r.contents ++ src.take n) :
      PushBatchEffect cfg src r r' pc (.running pc')
  | accepted (n : Nat) (hpc : pc.published? = none) (hpos : n ≠ 0) (hle : n ≤ src.length)
      (hpush : r'.contents = r.contents ++ src.take n) :
      PushBatchEffect cfg src r r' pc (.returned (some n))
  | refused (hpc : pc.published? = none) (hfull : r.contents.length = cfg.cap - 1)
      (hsame : r'.contents = r.contents) : PushBatchEffect cfg src r r' pc (.returned (some 0))
  /-- The return of a batch already published. -/
  | reported (n : Nat) (hpc : pc.published? = some n) (hsame : r'.contents = r.contents) :
      PushBatchEffect cfg src r r' pc (.returned (some n))

/-- What a step of a `pop_batch` does to the queue: nothing, or the whole batch. -/
inductive PopBatchEffect (dstLen : Nat) (r r' : Ring α) (pc : PopBatchPc α) :
    Next (PopBatchPc α) (Option (List α)) → Prop
  | quiet (pc' : PopBatchPc α) (hcarries : pc'.Carries dstLen) (hpc : pc.taken? = none)
      (hpc' : pc'.taken? = none) (hsame : r'.contents = r.contents) :
      PopBatchEffect dstLen r r' pc (.running pc')
  | taken (pc' : PopBatchPc α) (out : List α) (hcarries : pc'.Carries dstLen)
      (hpc : pc.taken? = none) (hpc' : pc'.taken? = some out) (hpos : out ≠ [])
      (hle : out.length ≤ dstLen) (hpop : r.contents = out ++ r'.contents) :
      PopBatchEffect dstLen r r' pc (.running pc')
  | handedOut (out : List α) (hpc : pc.taken? = none) (hpos : out ≠ [])
      (hle : out.length ≤ dstLen) (hpop : r.contents = out ++ r'.contents) :
      PopBatchEffect dstLen r r' pc (.returned (some out))
  | refused (hpc : pc.taken? = none) (hempty : r.contents = []) (hsame : r'.contents = r.contents) :
      PopBatchEffect dstLen r r' pc (.returned (some []))
  | reported (out : List α) (hpc : pc.taken? = some out) (hsame : r'.contents = r.contents) :
      PopBatchEffect dstLen r r' pc (.returned (some out))

section Effects

variable {cfg : RingConfig} {r : Ring α} {a : Spsc.State α}

/-- A `push_batch` answers zero only while the ring is full. -/
theorem Ring.Sim.full_of_refusedBatch (h : r.Sim cfg a) {pc : PushBatchPc α}
    (hpc : pc.Sim cfg r.producer a.producer) {src : List α} (hcarries : pc.Carries src)
    (hfail : (r.pushBatchStep cfg pc).2 = .returned (some 0)) :
    r.contents.length = cfg.cap - 1 := by
  cases pc with
  | compare src' head =>
      simp only [Ring.pushBatchStep] at hfail
      split at hfail
      · cases hfail
      · split at hfail
        · cases hfail
        · exact absurd hfail (Next.ofOption_ne_returned _ _)
  | refresh src' head =>
      obtain ⟨hrest, rfl⟩ := hpc
      have hfree : ringFree cfg.cap (a.producer.nextSlot cfg.cap) r.consumer.tail =
          some (cfg.cap - 1 - (a.producer.log.length - a.consumer.taken.length)) := by
        rw [h.consumer.tail]
        exact ringFree_of_inv h.refreshTail.sim.inv
      simp only [Ring.pushBatchStep, hfree] at hfail
      split at hfail
      · next hzero =>
          -- no free slot: the log is as long as the capacity allows
          have hbound := h.logs.2
          have hlog := log_of_idle hrest.idle
          rw [r.length_contents, h.producer.pushed, h.consumer.popped] at hbound ⊢
          rw [hlog] at hzero
          omega
      · exact absurd hfail (Next.ofOption_ne_returned _ _)
  | copy head n first rest written =>
      cases rest with
      | cons value rest => cases hfail
      | nil =>
          simp only [Ring.pushBatchStep] at hfail
          split at hfail
          · cases hfail
          · cases hfail
            exact absurd rfl hcarries.1
  | setLocal newHead n =>
      cases hfail
      exact absurd rfl hcarries.1

/-- A `pop_batch` hands nothing out only while the ring is empty. -/
theorem Ring.Sim.empty_of_refusedBatch (h : r.Sim cfg a) {pc : PopBatchPc α}
    (hpc : pc.Sim cfg r.consumer a.consumer) {dstLen : Nat} (hcarries : pc.Carries dstLen)
    (hfail : (r.popBatchStep cfg pc).2 = .returned (some [])) : r.contents = [] := by
  cases pc with
  | compare dstLen' tail =>
      simp only [Ring.popBatchStep] at hfail
      split at hfail
      · cases hfail
      · split at hfail
        · cases hfail
        · exact absurd hfail (Next.ofOption_ne_returned _ _)
  | refresh dstLen' tail =>
      obtain ⟨hrest, rfl⟩ := hpc
      have havail : ringLen cfg.cap r.producer.head (a.consumer.nextSlot cfg.cap) =
          some (a.producer.published.length -
            (a.consumer.taken.length + a.consumer.got.length)) := by
        rw [h.producer.head]
        exact ringLen_of_inv h.refreshHead.sim.inv
      simp only [Ring.popBatchStep, havail] at hfail
      split at hfail
      · next hzero =>
          rw [hrest.idle.2, List.length_nil, Nat.add_zero] at hzero
          rw [← List.length_eq_zero_iff, r.length_contents, h.producer.pushed, h.consumer.popped]
          exact hzero
      · exact absurd hfail (Next.ofOption_ne_returned _ _)
  | copy tail n first out =>
      obtain ⟨hpos, -, -⟩ := hcarries
      simp only [Ring.popBatchStep] at hfail
      split at hfail
      · cases hfail
      · next hlt =>
          split at hfail
          · cases hfail
          · cases hfail
            exact absurd (Nat.pos_of_ne_zero hpos) hlt
  | setLocal newTail out =>
      cases hfail
      exact absurd rfl hcarries.1

/-- **One step of a `push_batch`.** -/
theorem Ring.Sim.pushBatchEffect (hmask : cfg.strategy = .pow2Masked) (h : r.Sim cfg a)
    {pc : PushBatchPc α} (hpc : pc.Sim cfg r.producer a.producer) {src : List α}
    (hcarries : pc.Carries src) :
    PushBatchEffect cfg src r (r.pushBatchStep cfg pc).1 pc (r.pushBatchStep cfg pc).2 := by
  obtain ⟨a', -, hreached⟩ := h.pushBatchStep hmask hpc
  have hrefused := h.full_of_refusedBatch hpc hcarries
  obtain ⟨new, hpushed, hreport, hle, hline, hkept⟩ := r.pushBatchStep_ledger cfg hcarries
  have hcontents := h.contents_push hpushed hline
  cases hpub : pc.published? with
  | some n =>
      cases pc with
      | setLocal _ _ =>
          cases hpub
          exact .reported n rfl rfl
      | compare | refresh | copy => cases hpub
  | none =>
      rw [hpub, Option.getD_none, List.take_zero, List.nil_append] at hreport
      subst hreport
      cases hout : (r.pushBatchStep cfg pc).2 with
      | running pc' =>
          have hcarries' := hkept pc' hout
          rw [hout, Next.published] at hcontents
          cases hpub' : pc'.published? with
          | none =>
              rw [hpub', Option.getD_none, List.take_zero, List.append_nil] at hcontents
              exact .quiet pc' hcarries' hpub hpub' hcontents
          | some n =>
              obtain ⟨hpos, hfits⟩ := hcarries'.published hpub'
              rw [hpub'] at hcontents
              exact .published pc' n hcarries' hpub hpub' hpos hfits hcontents
      | returned out =>
          rw [hout] at hcontents hle hreached
          cases out with
          | none => exact absurd rfl hreached.1
          | some n =>
              by_cases hpos : n = 0
              · subst hpos
                exact .refused hpub (hrefused hout) (hcontents.trans (List.append_nil _))
              · exact .accepted n hpub hpos hle hcontents

/-- **One step of a `pop_batch`.** -/
theorem Ring.Sim.popBatchEffect (hmask : cfg.strategy = .pow2Masked) (h : r.Sim cfg a)
    {pc : PopBatchPc α} (hpc : pc.Sim cfg r.consumer a.consumer) {dstLen : Nat}
    (hcarries : pc.Carries dstLen) :
    PopBatchEffect dstLen r (r.popBatchStep cfg pc).1 pc (r.popBatchStep cfg pc).2 := by
  obtain ⟨a', hmatch, hreached⟩ := h.popBatchStep hmask hpc
  have hrefused := h.empty_of_refusedBatch hpc hcarries
  obtain ⟨new, hpopped, hreport, hle, hline, hkept⟩ := r.popBatchStep_ledger cfg hcarries
  have hcontents := hmatch.sim.contents_pop hpopped hline
  cases htaken : pc.taken? with
  | some out =>
      cases pc with
      | setLocal _ _ =>
          cases htaken
          exact .reported out rfl rfl
      | compare | refresh | copy => cases htaken
  | none =>
      rw [htaken, Option.getD_none, List.nil_append] at hreport
      subst hreport
      cases hout : (r.popBatchStep cfg pc).2 with
      | running pc' =>
          have hcarries' := hkept pc' hout
          rw [hout, Next.taken] at hcontents
          cases htaken' : pc'.taken? with
          | none =>
              rw [htaken', Option.getD_none, List.nil_append] at hcontents
              exact .quiet pc' hcarries' htaken htaken' hcontents.symm
          | some out =>
              obtain ⟨hpos, hfits⟩ := hcarries'.taken htaken'
              rw [htaken'] at hcontents
              exact .taken pc' out hcarries' htaken htaken' hpos hfits hcontents
      | returned out =>
          rw [hout] at hcontents hle hreached
          cases out with
          | none => exact absurd rfl hreached.1
          | some out =>
              by_cases hpos : out = []
              · subst hpos
                exact .refused htaken (hrefused hout) hcontents.symm
              · exact .handedOut out htaken hpos hle hcontents

end Effects

namespace CopyRingEngine

/-! ### What the clients see -/

/-- A thread that is in a call starts no other. -/
def pushEvents (s : CopyRingEngine α) (value : α) :
    List (Event RingThread (CopyCall α) (CopyAnswer α)) :=
  match s.producer with
  | .idle _ => [.invoke .producer (.push value)]
  | _ => []

/-- An empty batch is called and has returned in one action. -/
def pushBatchEvents (s : CopyRingEngine α) (src : List α) :
    List (Event RingThread (CopyCall α) (CopyAnswer α)) :=
  match s.producer with
  | .idle _ =>
      .invoke .producer (.pushBatch src) ::
        if src.isEmpty then [.respond .producer (.pushed (.count 0))] else []
  | _ => []

/-- The invocation of a pop, if the consumer is in no call. -/
def popEvents (s : CopyRingEngine α) : List (Event RingThread (CopyCall α) (CopyAnswer α)) :=
  match s.consumer with
  | .idle _ => [.invoke .consumer .pop]
  | _ => []

/-- An empty buffer is called for and has returned in one action. -/
def popBatchEvents (s : CopyRingEngine α) (dstLen : Nat) :
    List (Event RingThread (CopyCall α) (CopyAnswer α)) :=
  match s.consumer with
  | .idle _ =>
      .invoke .consumer (.popBatch dstLen) ::
        if dstLen = 0 then [.respond .consumer (.popped (.count []))] else []
  | _ => []

/-- The invocation or response in an action. -/
def events (cfg : RingConfig) (s : CopyRingEngine α) :
    Action α → List (Event RingThread (CopyCall α) (CopyAnswer α))
  | .push value => s.pushEvents value
  | .pushBatch src => s.pushBatchEvents src
  | .pop => s.popEvents
  | .popBatch dstLen => s.popBatchEvents dstLen
  | .producer =>
      match s.producer with
      | .idle _ | .panicked => []
      | .push pc =>
          match (s.ring.pushStep cfg pc).2 with
          | .running _ => []
          | .returned ok => [.respond .producer (.pushed (.bool ok))]
      | .batch pc =>
          match (s.ring.pushBatchStep cfg pc).2 with
          | .running _ => []
          | .returned (some n) => [.respond .producer (.pushed (.count n))]
          | .returned none => []
  | .consumer =>
      match s.consumer with
      | .idle _ | .panicked => []
      | .pop pc =>
          match (s.ring.popStep cfg pc).2 with
          | .running _ => []
          | .returned value => [.respond .consumer (.popped (.bool value))]
      | .batch pc =>
          match (s.ring.popBatchStep cfg pc).2 with
          | .running _ => []
          | .returned (some out) => [.respond .consumer (.popped (.count out))]
          | .returned none => []

/-! ### The ring and the short queue -/

/-- The machine with a queue on which every call, short or not, is one step. -/
abbrev AtomicShortFifo (cfg : RingConfig) (α : Type) : Type :=
  Atomic RingThread (Fifo α (cfg.cap - 1)) (CopyCall α) (CopyAnswer α)

/-- The status a producer shows. -/
def ProducerShows : CopyProducer α → Status (CopyCall α) (CopyAnswer α) → Prop
  | .idle _, st => st = .idle
  | .push pc, st => ∃ value, pc.Carries value ∧
      st = pc.status (.push value) (fun ok => .pushed (.bool ok)) value
  | .batch pc, st => ∃ src, pc.Carries src ∧
      st = .ofEffect (.pushBatch src) (fun n => .pushed (.count n)) pc.published?
  | .panicked, _ => False

/-- The status a consumer shows. -/
def ConsumerShows : CopyConsumer α → Status (CopyCall α) (CopyAnswer α) → Prop
  | .idle _, st => st = .idle
  | .pop pc, st => st = pc.status .pop fun out => .popped (.bool out)
  | .batch pc, st => ∃ dstLen, pc.Carries dstLen ∧
      st = .ofEffect (.popBatch dstLen) (fun out => .popped (.count out)) pc.taken?
  | .panicked, _ => False

/-- The status a thread shows. -/
def Shows (s : CopyRingEngine α) : RingThread → Status (CopyCall α) (CopyAnswer α) → Prop
  | .producer => ProducerShows s.producer
  | .consumer => ConsumerShows s.consumer

/-- The queue holds the contents of the ring, and both threads stand where they do there. -/
structure Tracks (cfg : RingConfig) (s : CopyRingEngine α) (q : AtomicShortFifo cfg α) :
    Prop where
  explained : s.Explained cfg
  stands : Stands (·.items = s.ring.contents) s.Shows q

variable {cfg : RingConfig} {s : CopyRingEngine α} {q : AtomicShortFifo cfg α}

/-- Both threads are idle over an empty ring. -/
theorem tracks_new (cfg : RingConfig) (slots : Nat → α) :
    (new slots).Tracks cfg (.init .empty) := by
  refine ⟨explained_new cfg slots, rfl, fun t => ?_⟩
  cases t <;> rfl

/-! ### Starting a call -/

/-- A call becomes pending; the ring is not touched. -/
theorem Tracks.startPush (h : s.Tracks cfg q) (value : α) :
    let s' := s.startProducer (.push (s.ring.pushStart cfg value))
    ∃ q', Moves ShortFifo q (s.pushEvents value) q' ∧
      Stands (·.items = s'.ring.contents) s'.Shows q' := by
  have hproducer : ProducerShows s.producer (q.status .producer) := h.stands.status .producer
  cases hthread : s.producer with
  | idle last =>
      rw [hthread] at hproducer
      simp only [CopyRingEngine.startProducer, pushEvents, hthread]
      refine h.stands.invoke (RingThread.forall_ne_producer rfl) hproducer h.stands.object ?_
      exact ⟨value, rfl, rfl⟩
  | push | batch | panicked =>
      simp only [CopyRingEngine.startProducer, pushEvents, hthread]
      exact ⟨q, .refl, h.stands⟩

/-- A batch becomes pending. An empty one takes effect and returns in the same action, whatever
the queue holds. -/
theorem Tracks.startPushBatch (h : s.Tracks cfg q) (src : List α) :
    let s' := s.startProducer (s.pushBatchStart cfg src)
    ∃ q', Moves ShortFifo q (s.pushBatchEvents src) q' ∧
      Stands (·.items = s'.ring.contents) s'.Shows q' := by
  have hproducer : ProducerShows s.producer (q.status .producer) := h.stands.status .producer
  cases hthread : s.producer with
  | idle last =>
      rw [hthread] at hproducer
      simp only [CopyRingEngine.startProducer, pushBatchEvents, hthread]
      cases src with
      | nil =>
          have hspec : ShortFifo q.object (.pushBatch []) (.pushed (.count 0)) q.object :=
            .pushBatch [] 0 q.object (Nat.le_refl 0) (List.append_nil _).symm fun _ => Or.inl rfl
          exact h.stands.at_once (RingThread.forall_ne_producer rfl) hproducer hspec
            h.stands.object rfl
      | cons value rest =>
          refine h.stands.invoke (RingThread.forall_ne_producer rfl) hproducer h.stands.object ?_
          exact ⟨_, ⟨rfl, List.cons_ne_nil _ _⟩, rfl⟩
  | push | batch | panicked =>
      simp only [CopyRingEngine.startProducer, pushBatchEvents, hthread]
      exact ⟨q, .refl, h.stands⟩

/-- A call becomes pending; the ring is not touched. -/
theorem Tracks.startPop (h : s.Tracks cfg q) :
    let s' := s.startConsumer (.pop (s.ring.popStart cfg))
    ∃ q', Moves ShortFifo q s.popEvents q' ∧
      Stands (·.items = s'.ring.contents) s'.Shows q' := by
  have hconsumer : ConsumerShows s.consumer (q.status .consumer) := h.stands.status .consumer
  cases hthread : s.consumer with
  | idle last =>
      rw [hthread] at hconsumer
      simp only [CopyRingEngine.startConsumer, popEvents, hthread]
      exact h.stands.invoke (RingThread.forall_ne_consumer rfl) hconsumer h.stands.object rfl
  | pop | batch | panicked =>
      simp only [CopyRingEngine.startConsumer, popEvents, hthread]
      exact ⟨q, .refl, h.stands⟩

/-- As for `push_batch`: into an empty buffer nothing is popped. -/
theorem Tracks.startPopBatch (h : s.Tracks cfg q) (dstLen : Nat) :
    let s' := s.startConsumer (s.popBatchStart cfg dstLen)
    ∃ q', Moves ShortFifo q (s.popBatchEvents dstLen) q' ∧
      Stands (·.items = s'.ring.contents) s'.Shows q' := by
  have hconsumer : ConsumerShows s.consumer (q.status .consumer) := h.stands.status .consumer
  cases hthread : s.consumer with
  | idle last =>
      rw [hthread] at hconsumer
      simp only [CopyRingEngine.startConsumer, popBatchEvents, hthread]
      cases dstLen with
      | zero =>
          have hspec : ShortFifo q.object (.popBatch 0) (.popped (.count [])) q.object :=
            .popBatch 0 [] q.object (Nat.le_refl 0) rfl fun _ => Or.inl rfl
          exact h.stands.at_once (RingThread.forall_ne_consumer rfl) hconsumer hspec
            h.stands.object rfl
      | succ n =>
          refine h.stands.invoke (RingThread.forall_ne_consumer rfl) hconsumer h.stands.object ?_
          exact ⟨_, ⟨rfl, n.succ_ne_zero⟩, rfl⟩
  | pop | batch | panicked =>
      simp only [CopyRingEngine.startConsumer, popBatchEvents, hthread]
      exact ⟨q, .refl, h.stands⟩

/-! ### One step of a call -/

/-- A step of a single push, which is that of the other ring. -/
theorem Tracks.pushStep (h : s.Tracks cfg q) {pc : PushPc α} (hthread : s.producer = .push pc) :
    ∃ q', Moves ShortFifo q (s.events cfg .producer) q' ∧
      Stands (·.items = (s.producerStep cfg).ring.contents) (s.producerStep cfg).Shows q' := by
  obtain ⟨a, hsim⟩ := h.explained
  have hproducer : ProducerShows s.producer (q.status .producer) := h.stands.status .producer
  have hpc := hsim.producer
  rw [hthread] at hproducer hpc
  obtain ⟨value, hcarries, hstatus⟩ := hproducer
  have heffect := hsim.ring.pushEffect hpc hcarries
  simp only [CopyRingEngine.producerStep, events, hthread]
  rcases hstep : s.ring.pushStep cfg pc with ⟨ring, pc' | ok⟩
  · rw [hstep] at heffect
    refine heffect.moves h.stands hstatus (fun _ => .push value) rfl
      (fun _ hrun hcarries' => ?_) fun _ hret => by cases hret
    cases hrun
    exact ⟨value, hcarries', rfl⟩
  · rw [hstep] at heffect
    exact heffect.moves h.stands hstatus (fun _ => .push value) rfl
      (fun _ hrun => by cases hrun) fun _ _ => rfl

/-- A step of a single pop, which is that of the other ring. -/
theorem Tracks.popStep (h : s.Tracks cfg q) {pc : PopPc α} (hthread : s.consumer = .pop pc) :
    ∃ q', Moves ShortFifo q (s.events cfg .consumer) q' ∧
      Stands (·.items = (s.consumerStep cfg).ring.contents) (s.consumerStep cfg).Shows q' := by
  obtain ⟨a, hsim⟩ := h.explained
  have hstatus : ConsumerShows s.consumer (q.status .consumer) := h.stands.status .consumer
  have hpc := hsim.consumer
  rw [hthread] at hstatus hpc
  have heffect := hsim.ring.popEffect hpc
  simp only [CopyRingEngine.consumerStep, events, hthread]
  rcases hstep : s.ring.popStep cfg pc with ⟨ring, pc' | value⟩
  · rw [hstep] at heffect
    refine heffect.moves h.stands hstatus (fun _ => .pop) rfl (fun _ hrun => ?_)
      fun _ hret => by cases hret
    cases hrun
    rfl
  · rw [hstep] at heffect
    exact heffect.moves h.stands hstatus (fun _ => .pop) rfl (fun _ hrun => by cases hrun)
      fun _ _ => rfl

/-- A step of a `push_batch`. The batch takes effect as a whole, when it publishes its index;
that it still fits then is what the ring after the step shows. -/
theorem Tracks.pushBatchStep (hmask : cfg.strategy = .pow2Masked) (h : s.Tracks cfg q)
    (hexplained : (s.producerStep cfg).Explained cfg) {pc : PushBatchPc α}
    (hthread : s.producer = .batch pc) :
    ∃ q', Moves ShortFifo q (s.events cfg .producer) q' ∧
      Stands (·.items = (s.producerStep cfg).ring.contents) (s.producerStep cfg).Shows q' := by
  obtain ⟨a, hsim⟩ := h.explained
  obtain ⟨a', hsim'⟩ := hexplained
  have hproducer : ProducerShows s.producer (q.status .producer) := h.stands.status .producer
  have hitems : q.object.items = s.ring.contents := h.stands.object
  have hpc := hsim.producer
  rw [hthread] at hproducer hpc
  obtain ⟨src, hcarries, hstatus⟩ := hproducer
  have heffect := hsim.ring.pushBatchEffect hmask hpc hcarries
  have hbound := hsim'.ring.logs.2
  simp only [CopyRingEngine.producerStep, events, hthread] at hbound ⊢
  generalize s.ring.pushBatchStep cfg pc = out at heffect hbound ⊢
  obtain ⟨ring, next⟩ := out
  cases heffect with
  | quiet pc' hcarries' hquiet hquiet' hsame =>
      rw [hquiet, ← hquiet'] at hstatus
      exact h.stands.stay (RingThread.forall_ne_producer rfl) (hitems.trans hsame.symm)
        ⟨src, hcarries', hstatus⟩
  | published pc' n hcarries' hquiet hpublished hpos hle hpush =>
      rw [hquiet] at hstatus
      have hspec : ShortFifo q.object (.pushBatch src) (.pushed (.count n)) ⟨_, hbound⟩ :=
        .pushBatch src n _ hle (hitems ▸ hpush) fun h0 => absurd h0 hpos
      refine h.stands.commit (RingThread.forall_ne_producer rfl) hstatus hspec rfl ?_
      exact ⟨src, hcarries', by rw [hpublished]; rfl⟩
  | accepted n hquiet hpos hle hpush =>
      rw [hquiet] at hstatus
      have hspec : ShortFifo q.object (.pushBatch src) (.pushed (.count n)) ⟨_, hbound⟩ :=
        .pushBatch src n _ hle (hitems ▸ hpush) fun h0 => absurd h0 hpos
      exact h.stands.commit_respond (RingThread.forall_ne_producer rfl) hstatus hspec rfl rfl
  | refused hquiet hfull hsame =>
      rw [hquiet] at hstatus
      have hspec : ShortFifo q.object (.pushBatch src) (.pushed (.count 0)) q.object :=
        .pushBatch src 0 _ (Nat.zero_le _) (List.append_nil _).symm
          fun _ => Or.inr (hitems ▸ hfull)
      exact h.stands.commit_respond (RingThread.forall_ne_producer rfl) hstatus hspec
        (hitems.trans hsame.symm) rfl
  | reported n hpublished hsame =>
      rw [hpublished] at hstatus
      exact h.stands.respond (RingThread.forall_ne_producer rfl) hstatus
        (hitems.trans hsame.symm) rfl

/-- A step of a `pop_batch`, which takes effect when it releases its slots. -/
theorem Tracks.popBatchStep (hmask : cfg.strategy = .pow2Masked) (h : s.Tracks cfg q)
    (hexplained : (s.consumerStep cfg).Explained cfg) {pc : PopBatchPc α}
    (hthread : s.consumer = .batch pc) :
    ∃ q', Moves ShortFifo q (s.events cfg .consumer) q' ∧
      Stands (·.items = (s.consumerStep cfg).ring.contents) (s.consumerStep cfg).Shows q' := by
  obtain ⟨a, hsim⟩ := h.explained
  obtain ⟨a', hsim'⟩ := hexplained
  have hconsumer : ConsumerShows s.consumer (q.status .consumer) := h.stands.status .consumer
  have hitems : q.object.items = s.ring.contents := h.stands.object
  have hpc := hsim.consumer
  rw [hthread] at hconsumer hpc
  obtain ⟨dstLen, hcarries, hstatus⟩ := hconsumer
  have heffect := hsim.ring.popBatchEffect hmask hpc hcarries
  have hbound := hsim'.ring.logs.2
  simp only [CopyRingEngine.consumerStep, events, hthread] at hbound ⊢
  generalize s.ring.popBatchStep cfg pc = out at heffect hbound ⊢
  obtain ⟨ring, next⟩ := out
  cases heffect with
  | quiet pc' hcarries' hquiet hquiet' hsame =>
      rw [hquiet, ← hquiet'] at hstatus
      exact h.stands.stay (RingThread.forall_ne_consumer rfl) (hitems.trans hsame.symm)
        ⟨dstLen, hcarries', hstatus⟩
  | taken pc' out hcarries' hquiet htaken hpos hle hpop =>
      rw [hquiet] at hstatus
      have hspec : ShortFifo q.object (.popBatch dstLen) (.popped (.count out)) ⟨_, hbound⟩ :=
        .popBatch dstLen out _ hle (hitems.trans hpop) fun h0 => absurd h0 hpos
      refine h.stands.commit (RingThread.forall_ne_consumer rfl) hstatus hspec rfl ?_
      exact ⟨dstLen, hcarries', by rw [htaken]; rfl⟩
  | handedOut out hquiet hpos hle hpop =>
      rw [hquiet] at hstatus
      have hspec : ShortFifo q.object (.popBatch dstLen) (.popped (.count out)) ⟨_, hbound⟩ :=
        .popBatch dstLen out _ hle (hitems.trans hpop) fun h0 => absurd h0 hpos
      exact h.stands.commit_respond (RingThread.forall_ne_consumer rfl) hstatus hspec rfl rfl
  | refused hquiet hempty hsame =>
      rw [hquiet] at hstatus
      have hspec : ShortFifo q.object (.popBatch dstLen) (.popped (.count [])) q.object :=
        .popBatch dstLen [] _ (Nat.zero_le _) rfl fun _ => Or.inr (hitems.trans hempty)
      exact h.stands.commit_respond (RingThread.forall_ne_consumer rfl) hstatus hspec
        (hitems.trans hsame.symm) rfl
  | reported out htaken hsame =>
      rw [htaken] at hstatus
      exact h.stands.respond (RingThread.forall_ne_consumer rfl) hstatus
        (hitems.trans hsame.symm) rfl

/-! ### Every schedule -/

/-- **One action.** -/
theorem Tracks.step (hmask : cfg.strategy = .pow2Masked) (h : s.Tracks cfg q) (act : Action α) :
    ∃ q', Moves ShortFifo q (s.events cfg act) q' ∧ (s.step cfg act).Tracks cfg q' := by
  have hexplained := h.explained.step hmask act
  have hmoves : ∃ q', Moves ShortFifo q (s.events cfg act) q' ∧
      Stands (·.items = (s.step cfg act).ring.contents) (s.step cfg act).Shows q' := by
    cases act with
    | push value => exact h.startPush value
    | pushBatch src => exact h.startPushBatch src
    | pop => exact h.startPop
    | popBatch dstLen => exact h.startPopBatch dstLen
    | producer =>
        cases hthread : s.producer with
        | push pc => exact h.pushStep hthread
        | batch pc => exact h.pushBatchStep hmask hexplained hthread
        | idle | panicked =>
            simp only [CopyRingEngine.step, CopyRingEngine.producerStep, events, hthread]
            exact ⟨q, .refl, h.stands⟩
    | consumer =>
        cases hthread : s.consumer with
        | pop pc => exact h.popStep hthread
        | batch pc => exact h.popBatchStep hmask hexplained hthread
        | idle | panicked =>
            simp only [CopyRingEngine.step, CopyRingEngine.consumerStep, events, hthread]
            exact ⟨q, .refl, h.stands⟩
  obtain ⟨q', hevents, hstands⟩ := hmoves
  exact ⟨q', hevents, hexplained, hstands⟩

/-- **The copying ring is a linearizable queue with short batches.** For every masked ring,
target and schedule of the two threads, what they see is what a queue of at most `cap - 1`
elements shows on which every call, batches included, happens at one instant between its
invocation and its response. -/
theorem batch_schedule_linearizable (k : Nat) (aarch64 : Bool) (slots : Nat → α)
    (schedule : List (Action α)) :
    Linearizable ShortFifo (.empty : Fifo α ((RingConfig.masked k aarch64).cap - 1))
      (history (step (.masked k aarch64)) (events (.masked k aarch64)) (new slots) schedule) :=
  linearizable_of_simulation (fun _ _ act htracks _ => htracks.step rfl act)
    (tracks_new (.masked k aarch64) slots)
    (allSteps_of_forall (q := fun _ => True) (fun _ _ => trivial) _)

/-- The second batch sees room for one value, and publishes it when the ring is empty. Neither
order of the last two calls has these answers on a queue that moves all it can. -/
example : history (step (.masked 2 false)) (events (.masked 2 false)) (new fun _ => 0)
    [.pushBatch [1, 2, 3], .producer, .producer, .producer, .producer, .producer,
      .pop, .consumer, .consumer, .consumer, .consumer, .pushBatch [7, 8], .producer, .producer,
      .popBatch 8, .consumer, .consumer, .consumer, .consumer, .consumer, .producer, .producer] =
    [.invoke .producer (.pushBatch [1, 2, 3]), .respond .producer (.pushed (.count 3)),
      .invoke .consumer .pop, .respond .consumer (.popped (.bool (some 1))),
      .invoke .producer (.pushBatch [7, 8]),
      .invoke .consumer (.popBatch 8), .respond .consumer (.popped (.count [2, 3])),
      .respond .producer (.pushed (.count 1))] := by decide

end CopyRingEngine

end Mantis
