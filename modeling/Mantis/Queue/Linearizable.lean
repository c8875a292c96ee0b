import Mantis.Lib.Linearizable
import Mantis.Queue.Sequential
import Mantis.Queue.Teardown

/-!
# Mantis.Queue.Linearizable

What the two threads of a `RingEngine` can rely on together. A call takes up to five steps
and overlaps calls of the other thread; still the clients see a bounded queue on which
every call is one step (`schedule_linearizable`). A push takes effect when it stores the
new head, or, when it fails, at its load of the tail; a pop takes effect when it stores
the new tail, or at its load of the head.

Neither thread can hold up the other: a call returns within five of its own steps, whatever
the other thread does (`calls_wait_free`).
-/

namespace Mantis

open Linear Objects Runs

variable {α : Type}

/-- The two threads of a ring. -/
inductive RingThread
  | producer
  | consumer
  deriving DecidableEq, Repr

/-- What is left to say of the other thread. -/
theorem RingThread.forall_ne_producer {P : RingThread → Prop} (h : P .consumer) :
    ∀ u, u ≠ .producer → P u
  | .producer, hne => absurd rfl hne
  | .consumer, _ => h

theorem RingThread.forall_ne_consumer {P : RingThread → Prop} (h : P .producer) :
    ∀ u, u ≠ .consumer → P u
  | .producer, _ => h
  | .consumer, hne => absurd rfl hne

/-! ### What a step does to the contents -/

section Contents

variable {cfg : RingConfig} {r r' : Ring α} {a : Spsc.State α}

/-- At most `cap - 1` values are held, and the consumer's log is a prefix of the producer's. -/
theorem Ring.Sim.logs (h : r.Sim cfg a) :
    r.consumer.popped <+: r.producer.pushed.map Prod.snd ∧
      r.contents.length ≤ cfg.cap - 1 := by
  rw [r.length_contents, h.producer.pushed, h.consumer.popped]
  have hle := h.inv.waiting_le
  exact ⟨h.inv.taken_prefix, by omega⟩

/-- Publishing appends to the contents. -/
theorem Ring.Sim.contents_push (h : r.Sim cfg a) {new : List α}
    (hpushed : r'.producer.pushed.map Prod.snd = r.producer.pushed.map Prod.snd ++ new)
    (hline : r'.consumer = r.consumer) : r'.contents = r.contents ++ new := by
  simp only [Ring.contents, Ring.waiting, List.map_drop]
  rw [hpushed, hline, List.drop_append_of_le_length h.logs.1.length_le]

/-- Taking removes from the front of the contents, and what was taken is what was there. -/
theorem Ring.Sim.contents_pop (h : r'.Sim cfg a) {new : List α}
    (hpopped : r'.consumer.popped = r.consumer.popped ++ new)
    (hline : r'.producer = r.producer) : r.contents = new ++ r'.contents := by
  obtain ⟨rest, hrest⟩ := h.logs.1
  rw [hpopped, hline] at hrest
  simp only [Ring.contents, Ring.waiting, List.map_drop]
  rw [hpopped, hline, ← hrest, List.append_assoc, List.drop_left, ← List.append_assoc,
    List.drop_left]

/-- A push fails only while the ring is full. -/
theorem Ring.Sim.full_of_refused (h : r.Sim cfg a) {pc : PushPc α}
    (hpc : pc.Sim cfg r.producer a.producer) (hfail : (r.pushStep cfg pc).2 = .returned false) :
    ¬ r.contents.length < cfg.cap - 1 := by
  cases pc with
  | refresh value head nextHead =>
      obtain ⟨hrest, -, rfl⟩ := hpc
      simp only [Ring.pushStep] at hfail
      split at hfail
      · next hmeet =>
          rw [h.consumer.tail, log_of_idle hrest.idle] at hmeet
          have htaken : a.consumer.taken.length ≤ a.producer.published.length := by
            simpa using h.inv.taken_prefix.length_le
          have hdvd : cfg.cap ∣ a.producer.published.length + 1 - a.consumer.taken.length :=
            (Nat.modEq_iff_dvd' (by omega)).mp hmeet.symm
          have hround := Nat.le_of_dvd (by omega) hdvd
          rw [r.length_contents, h.producer.pushed, h.consumer.popped]
          omega
      · cases hfail
  | compare value head nextHead =>
      simp only [Ring.pushStep] at hfail
      split at hfail <;> cases hfail
  | publish value head nextHead =>
      simp only [Ring.pushStep] at hfail
      split at hfail <;> cases hfail
  | write value head nextHead => cases hfail
  | setLocal nextHead => cases hfail

/-- A pop fails only while the ring is empty. -/
theorem Ring.Sim.empty_of_refused (h : r.Sim cfg a) {pc : PopPc α}
    (hpc : pc.Sim cfg r.consumer a.consumer) (hfail : (r.popStep cfg pc).2 = .returned none) :
    r.contents = [] := by
  cases pc with
  | refresh tail =>
      obtain ⟨hrest, rfl⟩ := hpc
      simp only [Ring.popStep] at hfail
      split at hfail
      · next hmeet =>
          rw [h.producer.head, Spsc.ConsumerSide.nextSlot, hrest.idle.2, List.length_nil,
            Nat.add_zero] at hmeet
          have htaken : a.consumer.taken.length ≤ a.producer.published.length := by
            simpa using h.inv.taken_prefix.length_le
          have hdvd : cfg.cap ∣ a.producer.published.length - a.consumer.taken.length :=
            (Nat.modEq_iff_dvd' htaken).mp hmeet
          have hround := h.inv.waiting_le
          have hpos := cfg.cap_pos
          have hzero := Nat.eq_zero_of_dvd_of_lt hdvd (by omega)
          rw [← List.length_eq_zero_iff, r.length_contents, h.producer.pushed, h.consumer.popped]
          exact hzero
      · cases hfail
  | compare tail =>
      simp only [Ring.popStep] at hfail
      split at hfail <;> cases hfail
  | publish value nextTail =>
      simp only [Ring.popStep] at hfail
      split at hfail <;> cases hfail
  | read tail => cases hfail
  | setLocal value nextTail => cases hfail

/-- What a step of a push does to the queue: nothing, or the whole push. -/
inductive PushEffect (cfg : RingConfig) (value : α) (r r' : Ring α) (pc : PushPc α) :
    Next (PushPc α) Bool → Prop
  /-- Not published before or after. -/
  | quiet (pc' : PushPc α) (hcarries : pc'.Carries value) (hpc : pc.unreported value = [])
      (hpc' : pc'.unreported value = []) (hsame : r'.contents = r.contents) :
      PushEffect cfg value r r' pc (.running pc')
  /-- Published, to be returned by a later step. -/
  | published (pc' : PushPc α) (hcarries : pc'.Carries value) (hpc : pc.unreported value = [])
      (hpc' : pc'.unreported value = [value]) (hroom : r.contents.length < cfg.cap - 1)
      (hpush : r'.contents = r.contents ++ [value]) : PushEffect cfg value r r' pc (.running pc')
  | accepted (hpc : pc.unreported value = []) (hroom : r.contents.length < cfg.cap - 1)
      (hpush : r'.contents = r.contents ++ [value]) : PushEffect cfg value r r' pc (.returned true)
  | refused (hpc : pc.unreported value = []) (hfull : ¬ r.contents.length < cfg.cap - 1)
      (hsame : r'.contents = r.contents) : PushEffect cfg value r r' pc (.returned false)
  /-- The return of a push already published. -/
  | reported (hpc : pc.unreported value = [value]) (hsame : r'.contents = r.contents) :
      PushEffect cfg value r r' pc (.returned true)

/-- What a step of a pop does to the queue: nothing, or the whole pop. -/
inductive PopEffect (r r' : Ring α) (pc : PopPc α) : Next (PopPc α) (Option α) → Prop
  | quiet (pc' : PopPc α) (hpc : pc.unreported = []) (hpc' : pc'.unreported = [])
      (hsame : r'.contents = r.contents) : PopEffect r r' pc (.running pc')
  | taken (pc' : PopPc α) (value : α) (hpc : pc.unreported = []) (hpc' : pc'.unreported = [value])
      (hpop : r.contents = value :: r'.contents) : PopEffect r r' pc (.running pc')
  | handedOut (value : α) (hpc : pc.unreported = []) (hpop : r.contents = value :: r'.contents) :
      PopEffect r r' pc (.returned (some value))
  | refused (hpc : pc.unreported = []) (hempty : r.contents = [])
      (hsame : r'.contents = r.contents) : PopEffect r r' pc (.returned none)
  | reported (value : α) (hpc : pc.unreported = [value]) (hsame : r'.contents = r.contents) :
      PopEffect r r' pc (.returned (some value))

/-- **One step of a push.** -/
theorem Ring.Sim.pushEffect (h : r.Sim cfg a) {pc : PushPc α}
    (hpc : pc.Sim cfg r.producer a.producer) {value : α} (hcarries : pc.Carries value) :
    PushEffect cfg value r (r.pushStep cfg pc).1 pc (r.pushStep cfg pc).2 := by
  obtain ⟨a', hmatch, -⟩ := h.pushStep hpc
  have hbound := hmatch.sim.logs.2
  have hrefused := h.full_of_refused hpc
  obtain ⟨new, hpushed, hreport, hline, hkept⟩ := r.pushStep_ledger cfg hcarries
  have hcontents := h.contents_push hpushed hline
  rw [hcontents, List.length_append] at hbound
  rcases pc.unreported_cases value with hquiet | ⟨-, head, rfl⟩
  · rw [hquiet, List.nil_append] at hreport
    subst hreport
    cases hout : (r.pushStep cfg pc).2 with
    | running pc' =>
        rw [hout] at hcontents hbound
        rcases pc'.unreported_cases value with hquiet' | ⟨hpublished, -⟩
        · rw [Next.pushed, hquiet', List.append_nil] at hcontents
          exact .quiet pc' (hkept pc' hout) hquiet hquiet' hcontents
        · rw [Next.pushed, hpublished] at hcontents hbound
          exact .published pc' (hkept pc' hout) hquiet hpublished hbound hcontents
    | returned ok =>
        rw [hout] at hcontents hbound
        cases ok with
        | true => exact .accepted hquiet hbound hcontents
        | false => exact .refused hquiet (hrefused hout) (hcontents.trans (List.append_nil _))
  · exact .reported rfl rfl

/-- **One step of a pop.** -/
theorem Ring.Sim.popEffect (h : r.Sim cfg a) {pc : PopPc α}
    (hpc : pc.Sim cfg r.consumer a.consumer) :
    PopEffect r (r.popStep cfg pc).1 pc (r.popStep cfg pc).2 := by
  obtain ⟨a', hmatch, -⟩ := h.popStep hpc
  have hrefused := h.empty_of_refused hpc
  obtain ⟨new, hpopped, hreport, hline⟩ := r.popStep_ledger cfg pc
  have hcontents := hmatch.sim.contents_pop hpopped hline
  rcases pc.unreported_cases with hquiet | ⟨value, tail, rfl⟩
  · rw [hquiet, List.nil_append] at hreport
    subst hreport
    cases hout : (r.popStep cfg pc).2 with
    | running pc' =>
        rw [hout, Next.popped] at hcontents
        rcases pc'.unreported_cases with hquiet' | ⟨value, tail, rfl⟩
        · rw [hquiet', List.nil_append] at hcontents
          exact .quiet pc' hquiet hquiet' hcontents.symm
        · exact .taken _ value hquiet rfl hcontents
    | returned out =>
        rw [hout] at hcontents
        cases out with
        | some value => exact .handedOut value hquiet hcontents
        | none => exact .refused hquiet (hrefused hout) hcontents.symm
  · exact .reported value rfl rfl

end Contents

/-! ### A single push or pop at an atomic queue

Both engines make these calls, under names of their own and on queues of their own: a call
`op` that pushes or pops as a `Fifo` does, and answers accordingly. -/

section Single

variable {cfg : RingConfig} {r r' : Ring α} {ω ρ : Type} {op : ω}
  {spec : Fifo α (cfg.cap - 1) → ω → ρ → Fifo α (cfg.cap - 1) → Prop}
  {shows shows' : RingThread → Status ω ρ → Prop}
  {q : Atomic RingThread (Fifo α (cfg.cap - 1)) ω ρ}

/-- Where a push stands: it has taken effect once it has published. -/
def PushPc.status (op : ω) (answer : Bool → ρ) (value : α) (pc : PushPc α) : Status ω ρ :=
  .ofEffect op (fun _ => answer true) (pc.unreported value).head?

/-- Where a pop stands: it has taken effect once it has released its slot. -/
def PopPc.status (op : ω) (answer : Option α → ρ) (pc : PopPc α) : Status ω ρ :=
  .ofEffect op (fun value => answer (some value)) pc.unreported.head?

/-- The response in a step of a push. -/
def pushResponse (answer : Bool → ρ) : Next (PushPc α) Bool → List (Event RingThread ω ρ)
  | .running _ => []
  | .returned ok => [.respond .producer (answer ok)]

/-- The response in a step of a pop. -/
def popResponse (answer : Option α → ρ) :
    Next (PopPc α) (Option α) → List (Event RingThread ω ρ)
  | .running _ => []
  | .returned value => [.respond .consumer (answer value)]

/-- **One step of a push, as moves of the machine.** -/
theorem PushEffect.moves {value : α} {pc : PushPc α} {next : Next (PushPc α) Bool}
    (heffect : PushEffect cfg value r r' pc next) {answer : Bool → ρ}
    (h : Stands (·.items = r.contents) shows q)
    (hstatus : q.status .producer = pc.status op answer value)
    (hspec : ∀ f : Fifo α (cfg.cap - 1), spec f op (answer (f.push value).2) (f.push value).1)
    (hother : shows' .consumer = shows .consumer)
    (hrunning : ∀ pc', next = .running pc' → pc'.Carries value →
      shows' .producer (pc'.status op answer value))
    (hreturned : ∀ ok, next = .returned ok → shows' .producer .idle) :
    ∃ q', Moves spec q (pushResponse answer next) q' ∧
      Stands (·.items = r'.contents) shows' q' := by
  have hothers := RingThread.forall_ne_producer (P := fun u => shows' u = shows u) hother
  have hitems : q.object.items = r.contents := h.object
  have hpushes := hspec q.object
  cases heffect with
  | quiet pc' hcarries hquiet hquiet' hsame =>
      have hshows := hrunning pc' rfl hcarries
      rw [PushPc.status, hquiet] at hstatus
      rw [PushPc.status, hquiet', ← hstatus] at hshows
      exact h.stay hothers (hitems.trans hsame.symm) hshows
  -- the store of the head is the instant of a push; its response comes a step later
  | published pc' hcarries hquiet hpublished hroom hpush =>
      have hshows := hrunning pc' rfl hcarries
      rw [PushPc.status, hquiet] at hstatus
      rw [PushPc.status, hpublished] at hshows
      rw [← hitems] at hroom hpush
      obtain ⟨hnew, hok⟩ := Fifo.push_of_lt hroom value
      rw [hok] at hpushes
      exact h.commit hothers hstatus hpushes (hnew.trans hpush.symm) hshows
  | accepted hquiet hroom hpush =>
      rw [PushPc.status, hquiet] at hstatus
      rw [← hitems] at hroom hpush
      obtain ⟨hnew, hok⟩ := Fifo.push_of_lt hroom value
      rw [hok] at hpushes
      exact h.commit_respond hothers hstatus hpushes (hnew.trans hpush.symm) (hreturned true rfl)
  -- a full queue answers at once, in the step that has found it full
  | refused hquiet hfull hsame =>
      rw [PushPc.status, hquiet] at hstatus
      rw [← hitems] at hfull
      rw [Fifo.push_of_full hfull] at hpushes
      exact h.commit_respond hothers hstatus hpushes (hitems.trans hsame.symm)
        (hreturned false rfl)
  | reported hpublished hsame =>
      rw [PushPc.status, hpublished] at hstatus
      exact h.respond hothers hstatus (hitems.trans hsame.symm) (hreturned true rfl)

/-- **One step of a pop, as moves of the machine.** -/
theorem PopEffect.moves {pc : PopPc α} {next : Next (PopPc α) (Option α)}
    (heffect : PopEffect r r' pc next) {answer : Option α → ρ}
    (h : Stands (·.items = r.contents) shows q)
    (hstatus : q.status .consumer = pc.status op answer)
    (hspec : ∀ f : Fifo α (cfg.cap - 1), spec f op (answer f.pop.2) f.pop.1)
    (hother : shows' .producer = shows .producer)
    (hrunning : ∀ pc', next = .running pc' → shows' .consumer (pc'.status op answer))
    (hreturned : ∀ value, next = .returned value → shows' .consumer .idle) :
    ∃ q', Moves spec q (popResponse answer next) q' ∧
      Stands (·.items = r'.contents) shows' q' := by
  have hothers := RingThread.forall_ne_consumer (P := fun u => shows' u = shows u) hother
  have hitems : q.object.items = r.contents := h.object
  have hpops := hspec q.object
  cases heffect with
  | quiet pc' hquiet hquiet' hsame =>
      have hshows := hrunning pc' rfl
      rw [PopPc.status, hquiet] at hstatus
      rw [PopPc.status, hquiet', ← hstatus] at hshows
      exact h.stay hothers (hitems.trans hsame.symm) hshows
  | taken pc' value hquiet htaken hpop =>
      have hshows := hrunning pc' rfl
      rw [PopPc.status, hquiet] at hstatus
      rw [PopPc.status, htaken] at hshows
      simp only [Fifo.pop, hitems, hpop, List.head?_cons] at hpops
      exact h.commit hothers hstatus hpops rfl hshows
  | handedOut value hquiet hpop =>
      rw [PopPc.status, hquiet] at hstatus
      simp only [Fifo.pop, hitems, hpop, List.head?_cons] at hpops
      exact h.commit_respond hothers hstatus hpops rfl (hreturned _ rfl)
  | refused hquiet hempty hsame =>
      rw [PopPc.status, hquiet] at hstatus
      simp only [Fifo.pop, hitems, hempty, List.head?_nil] at hpops
      exact h.commit_respond hothers hstatus hpops (hempty ▸ hsame).symm (hreturned _ rfl)
  | reported value htaken hsame =>
      rw [PopPc.status, htaken] at hstatus
      exact h.respond hothers hstatus (hitems.trans hsame.symm) (hreturned _ rfl)

end Single

namespace RingEngine

/-! ### What the clients see -/

/-- The call a producer has made. -/
def pushCall (call : PushCall) (value : α) : Call α :=
  match call with
  | .push => .push value
  | .tryPush => .tryPush value

/-- The call a consumer has made. -/
def popCall (call : PopCall) : Call α :=
  match call with
  | .pop => .pop
  | .tryPop => .tryPop

/-- A thread that is in a call starts no other. -/
def pushEvents (s : RingEngine α) (call : PushCall) (value : α) :
    List (Event RingThread (Call α) (Answer α)) :=
  match s.producer with
  | .idle _ => [.invoke .producer (pushCall call value)]
  | .running _ _ _ => []

/-- The invocation of a pop, if the consumer is in no call. -/
def popEvents (s : RingEngine α) (call : PopCall) : List (Event RingThread (Call α) (Answer α)) :=
  match s.consumer with
  | .idle _ => [.invoke .consumer (popCall call)]
  | .running _ _ => []

/-- The invocation or response in an action. -/
def events (cfg : RingConfig) (s : RingEngine α) :
    Action α → List (Event RingThread (Call α) (Answer α))
  | .push value => s.pushEvents .push value
  | .tryPush value => s.pushEvents .tryPush value
  | .pop => s.popEvents .pop
  | .tryPop => s.popEvents .tryPop
  | .producer =>
      match s.producer with
      | .idle _ => []
      | .running call value pc =>
          match (s.ring.pushStep cfg pc).2 with
          | .running _ => []
          | .returned ok => [.respond .producer (.pushed (call.result value ok))]
  | .consumer =>
      match s.consumer with
      | .idle _ => []
      | .running call pc =>
          match (s.ring.popStep cfg pc).2 with
          | .running _ => []
          | .returned value => [.respond .consumer (.popped (call.result value))]

/-- A push on a bounded queue, whichever way it is called. -/
theorem fifoCall_pushCall {cap : Nat} (q : Fifo α cap) (call : PushCall) (value : α) :
    fifoCall q (pushCall call value) =
      ((q.push value).1, .pushed (call.result value (q.push value).2)) := by
  cases call with
  | push => rfl
  | tryPush => cases hok : (q.push value).2 <;> simp [pushCall, fifoCall, PushCall.result, hok]

/-- A pop on a bounded queue, whichever way it is called. -/
theorem fifoCall_popCall {cap : Nat} (q : Fifo α cap) (call : PopCall) :
    fifoCall q (popCall call) = (q.pop.1, .popped (call.result q.pop.2)) := by
  cases call with
  | pop => rfl
  | tryPop => cases hout : q.pop.2 <;> simp [popCall, fifoCall, PopCall.result, hout]

/-! ### The ring and the atomic queue -/

/-- The machine with a bounded queue on which every call is one step. -/
abbrev AtomicQueue (cfg : RingConfig) (α : Type) : Type :=
  Atomic RingThread (Fifo α (cfg.cap - 1)) (Call α) (Answer α)

/-- The status a producer shows. -/
def ProducerShows : ProducerThread α → Status (Call α) (Answer α) → Prop
  | .idle _, st => st = .idle
  | .running call value pc, st => pc.Carries value ∧
      st = pc.status (pushCall call value) (fun ok => .pushed (call.result value ok)) value

/-- The status a consumer shows. -/
def ConsumerShows : ConsumerThread α → Status (Call α) (Answer α) → Prop
  | .idle _, st => st = .idle
  | .running call pc, st => st = pc.status (popCall call) fun out => .popped (call.result out)

/-- The status a thread shows. -/
def Shows (s : RingEngine α) : RingThread → Status (Call α) (Answer α) → Prop
  | .producer => ProducerShows s.producer
  | .consumer => ConsumerShows s.consumer

/-- The queue holds the contents of the ring, and both threads stand where they do there. -/
structure Tracks (cfg : RingConfig) (s : RingEngine α) (q : AtomicQueue cfg α) : Prop where
  explained : s.Explained cfg
  stands : Stands (·.items = s.ring.contents) s.Shows q

variable {cfg : RingConfig} {s : RingEngine α} {q : AtomicQueue cfg α}

/-- Both threads are idle over an empty ring. -/
theorem tracks_new (cfg : RingConfig) (slots : Nat → α) :
    (new slots).Tracks cfg (.init .empty) := by
  refine ⟨explained_new cfg slots, rfl, fun t => ?_⟩
  cases t <;> rfl

/-! ### One action -/

/-- A call becomes pending; the ring is not touched. -/
theorem Tracks.startPush (h : s.Tracks cfg q) (call : PushCall) (value : α) :
    ∃ q', Moves (det fifoCall) q (s.pushEvents call value) q' ∧
      Stands (·.items = (s.startPush cfg call value).ring.contents)
        (s.startPush cfg call value).Shows q' := by
  cases hthread : s.producer with
  | idle last =>
      have hproducer : ProducerShows s.producer (q.status .producer) := h.stands.status .producer
      rw [hthread, ProducerShows] at hproducer
      simp only [RingEngine.startPush, pushEvents, hthread]
      refine h.stands.invoke (RingThread.forall_ne_producer rfl) hproducer h.stands.object ?_
      exact ⟨rfl, rfl⟩
  | running call' value' pc =>
      simp only [RingEngine.startPush, pushEvents, hthread]
      exact ⟨q, .refl, h.stands⟩

/-- A call becomes pending; the ring is not touched. -/
theorem Tracks.startPop (h : s.Tracks cfg q) (call : PopCall) :
    ∃ q', Moves (det fifoCall) q (s.popEvents call) q' ∧
      Stands (·.items = (s.startPop cfg call).ring.contents) (s.startPop cfg call).Shows q' := by
  cases hthread : s.consumer with
  | idle last =>
      have hconsumer : ConsumerShows s.consumer (q.status .consumer) := h.stands.status .consumer
      rw [hthread, ConsumerShows] at hconsumer
      simp only [RingEngine.startPop, popEvents, hthread]
      exact h.stands.invoke (RingThread.forall_ne_consumer rfl) hconsumer h.stands.object rfl
  | running call' pc =>
      simp only [RingEngine.startPop, popEvents, hthread]
      exact ⟨q, .refl, h.stands⟩

/-- **A step of the producer.** -/
theorem Tracks.producerStep (h : s.Tracks cfg q) :
    ∃ q', Moves (det fifoCall) q (s.events cfg .producer) q' ∧
      Stands (·.items = (s.producerStep cfg).ring.contents) (s.producerStep cfg).Shows q' := by
  obtain ⟨a, hsim⟩ := h.explained
  have hproducer : ProducerShows s.producer (q.status .producer) := h.stands.status .producer
  have hpc := hsim.producer
  cases hthread : s.producer with
  | idle last =>
      simp only [RingEngine.producerStep, events, hthread]
      exact ⟨q, .refl, h.stands⟩
  | running call value pc =>
      rw [hthread] at hproducer hpc
      obtain ⟨hcarries, hstatus⟩ := hproducer
      have heffect := hsim.ring.pushEffect hpc hcarries
      simp only [RingEngine.producerStep, events, hthread]
      rcases hstep : s.ring.pushStep cfg pc with ⟨ring, pc' | ok⟩
      · rw [hstep] at heffect
        refine heffect.moves h.stands hstatus (fun f => fifoCall_pushCall f call value) rfl
          (fun _ hrun hcarries' => ?_) fun _ hret => by cases hret
        cases hrun
        exact ⟨hcarries', rfl⟩
      · rw [hstep] at heffect
        exact heffect.moves h.stands hstatus (fun f => fifoCall_pushCall f call value) rfl
          (fun _ hrun => by cases hrun) fun _ _ => rfl

/-- **A step of the consumer.** -/
theorem Tracks.consumerStep (h : s.Tracks cfg q) :
    ∃ q', Moves (det fifoCall) q (s.events cfg .consumer) q' ∧
      Stands (·.items = (s.consumerStep cfg).ring.contents) (s.consumerStep cfg).Shows q' := by
  obtain ⟨a, hsim⟩ := h.explained
  have hstatus : ConsumerShows s.consumer (q.status .consumer) := h.stands.status .consumer
  have hpc := hsim.consumer
  cases hthread : s.consumer with
  | idle last =>
      simp only [RingEngine.consumerStep, events, hthread]
      exact ⟨q, .refl, h.stands⟩
  | running call pc =>
      rw [hthread] at hstatus hpc
      have heffect := hsim.ring.popEffect hpc
      simp only [RingEngine.consumerStep, events, hthread]
      rcases hstep : s.ring.popStep cfg pc with ⟨ring, pc' | value⟩
      · rw [hstep] at heffect
        refine heffect.moves h.stands hstatus (fun f => fifoCall_popCall f call) rfl
          (fun _ hrun => ?_) fun _ hret => by cases hret
        cases hrun
        rfl
      · rw [hstep] at heffect
        exact heffect.moves h.stands hstatus (fun f => fifoCall_popCall f call) rfl
          (fun _ hrun => by cases hrun) fun _ _ => rfl

/-- **One action.** -/
theorem Tracks.step (h : s.Tracks cfg q) (act : Action α) :
    ∃ q', Moves (det fifoCall) q (s.events cfg act) q' ∧ (s.step cfg act).Tracks cfg q' := by
  have hmoves : ∃ q', Moves (det fifoCall) q (s.events cfg act) q' ∧
      Stands (·.items = (s.step cfg act).ring.contents) (s.step cfg act).Shows q' := by
    cases act with
    | push value => exact h.startPush .push value
    | tryPush value => exact h.startPush .tryPush value
    | pop => exact h.startPop .pop
    | tryPop => exact h.startPop .tryPop
    | producer => exact h.producerStep
    | consumer => exact h.consumerStep
  obtain ⟨q', hevents, hstands⟩ := hmoves
  exact ⟨q', hevents, h.explained.step act, hstands⟩

/-- **The ring is a linearizable bounded queue.** For every power-of-two capacity, index
strategy, target and schedule of the two threads, what they see is what a queue of at most
`cap - 1` elements shows on which every call happens at one instant between its invocation
and its response. -/
theorem schedule_linearizable (cfg : RingConfig) (slots : Nat → α) (schedule : List (Action α)) :
    Linearizable (det fifoCall) (.empty : Fifo α (cfg.cap - 1))
      (history (step cfg) (events cfg) (new slots) schedule) :=
  linearizable_of_simulation (fun _ _ act htracks _ => htracks.step act) (tracks_new cfg slots)
    (allSteps_of_forall (q := fun _ => True) (fun _ _ => trivial) _)

/-- A pop that overlaps a push, and sees its value. -/
example : history (step (.branching 1 true)) (events (.branching 1 true)) (new fun _ => 0)
    [.push 7, .producer, .producer, .pop, .producer, .consumer, .consumer, .consumer, .consumer,
      .consumer, .producer] =
    [.invoke .producer (.push 7), .invoke .consumer .pop,
      .respond .consumer (.popped (.bool (some 7))), .respond .producer (.pushed (.bool true))] := by
  decide

/-! ### Progress -/

/-- How many more steps a push takes at most. -/
def pushRank : PushPc α → Nat
  | .compare .. => 5
  | .refresh .. => 4
  | .write .. => 3
  | .publish .. => 2
  | .setLocal .. => 1

/-- How many more steps a pop takes at most. -/
def popRank : PopPc α → Nat
  | .compare .. => 5
  | .refresh .. => 4
  | .read .. => 3
  | .publish .. => 2
  | .setLocal .. => 1

/-- How many more steps the producer takes to the end of its call. -/
def producerRank (s : RingEngine α) : Nat :=
  match s.producer with
  | .idle _ => 0
  | .running _ _ pc => pushRank pc

/-- How many more steps the consumer takes to the end of its call. -/
def consumerRank (s : RingEngine α) : Nat :=
  match s.consumer with
  | .idle _ => 0
  | .running _ pc => popRank pc

/-- Every step of a push that does not end it goes down in rank. -/
theorem pushRank_step {r : Ring α} {pc pc' : PushPc α}
    (h : (r.pushStep cfg pc).2 = .running pc') : pushRank pc' < pushRank pc := by
  cases pc with
  | compare value head nextHead =>
      simp only [Ring.pushStep] at h
      split at h <;> cases h <;> simp [pushRank]
  | refresh value head nextHead =>
      simp only [Ring.pushStep] at h
      split at h <;> cases h
      simp [pushRank]
  | write value head nextHead =>
      cases h
      simp [pushRank]
  | publish value head nextHead =>
      simp only [Ring.pushStep] at h
      split at h <;> cases h
      simp [pushRank]
  | setLocal nextHead => cases h

/-- Every step of a pop that does not end it goes down in rank. -/
theorem popRank_step {r : Ring α} {pc pc' : PopPc α} (h : (r.popStep cfg pc).2 = .running pc') :
    popRank pc' < popRank pc := by
  cases pc with
  | compare tail =>
      simp only [Ring.popStep] at h
      split at h <;> cases h <;> simp [popRank]
  | refresh tail =>
      simp only [Ring.popStep] at h
      split at h <;> cases h
      simp [popRank]
  | read tail =>
      cases h
      simp [popRank]
  | publish value nextTail =>
      simp only [Ring.popStep] at h
      split at h <;> cases h
      simp [popRank]
  | setLocal value nextTail => cases h

theorem producerRank_le (s : RingEngine α) : s.producerRank ≤ 5 := by
  simp only [producerRank]
  split
  · exact Nat.zero_le 5
  · next pc _ => cases pc <;> simp [pushRank]

theorem consumerRank_le (s : RingEngine α) : s.consumerRank ≤ 5 := by
  simp only [consumerRank]
  split
  · exact Nat.zero_le 5
  · next pc _ => cases pc <;> simp [popRank]

/-- A step of the producer brings its call closer to the end. -/
theorem producerRank_producerStep (hrunning : s.producerRank ≠ 0) :
    (s.producerStep cfg).producerRank < s.producerRank := by
  simp only [producerRank] at hrunning ⊢
  cases hthread : s.producer with
  | idle last => simp [hthread] at hrunning
  | running call value pc =>
      simp only [RingEngine.producerStep, hthread] at hrunning ⊢
      rcases hout : s.ring.pushStep cfg pc with ⟨ring, pc' | ok⟩
      · have hnext : (s.ring.pushStep cfg pc).2 = .running pc' := by rw [hout]
        exact pushRank_step hnext
      · exact Nat.pos_of_ne_zero hrunning

theorem consumerRank_consumerStep (hrunning : s.consumerRank ≠ 0) :
    (s.consumerStep cfg).consumerRank < s.consumerRank := by
  simp only [consumerRank] at hrunning ⊢
  cases hthread : s.consumer with
  | idle last => simp [hthread] at hrunning
  | running call pc =>
      simp only [RingEngine.consumerStep, hthread] at hrunning ⊢
      rcases hout : s.ring.popStep cfg pc with ⟨ring, pc' | value⟩
      · have hnext : (s.ring.popStep cfg pc).2 = .running pc' := by rw [hout]
        exact popRank_step hnext
      · exact Nat.pos_of_ne_zero hrunning

/-- Whether an action is a step of the thread, in a call it is running. -/
def Action.isStepOf (thread : RingThread) : Action α → Bool
  | .producer => thread = .producer
  | .consumer => thread = .consumer
  | _ => false

/-- Nothing but its own steps moves a producer that is in a call. -/
theorem producer_step {act : Action α} (hrunning : s.producerRank ≠ 0)
    (hact : act.isStepOf .producer = false) : (s.step cfg act).producer = s.producer := by
  simp only [producerRank] at hrunning
  cases act with
  | producer => cases hact
  | consumer =>
      simp only [RingEngine.step, RingEngine.consumerStep]
      split
      · rfl
      · split <;> rfl
  | pop | tryPop =>
      simp only [RingEngine.step, RingEngine.startPop]
      split <;> rfl
  | push value | tryPush value =>
      simp only [RingEngine.step, RingEngine.startPush]
      split
      · next hidle => simp [hidle] at hrunning
      · rfl

theorem consumer_step {act : Action α} (hrunning : s.consumerRank ≠ 0)
    (hact : act.isStepOf .consumer = false) : (s.step cfg act).consumer = s.consumer := by
  simp only [consumerRank] at hrunning
  cases act with
  | consumer => cases hact
  | producer =>
      simp only [RingEngine.step, RingEngine.producerStep]
      split
      · rfl
      · split <;> rfl
  | push value | tryPush value =>
      simp only [RingEngine.step, RingEngine.startPush]
      split <;> rfl
  | pop | tryPop =>
      simp only [RingEngine.step, RingEngine.startPop]
      split
      · next hidle => simp [hidle] at hrunning
      · rfl

/-- **Both sides are wait-free.** From any state, reached or not, a schedule with five steps
of a thread passes through a state in which that thread is in no call, however few or many
steps the other thread takes in between. -/
theorem calls_wait_free (cfg : RingConfig) (s : RingEngine α) (schedule : List (Action α)) :
    (5 ≤ schedule.countP (Action.isStepOf .producer) →
        ∃ pre, pre <+: schedule ∧ ∃ last, (run (step cfg) s pre).producer = .idle last) ∧
      (5 ≤ schedule.countP (Action.isStepOf .consumer) →
        ∃ pre, pre <+: schedule ∧ ∃ last, (run (step cfg) s pre).consumer = .idle last) := by
  have hall : AllSteps (step cfg) (fun _ _ => True) s schedule :=
    allSteps_of_forall (fun _ _ => trivial) s
  constructor
  · intro hsteps
    obtain ⟨pre, hpre, hzero⟩ := exists_prefix_rank_eq_zero (J := fun _ => True)
      producerRank (Action.isStepOf .producer) (fun _ _ _ _ => trivial)
      (fun s act _ _ hown hrunning => by
        cases act <;> cases hown
        exact producerRank_producerStep hrunning)
      (fun s act _ _ hother hrunning => by
        simp only [producerRank, producer_step hrunning hother, le_refl])
      trivial hall ((producerRank_le s).trans hsteps)
    refine ⟨pre, hpre, ?_⟩
    cases hthread : (run (step cfg) s pre).producer with
    | idle last => exact ⟨last, rfl⟩
    | running call value pc =>
        simp only [producerRank, hthread] at hzero
        cases pc <;> cases hzero
  · intro hsteps
    obtain ⟨pre, hpre, hzero⟩ := exists_prefix_rank_eq_zero (J := fun _ => True)
      consumerRank (Action.isStepOf .consumer) (fun _ _ _ _ => trivial)
      (fun s act _ _ hown hrunning => by
        cases act <;> cases hown
        exact consumerRank_consumerStep hrunning)
      (fun s act _ _ hother hrunning => by
        simp only [consumerRank, consumer_step hrunning hother, le_refl])
      trivial hall ((consumerRank_le s).trans hsteps)
    refine ⟨pre, hpre, ?_⟩
    cases hthread : (run (step cfg) s pre).consumer with
    | idle last => exact ⟨last, rfl⟩
    | running call pc =>
        simp only [consumerRank, hthread] at hzero
        cases pc <;> cases hzero

/-- Five steps of each thread, taken in turn, finish a push and a pop. -/
theorem calls_wait_free_in_turn :
    ∃ pre, pre <+: [.push 7, .pop, .producer, .consumer, .producer, .consumer, .producer,
        .consumer, .producer, .consumer, .producer, .consumer] ∧
      ∃ last, (run (step (.masked 1 true)) (new fun _ => 0) pre).consumer = .idle last :=
  (calls_wait_free (.masked 1 true) (new fun _ => 0) _).2 (by decide)

end RingEngine

end Mantis
