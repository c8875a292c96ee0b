import Mantis.Lib.Fifo
import Mantis.Queue.RingEngine

/-!
# Mantis.Queue.Sequential

`RingEngine` on one thread: a call runs to its end before the next one starts.

`Ring.push` and `Ring.pop` are the calls written as the source writes them.
`push_completes` and `pop_completes` connect them to the atomic steps of
`Mantis.Queue.Ring`: a thread that runs alone computes exactly these. The abstract
protocol then gives the exact full and empty answers, however stale the cached indices
are, and `sequential_fifo` reads off that the ring is a bounded queue for either index
strategy.
-/

namespace Mantis

open Objects

variable {α : Type}

/-! ### Calls -/

/-- The end of a push: write the slot and publish the new head. -/
def Ring.store (cfg : RingConfig) (r : Ring α) (head nextHead : Nat) (value : α) : Ring α :=
  { r with
    slots := Function.update r.slots head value
    producer :=
      { r.producer with
        head := nextHead
        headLocal := if cfg.aarch64 then nextHead else r.producer.headLocal
        pushed := r.producer.pushed ++ [(head, value)] } }

/-- The body of `push` and `try_push`; `false` when the ring is full. -/
def Ring.push (cfg : RingConfig) (r : Ring α) (value : α) : Ring α × Bool :=
  let head := r.ownHead cfg
  let nextHead := cfg.strategy.wrap (head + 1) cfg.cap
  if nextHead = r.producer.tailCached then
    let tail := r.consumer.tail
    let r := { r with producer := { r.producer with tailCached := tail } }
    if nextHead = tail then (r, false) else (r.store cfg head nextHead value, true)
  else (r.store cfg head nextHead value, true)

/-- The end of a pop: read the slot and publish the new tail. -/
def Ring.load (cfg : RingConfig) (r : Ring α) (tail : Nat) : Ring α × Option α :=
  let value := r.slots tail
  let nextTail := cfg.strategy.wrap (tail + 1) cfg.cap
  ({ r with
      consumer :=
        { r.consumer with
          tail := nextTail
          tailLocal := if cfg.aarch64 then nextTail else r.consumer.tailLocal
          popped := r.consumer.popped ++ [value] } }, some value)

/-- The body of `pop` and `try_pop`; `none` when the ring is empty. -/
def Ring.pop (cfg : RingConfig) (r : Ring α) : Ring α × Option α :=
  let tail := r.ownTail cfg
  if tail = r.consumer.headCached then
    let head := r.producer.head
    let r := { r with consumer := { r.consumer with headCached := head } }
    if tail = head then (r, none) else r.load cfg tail
  else r.load cfg tail

/-- The number of elements held. -/
def Ring.len (cfg : RingConfig) (r : Ring α) : Nat :=
  (r.producer.head + cfg.cap - r.consumer.tail) % cfg.cap

/-! ### A thread that runs alone -/

/-- A call that runs alone takes steps until it returns. -/
inductive Completes {σ π ρ : Type} (step : σ → π → σ × Next π ρ) : σ → π → σ → ρ → Prop
  | returned {s s' : σ} {pc : π} {result : ρ} (h : step s pc = (s', .returned result)) :
      Completes step s pc s' result
  | step {s s₁ s' : σ} {pc pc₁ : π} {result : ρ} (h : step s pc = (s₁, .running pc₁))
      (hrest : Completes step s₁ pc₁ s' result) : Completes step s pc s' result

variable {cfg : RingConfig} {r r' : Ring α} {a a' : Spsc.State α}

theorem store_completes (cfg : RingConfig) (r : Ring α) (head nextHead : Nat) (value : α) :
    Completes (Ring.pushStep cfg) r (.write value head nextHead)
      (r.store cfg head nextHead value) true := by
  refine .step rfl ?_
  cases harch : cfg.aarch64 with
  | true =>
      refine .step (by simp only [Ring.pushStep, harch, if_true]; rfl) (.returned ?_)
      simp only [Ring.pushStep, Ring.store, harch, if_true]
  | false =>
      refine .returned ?_
      simp only [Ring.pushStep, Ring.store, harch, Bool.false_eq_true, if_false]

/-- **A push that runs alone.** -/
theorem push_completes (cfg : RingConfig) (r : Ring α) (value : α) :
    Completes (Ring.pushStep cfg) r (r.pushStart cfg value) (r.push cfg value).1
      (r.push cfg value).2 := by
  simp only [Ring.push, Ring.pushStart]
  by_cases hcached : cfg.strategy.wrap (r.ownHead cfg + 1) cfg.cap = r.producer.tailCached
  · rw [if_pos hcached]
    refine .step (by simp only [Ring.pushStep]; rw [if_pos hcached]) ?_
    by_cases hfull : cfg.strategy.wrap (r.ownHead cfg + 1) cfg.cap = r.consumer.tail
    · rw [if_pos hfull]
      exact .returned (by simp only [Ring.pushStep]; rw [if_pos hfull])
    · rw [if_neg hfull]
      exact .step (by simp only [Ring.pushStep]; rw [if_neg hfull]) (store_completes ..)
  · rw [if_neg hcached]
    exact .step (by simp only [Ring.pushStep]; rw [if_neg hcached]) (store_completes ..)

theorem load_completes (cfg : RingConfig) (r : Ring α) (tail : Nat) :
    Completes (Ring.popStep cfg) r (.read tail) (r.load cfg tail).1 (r.load cfg tail).2 := by
  refine .step rfl ?_
  cases harch : cfg.aarch64 with
  | true =>
      refine .step (by simp only [Ring.popStep, harch, if_true]; rfl) (.returned ?_)
      simp only [Ring.popStep, Ring.load, harch, if_true]
  | false =>
      refine .returned ?_
      simp only [Ring.popStep, Ring.load, harch, Bool.false_eq_true, if_false]

/-- **A pop that runs alone.** -/
theorem pop_completes (cfg : RingConfig) (r : Ring α) :
    Completes (Ring.popStep cfg) r (r.popStart cfg) (r.pop cfg).1 (r.pop cfg).2 := by
  simp only [Ring.pop, Ring.popStart]
  by_cases hcached : r.ownTail cfg = r.consumer.headCached
  · rw [if_pos hcached]
    refine .step (by simp only [Ring.popStep]; rw [if_pos hcached]) ?_
    by_cases hempty : r.ownTail cfg = r.producer.head
    · rw [if_pos hempty]
      exact .returned (by simp only [Ring.popStep]; rw [if_pos hempty])
    · rw [if_neg hempty]
      exact .step (by simp only [Ring.popStep]; rw [if_neg hempty]) (load_completes ..)
  · rw [if_neg hcached]
    exact .step (by simp only [Ring.popStep]; rw [if_neg hcached]) (load_completes ..)

/-! ### Between two calls -/

/-- Neither side is in a call, and the abstract protocol explains the ring. -/
def Ring.AtRest (cfg : RingConfig) (r : Ring α) : Prop :=
  ∃ a, r.Sim cfg a ∧ r.producer.Rest cfg a.producer ∧ r.consumer.Rest cfg a.consumer

/-- The elements held, oldest first. -/
def Ring.contents (r : Ring α) : List α := r.waiting.map Prod.snd

theorem Ring.atRest_new (cfg : RingConfig) (slots : Nat → α) : (Ring.new slots).AtRest cfg :=
  ⟨_, Ring.sim_new cfg slots, ⟨⟨rfl, rfl⟩, fun _ => rfl⟩, ⟨⟨rfl, rfl⟩, fun _ => rfl⟩⟩

/-- A call of the producer that runs alone ends at rest. -/
theorem Completes.producer_atRest {π ρ : Type} {step : Ring α → π → Ring α × Next π ρ}
    {Pc : ProducerLine α → Spsc.ProducerSide α → π → Prop} {Ok : ρ → Prop}
    (hstep : ∀ (r : Ring α) (a : Spsc.State α) (pc : π), r.Sim cfg a →
      Pc r.producer a.producer pc → ProducerMatched cfg Pc Ok r a (step r pc))
    {pc : π} {result : ρ} (h : Completes step r pc r' result) (hsim : r.Sim cfg a)
    (hpc : Pc r.producer a.producer pc) (hother : r.consumer.Rest cfg a.consumer) :
    r'.AtRest cfg ∧ r'.consumer = r.consumer ∧ Ok result := by
  induction h generalizing a with
  | @returned r r' pc result h =>
      obtain ⟨a', hmatch, hok, hrest⟩ := h ▸ hstep r a pc hsim hpc
      refine ⟨⟨a', hmatch.sim, hrest, ?_⟩, hmatch.line, hok⟩
      rw [hmatch.side, show r'.consumer = r.consumer from hmatch.line]
      exact hother
  | @step r r₁ r' pc pc₁ result h hrest ih =>
      obtain ⟨a', hmatch, hpc'⟩ := h ▸ hstep r a pc hsim hpc
      have hline : r₁.consumer = r.consumer := hmatch.line
      have hother' : r₁.consumer.Rest cfg a'.consumer := by
        rw [hmatch.side, hline]
        exact hother
      obtain ⟨hend, hsame, hok⟩ := ih hmatch.sim hpc' hother'
      exact ⟨hend, hsame.trans hline, hok⟩

/-- A call of the consumer that runs alone ends at rest. -/
theorem Completes.consumer_atRest {π ρ : Type} {step : Ring α → π → Ring α × Next π ρ}
    {Pc : ConsumerLine α → Spsc.ConsumerSide α → π → Prop} {Ok : ρ → Prop}
    (hstep : ∀ (r : Ring α) (a : Spsc.State α) (pc : π), r.Sim cfg a →
      Pc r.consumer a.consumer pc → ConsumerMatched cfg Pc Ok r a (step r pc))
    {pc : π} {result : ρ} (h : Completes step r pc r' result) (hsim : r.Sim cfg a)
    (hpc : Pc r.consumer a.consumer pc) (hother : r.producer.Rest cfg a.producer) :
    r'.AtRest cfg ∧ r'.producer = r.producer ∧ Ok result := by
  induction h generalizing a with
  | @returned r r' pc result h =>
      obtain ⟨a', hmatch, hok, hrest⟩ := h ▸ hstep r a pc hsim hpc
      refine ⟨⟨a', hmatch.sim, ?_, hrest⟩, hmatch.line, hok⟩
      rw [hmatch.side, show r'.producer = r.producer from hmatch.line]
      exact hother
  | @step r r₁ r' pc pc₁ result h hrest ih =>
      obtain ⟨a', hmatch, hpc'⟩ := h ▸ hstep r a pc hsim hpc
      have hline : r₁.producer = r.producer := hmatch.line
      have hother' : r₁.producer.Rest cfg a'.producer := by
        rw [hmatch.side, hline]
        exact hother
      obtain ⟨hend, hsame, hok⟩ := ih hmatch.sim hpc' hother'
      exact ⟨hend, hsame.trans hline, hok⟩

/-- What a ring at rest looks like: its indices are the counts of its logs modulo the
capacity, and the log of the consumer is a prefix of the producer's, at most a round
behind. -/
structure Ring.Positions (cfg : RingConfig) (r : Ring α) : Prop where
  head : r.producer.head = r.producer.pushed.length % cfg.cap
  tail : r.consumer.tail = r.consumer.popped.length % cfg.cap
  ownHead : r.ownHead cfg = r.producer.pushed.length % cfg.cap
  ownTail : r.ownTail cfg = r.consumer.popped.length % cfg.cap
  popped_le : r.consumer.popped.length ≤ r.producer.pushed.length
  pushed_le : r.producer.pushed.length ≤ r.consumer.popped.length + (cfg.cap - 1)
  fifo : r.consumer.popped <+: r.producer.pushed.map Prod.snd

theorem Ring.AtRest.positions (h : r.AtRest cfg) : r.Positions cfg := by
  obtain ⟨a, hsim, hproducer, hconsumer⟩ := h
  have hfifo : r.consumer.popped <+: r.producer.pushed.map Prod.snd := by
    rw [hsim.consumer.popped, hsim.producer.pushed]
    exact hsim.inv.taken_prefix
  refine ⟨?_, ?_, ?_, ?_, ?_, ?_, hfifo⟩
  · rw [hsim.producer.head, hsim.producer.pushed]
  · rw [hsim.consumer.tail, hsim.consumer.popped]
  · rw [hsim.ownHead hproducer, hsim.producer.pushed, Spsc.ProducerSide.nextSlot,
      log_of_idle hproducer.idle]
  · rw [hsim.ownTail hconsumer, hsim.consumer.popped, Spsc.ConsumerSide.nextSlot,
      hconsumer.idle.2]
    rfl
  · simpa using hfifo.length_le
  · rw [hsim.producer.pushed, hsim.consumer.popped]
    exact hsim.inv.waiting_le

theorem Ring.length_contents (r : Ring α) :
    r.contents.length = r.producer.pushed.length - r.consumer.popped.length := by
  simp [Ring.contents, Ring.waiting]

namespace Ring.Positions

theorem length_contents_le (h : r.Positions cfg) : r.contents.length ≤ cfg.cap - 1 := by
  have hle := h.pushed_le
  rw [r.length_contents]
  omega

/-- Publishing appends to the contents. -/
theorem contents_push (h : r.Positions cfg) {written : List (Nat × α)}
    (hpushed : r'.producer.pushed = r.producer.pushed ++ written)
    (hpopped : r'.consumer.popped = r.consumer.popped) :
    r'.contents = r.contents ++ written.map Prod.snd := by
  simp only [Ring.contents, Ring.waiting]
  rw [hpushed, hpopped, List.drop_append_of_le_length h.popped_le, List.map_append]

/-- Taking removes from the front of the contents, and what was taken is what was there. -/
theorem contents_pop (h : r'.Positions cfg) {out : List α}
    (hpopped : r'.consumer.popped = r.consumer.popped ++ out)
    (hpushed : r'.producer.pushed = r.producer.pushed) :
    r.contents = out ++ r'.contents := by
  obtain ⟨rest, hrest⟩ := h.fifo
  rw [hpopped, hpushed] at hrest
  simp only [Ring.contents, Ring.waiting, List.map_drop]
  rw [hpopped, hpushed, ← hrest, List.append_assoc, List.drop_left, ← List.append_assoc,
    List.drop_left]

/-- The next head meets the tail exactly when the ring is full. -/
theorem full_iff (h : r.Positions cfg) :
    cfg.strategy.wrap (r.ownHead cfg + 1) cfg.cap = r.consumer.tail ↔
      ¬ r.contents.length < cfg.cap - 1 := by
  have hpos := cfg.cap_pos
  have hpopped := h.popped_le
  have hpushed := h.pushed_le
  rw [h.ownHead, cfg.wrap_mod_succ, h.tail, r.length_contents]
  constructor
  · intro heq hlt
    have hdvd : cfg.cap ∣ r.producer.pushed.length + 1 - r.consumer.popped.length :=
      (Nat.modEq_iff_dvd' (by omega)).mp heq.symm
    have := Nat.le_of_dvd (by omega) hdvd
    omega
  · intro hfull
    rw [show r.producer.pushed.length + 1 = r.consumer.popped.length + cfg.cap by omega,
      Nat.add_mod_right]

/-- The tail meets the head exactly when the ring is empty. -/
theorem empty_iff (h : r.Positions cfg) :
    r.ownTail cfg = r.producer.head ↔ r.contents = [] := by
  have hpos := cfg.cap_pos
  have hpopped := h.popped_le
  have hpushed := h.pushed_le
  rw [h.ownTail, h.head, ← List.length_eq_zero_iff, r.length_contents]
  constructor
  · intro heq
    have hdvd : cfg.cap ∣ r.producer.pushed.length - r.consumer.popped.length :=
      (Nat.modEq_iff_dvd' hpopped).mp heq
    exact Nat.eq_zero_of_dvd_of_lt hdvd (by omega)
  · intro hempty
    rw [show r.consumer.popped.length = r.producer.pushed.length by omega]

/-- `len` is the number of elements held. -/
theorem len_eq (h : r.Positions cfg) : r.len cfg = r.contents.length := by
  have hpos := cfg.cap_pos
  have hpopped := h.popped_le
  have hpushed := h.pushed_le
  have htail := Nat.mod_lt r.consumer.popped.length hpos
  rw [Ring.len, h.head, h.tail, r.length_contents]
  obtain ⟨n, hn⟩ := Nat.exists_eq_add_of_le hpopped
  have hlt : n < cfg.cap := by omega
  rw [hn, Nat.add_mod_eq_ite, Nat.mod_eq_of_lt hlt, Nat.add_sub_cancel_left]
  split
  · rw [Nat.mod_eq_of_lt (by omega)]
    omega
  · rw [show r.consumer.popped.length % cfg.cap + n + cfg.cap -
        r.consumer.popped.length % cfg.cap = n + cfg.cap by omega, Nat.add_mod_right,
      Nat.mod_eq_of_lt hlt]

end Ring.Positions

/-! ### The calls against a bounded queue -/

/-- The ring at rest holds the elements of the queue. -/
def Ring.Holds (cfg : RingConfig) (r : Ring α) (q : Fifo α (cfg.cap - 1)) : Prop :=
  r.AtRest cfg ∧ r.contents = q.items

theorem Ring.holds_new (cfg : RingConfig) (slots : Nat → α) :
    (Ring.new slots).Holds cfg .empty := ⟨Ring.atRest_new cfg slots, rfl⟩

/-- Everything a ring at rest holds fits in the queue. -/
theorem Ring.AtRest.holds (h : r.AtRest cfg) :
    ∃ q : Fifo α (cfg.cap - 1), r.Holds cfg q :=
  ⟨⟨r.contents, h.positions.length_contents_le⟩, h, rfl⟩

theorem Ring.AtRest.push (h : r.AtRest cfg) (value : α) : (r.push cfg value).1.AtRest cfg := by
  obtain ⟨a, hsim, hproducer, hconsumer⟩ := h
  exact ((push_completes cfg r value).producer_atRest (fun _ _ _ h hpc => h.pushStep hpc) hsim
    (hsim.pushStart hproducer value) hconsumer).1

theorem Ring.AtRest.pop (h : r.AtRest cfg) : (r.pop cfg).1.AtRest cfg := by
  obtain ⟨a, hsim, hproducer, hconsumer⟩ := h
  exact ((pop_completes cfg r).consumer_atRest (fun _ _ _ h hpc => h.popStep hpc) hsim
    (hsim.popStart hconsumer) hproducer).1

/-- What a push writes to the logs. It fails only when the next head meets the tail. -/
theorem Ring.push_logs (cfg : RingConfig) (r : Ring α) (value : α) :
    (r.push cfg value).1.consumer = r.consumer ∧
      ((r.push cfg value).2 = true ∧
          (r.push cfg value).1.producer.pushed =
            r.producer.pushed ++ [(r.ownHead cfg, value)] ∨
        (r.push cfg value).2 = false ∧
          (r.push cfg value).1.producer.pushed = r.producer.pushed ∧
          cfg.strategy.wrap (r.ownHead cfg + 1) cfg.cap = r.consumer.tail) := by
  simp only [Ring.push]
  split
  · split
    · next hfull => exact ⟨rfl, Or.inr ⟨rfl, rfl, hfull⟩⟩
    · exact ⟨rfl, Or.inl ⟨rfl, rfl⟩⟩
  · exact ⟨rfl, Or.inl ⟨rfl, rfl⟩⟩

/-- What a pop writes to the logs. It fails only when the tail meets the head. -/
theorem Ring.pop_logs (cfg : RingConfig) (r : Ring α) :
    (r.pop cfg).1.producer = r.producer ∧
      ((∃ value, (r.pop cfg).2 = some value ∧
          (r.pop cfg).1.consumer.popped = r.consumer.popped ++ [value]) ∨
        (r.pop cfg).2 = none ∧ (r.pop cfg).1.consumer.popped = r.consumer.popped ∧
          r.ownTail cfg = r.producer.head) := by
  simp only [Ring.pop]
  split
  · split
    · next hempty => exact ⟨rfl, Or.inr ⟨rfl, rfl, hempty⟩⟩
    · exact ⟨rfl, Or.inl ⟨_, rfl, rfl⟩⟩
  · exact ⟨rfl, Or.inl ⟨_, rfl, rfl⟩⟩

/-- **Push.** It fails exactly when `cap - 1` elements are held. -/
theorem Ring.Holds.push {q : Fifo α (cfg.cap - 1)} (h : r.Holds cfg q) (value : α) :
    (r.push cfg value).2 = (q.push value).2 ∧ (r.push cfg value).1.Holds cfg (q.push value).1 := by
  obtain ⟨hrest, hitems⟩ := h
  have hrest' := hrest.push value
  obtain ⟨hconsumer, ⟨hok, hpushed⟩ | ⟨hfail, hpushed, hfull⟩⟩ := r.push_logs cfg value
  · have hcontents := hrest.positions.contents_push hpushed (by rw [hconsumer])
    have hle := hrest'.positions.length_contents_le
    rw [hcontents, hitems, List.length_append] at hle
    have hroom : q.items.length < cfg.cap - 1 := hle
    obtain ⟨hq, hq'⟩ := Fifo.push_of_lt hroom value
    exact ⟨by rw [hok, hq'], hrest', by rw [hcontents, hitems, hq]; rfl⟩
  · rw [hrest.positions.full_iff, hitems] at hfull
    have hnone : (r.push cfg value).1.producer.pushed = r.producer.pushed ++ [] := by
      rw [hpushed, List.append_nil]
    have hcontents := hrest.positions.contents_push hnone (by rw [hconsumer])
    rw [Fifo.push_of_full hfull]
    exact ⟨hfail, hrest', by rw [hcontents, hitems]; exact List.append_nil _⟩

/-- **Pop.** It fails exactly when nothing is held. -/
theorem Ring.Holds.pop {q : Fifo α (cfg.cap - 1)} (h : r.Holds cfg q) :
    (r.pop cfg).2 = q.pop.2 ∧ (r.pop cfg).1.Holds cfg q.pop.1 := by
  obtain ⟨hrest, hitems⟩ := h
  have hrest' := hrest.pop
  simp only [Fifo.pop, Ring.Holds]
  rw [← hitems]
  obtain ⟨hproducer, ⟨value, hok, hpopped⟩ | ⟨hfail, hpopped, hempty⟩⟩ := r.pop_logs cfg
  · have hcontents := hrest'.positions.contents_pop hpopped (by rw [hproducer])
    rw [hok, hcontents]
    exact ⟨rfl, hrest', rfl⟩
  · rw [hrest.positions.empty_iff] at hempty
    have hnone : (r.pop cfg).1.consumer.popped = r.consumer.popped ++ [] := by
      rw [hpopped, List.append_nil]
    have hcontents := hrest'.positions.contents_pop hnone (by rw [hproducer])
    rw [hempty, List.nil_append] at hcontents
    rw [hfail, hempty, ← hcontents]
    exact ⟨rfl, hrest', rfl⟩

namespace RingEngine

/-- A call on a single thread. -/
inductive Call (α : Type)
  | push (value : α)
  | tryPush (value : α)
  | pop
  | tryPop
  | len
  deriving DecidableEq, Repr

/-- What a call returns. -/
inductive Answer (α : Type)
  | pushed (result : PushResult α)
  | popped (result : PopResult α)
  | len (n : Nat)
  deriving DecidableEq, Repr

/-- `push`: drops the value when full. -/
def push (cfg : RingConfig) (r : Ring α) (value : α) : Ring α × PushResult α :=
  ((r.push cfg value).1, PushCall.push.result value (r.push cfg value).2)

/-- `try_push`: hands the value back when full. -/
def tryPush (cfg : RingConfig) (r : Ring α) (value : α) : Ring α × PushResult α :=
  ((r.push cfg value).1, PushCall.tryPush.result value (r.push cfg value).2)

def pop (cfg : RingConfig) (r : Ring α) : Ring α × PopResult α :=
  ((r.pop cfg).1, PopCall.pop.result (r.pop cfg).2)

def tryPop (cfg : RingConfig) (r : Ring α) : Ring α × PopResult α :=
  ((r.pop cfg).1, PopCall.tryPop.result (r.pop cfg).2)

/-- One call on the ring. -/
def call (cfg : RingConfig) (r : Ring α) : Call α → Ring α × Answer α
  | .push value => ((push cfg r value).1, .pushed (push cfg r value).2)
  | .tryPush value => ((tryPush cfg r value).1, .pushed (tryPush cfg r value).2)
  | .pop => ((pop cfg r).1, .popped (pop cfg r).2)
  | .tryPop => ((tryPop cfg r).1, .popped (tryPop cfg r).2)
  | .len => (r, .len (r.len cfg))

/-- The same call on a bounded queue. -/
def fifoCall {cap : Nat} (q : Fifo α cap) : Call α → Fifo α cap × Answer α
  | .push value => ((q.push value).1, .pushed (.bool (q.push value).2))
  | .tryPush value =>
      ((q.push value).1, .pushed (if (q.push value).2 then .ok else .full value))
  | .pop => (q.pop.1, .popped (.bool q.pop.2))
  | .tryPop =>
      (q.pop.1, .popped (match q.pop.2 with
        | some value => .ok value
        | none => .empty))
  | .len => (q, .len q.items.length)

/-- **One call.** -/
theorem call_simulates (cfg : RingConfig) :
    Simulates (Ring.Holds cfg) (call (α := α) cfg) fifoCall := by
  intro r q c h
  cases c with
  | push value =>
      obtain ⟨hok, hnext⟩ := h.push value
      refine ⟨?_, hnext⟩
      simp only [call, push, fifoCall, PushCall.result, hok]
  | tryPush value =>
      obtain ⟨hok, hnext⟩ := h.push value
      refine ⟨?_, hnext⟩
      simp only [call, tryPush, fifoCall, hok]
      cases (q.push value).2 <;> rfl
  | pop =>
      obtain ⟨hout, hnext⟩ := h.pop
      refine ⟨?_, hnext⟩
      simp only [call, pop, fifoCall, PopCall.result, hout]
  | tryPop =>
      obtain ⟨hout, hnext⟩ := h.pop
      refine ⟨?_, hnext⟩
      simp only [call, tryPop, fifoCall, hout]
      cases q.pop.2 <;> rfl
  | len =>
      refine ⟨?_, h⟩
      simp only [call, fifoCall, h.1.positions.len_eq, h.2]

/-- **The ring is a bounded queue.** For every power-of-two capacity, index strategy and
target, every sequence of calls on a new ring gives the answers of a queue of at most
`cap - 1` elements, and leaves the contents of that queue. Two rings of one capacity, with
masking and with the branch in particular, give the same answers. -/
theorem sequential_fifo (cfg : RingConfig) (slots : Nat → α) (calls : List (Call α)) :
    outputs (call cfg) (.new slots) calls =
        outputs fifoCall (.empty : Fifo α (cfg.cap - 1)) calls ∧
      (final (call cfg) (.new slots) calls).contents =
        (final fifoCall (.empty : Fifo α (cfg.cap - 1)) calls).items ∧
      ∀ cfg' : RingConfig, cfg'.cap = cfg.cap → ∀ slots' : Nat → α,
        outputs (call cfg') (.new slots') calls = outputs (call cfg) (.new slots) calls := by
  have hfifo : ∀ (cfg : RingConfig) (slots : Nat → α), outputs (call cfg) (.new slots) calls =
      outputs fifoCall (.empty : Fifo α (cfg.cap - 1)) calls :=
    fun cfg slots => (call_simulates cfg).outputs_eq (Ring.holds_new cfg slots) calls
  refine ⟨hfifo cfg slots, ?_, ?_⟩
  · exact ((call_simulates cfg).final (Ring.holds_new cfg slots) calls).2
  · intro cfg' hcap slots'
    rw [hfifo, hfifo, hcap]

/-- Filling a ring of two slots, and going around it. -/
theorem sequential_fifo_two_slots :
    outputs (call (.branching 1 true)) (.new fun _ => 0)
        [.push 7, .tryPush 8, .pop, .tryPush 8, .len, .tryPop, .tryPop] =
      outputs (call (.masked 1 false)) (.new fun _ => 0)
        [.push 7, .tryPush 8, .pop, .tryPush 8, .len, .tryPop, .tryPop] :=
  (sequential_fifo (.masked 1 false) (fun _ => 0) _).2.2 (.branching 1 true) rfl _

example : outputs (call (.branching 1 true)) (.new fun _ => 0)
      [.push 7, .tryPush 8, .pop, .tryPush 8, .len, .tryPop, .tryPop] =
    [.pushed (.bool true), .pushed (.full 8), .popped (.bool (some 7)), .pushed .ok, .len 1,
      .popped (.ok 8), .popped .empty] := by decide

end RingEngine

end Mantis
