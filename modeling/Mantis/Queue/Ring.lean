import Mantis.Lib.Spsc
import Mathlib.Data.Nat.Bitwise

/-!
# Mantis.Queue.Ring

The memory of a ring and the single-element operations on it.

`RingEngine` and `CopyRingEngine` lay out the same two cache lines over a slot array
and run the same protocol for one element; they differ in what they return and in
the batch operations. This module has the shared part: the index strategies
(`crates/core/src/lib.rs`), the cache lines, and `push`/`pop` of one element as
sequences of atomic steps (`crates/queue/src/engine.rs`). Everything a thread does
between two accesses to shared memory belongs to one step.

`pushStep_sim` and `popStep_sim` map each step to steps of the abstract protocol of
`Mantis.Lib.Spsc`, in which positions never wrap.

Indices are natural numbers: all of them stay below `cap`, so sums of two stay below
`2 * cap`, which a `usize` holds for every capacity that can be allocated.
-/

namespace Mantis

/-! ### Index strategies -/

/-- How head and tail wrap around the buffer capacity. -/
inductive IndexStrategy
  /-- Power-of-two masking. -/
  | pow2Masked
  /-- A predicted branch. -/
  | branchWrap
  deriving DecidableEq, Repr

/-- Wrap a raw index to a valid slot position. -/
def IndexStrategy.wrap (strategy : IndexStrategy) (index capacity : Nat) : Nat :=
  match strategy with
  | .pow2Masked => index &&& (capacity - 1)
  | .branchWrap => if capacity ≤ index then 0 else index

namespace IndexStrategy

/-- Masking is reduction modulo a power-of-two capacity, for any index. -/
theorem wrap_masked {cap : Nat} (hcap : cap.isPowerOfTwo) (index : Nat) :
    pow2Masked.wrap index cap = index % cap := by
  obtain ⟨k, rfl⟩ := hcap
  exact Nat.and_two_pow_sub_one_eq_mod index k

/-- One past a valid index, both strategies reduce modulo the capacity. -/
theorem wrap_next {strategy : IndexStrategy} {cap index : Nat}
    (hcap : strategy = .pow2Masked → cap.isPowerOfTwo) (h : index < cap) :
    strategy.wrap (index + 1) cap = (index + 1) % cap := by
  cases strategy with
  | pow2Masked => exact wrap_masked (hcap rfl) (index + 1)
  | branchWrap =>
      show (if cap ≤ index + 1 then 0 else index + 1) = _
      split
      · next hle =>
          have heq : index + 1 = cap := by omega
          rw [heq, Nat.mod_self]
      · next hlt => exact (Nat.mod_eq_of_lt (by omega)).symm

end IndexStrategy

/-- The compile-time choices of a ring. The storages assert a power-of-two capacity. -/
structure RingConfig where
  cap : Nat
  cap_isPowerOfTwo : cap.isPowerOfTwo
  strategy : IndexStrategy
  /-- On `aarch64` each side also keeps its own index in a plain cell. -/
  aarch64 : Bool

namespace RingConfig

/-- The masked ring of capacity `2 ^ k`. -/
def masked (k : Nat) (aarch64 : Bool) : RingConfig := ⟨2 ^ k, ⟨k, rfl⟩, .pow2Masked, aarch64⟩

/-- The branching ring of capacity `2 ^ k`. -/
def branching (k : Nat) (aarch64 : Bool) : RingConfig := ⟨2 ^ k, ⟨k, rfl⟩, .branchWrap, aarch64⟩

variable (cfg : RingConfig)

theorem cap_pos : 0 < cfg.cap := by
  obtain ⟨k, hk⟩ := cfg.cap_isPowerOfTwo
  rw [hk]
  exact Nat.two_pow_pos k

/-- Masking is reduction modulo the capacity, for any index. -/
theorem wrap_pow2Masked (index : Nat) :
    IndexStrategy.pow2Masked.wrap index cfg.cap = index % cfg.cap :=
  IndexStrategy.wrap_masked cfg.cap_isPowerOfTwo index

/-- One past a valid index, both strategies reduce modulo the capacity. -/
theorem wrap_succ {index : Nat} (h : index < cfg.cap) :
    cfg.strategy.wrap (index + 1) cfg.cap = (index + 1) % cfg.cap :=
  IndexStrategy.wrap_next (fun _ => cfg.cap_isPowerOfTwo) h

theorem wrap_mod_succ (n : Nat) :
    cfg.strategy.wrap (n % cfg.cap + 1) cfg.cap = (n + 1) % cfg.cap := by
  rw [cfg.wrap_succ (Nat.mod_lt n cfg.cap_pos), Nat.mod_add_mod]

end RingConfig

/-! ### Cache lines -/

variable {α : Type}

/-- The producer's cache line. `pushed` is not in the program: it records every value
published, with the slot it was written to. -/
structure ProducerLine (α : Type) where
  head : Nat
  headLocal : Nat
  tailCached : Nat
  pushed : List (Nat × α)

/-- The consumer's cache line. `popped` records every value handed out. -/
structure ConsumerLine (α : Type) where
  tail : Nat
  tailLocal : Nat
  headCached : Nat
  popped : List α

/-- Both cache lines and the slots. Uninitialised slots hold arbitrary values. -/
structure Ring (α : Type) where
  slots : Nat → α
  producer : ProducerLine α
  consumer : ConsumerLine α

/-- A new ring over uninitialised slots. -/
def Ring.new (slots : Nat → α) : Ring α := ⟨slots, ⟨0, 0, 0, []⟩, ⟨0, 0, 0, []⟩⟩

/-- The producer's read of its own index. -/
def Ring.ownHead (cfg : RingConfig) (r : Ring α) : Nat :=
  if cfg.aarch64 then r.producer.headLocal else r.producer.head

/-- The consumer's read of its own index. -/
def Ring.ownTail (cfg : RingConfig) (r : Ring α) : Nat :=
  if cfg.aarch64 then r.consumer.tailLocal else r.consumer.tail

/-- The values published and not yet handed out, with their slots. -/
def Ring.waiting (r : Ring α) : List (Nat × α) :=
  r.producer.pushed.drop r.consumer.popped.length

/-! ### One element at a time -/

/-- A thread's next program counter, or the result of the call it has finished. -/
inductive Next (π ρ : Type)
  | running (pc : π)
  | returned (result : ρ)

/-- Where a push stands. -/
inductive PushPc (α : Type)
  /-- Compare with the cached tail. -/
  | compare (value : α) (head nextHead : Nat)
  /-- Load the consumer's tail into the cache. -/
  | refresh (value : α) (head nextHead : Nat)
  /-- Write the slot. -/
  | write (value : α) (head nextHead : Nat)
  /-- Store the new head. -/
  | publish (value : α) (head nextHead : Nat)
  /-- Store the new head in the local cell (`aarch64`). -/
  | setLocal (nextHead : Nat)

/-- Where a pop stands. -/
inductive PopPc (α : Type)
  | compare (tail : Nat)
  | refresh (tail : Nat)
  | read (tail : Nat)
  | publish (value : α) (nextTail : Nat)
  | setLocal (value : α) (nextTail : Nat)

/-- The first step of a push: read the own index. -/
def Ring.pushStart (cfg : RingConfig) (r : Ring α) (value : α) : PushPc α :=
  let head := r.ownHead cfg
  .compare value head (cfg.strategy.wrap (head + 1) cfg.cap)

/-- One step of a push; `false` when the ring is full. -/
def Ring.pushStep (cfg : RingConfig) (r : Ring α) : PushPc α → Ring α × Next (PushPc α) Bool
  | .compare value head nextHead =>
      if nextHead = r.producer.tailCached then (r, .running (.refresh value head nextHead))
      else (r, .running (.write value head nextHead))
  | .refresh value head nextHead =>
      let tail := r.consumer.tail
      let r := { r with producer := { r.producer with tailCached := tail } }
      if nextHead = tail then (r, .returned false)
      else (r, .running (.write value head nextHead))
  | .write value head nextHead =>
      ({ r with slots := Function.update r.slots head value },
        .running (.publish value head nextHead))
  | .publish value head nextHead =>
      let r := { r with
        producer :=
          { r.producer with head := nextHead, pushed := r.producer.pushed ++ [(head, value)] } }
      if cfg.aarch64 then (r, .running (.setLocal nextHead)) else (r, .returned true)
  | .setLocal nextHead =>
      ({ r with producer := { r.producer with headLocal := nextHead } }, .returned true)

/-- The first step of a pop: read the own index. -/
def Ring.popStart (cfg : RingConfig) (r : Ring α) : PopPc α := .compare (r.ownTail cfg)

/-- One step of a pop; `none` when the ring is empty. -/
def Ring.popStep (cfg : RingConfig) (r : Ring α) : PopPc α → Ring α × Next (PopPc α) (Option α)
  | .compare tail =>
      if tail = r.consumer.headCached then (r, .running (.refresh tail))
      else (r, .running (.read tail))
  | .refresh tail =>
      let head := r.producer.head
      let r := { r with consumer := { r.consumer with headCached := head } }
      if tail = head then (r, .returned none) else (r, .running (.read tail))
  | .read tail =>
      (r, .running (.publish (r.slots tail) (cfg.strategy.wrap (tail + 1) cfg.cap)))
  | .publish value nextTail =>
      let r := { r with
        consumer :=
          { r.consumer with tail := nextTail, popped := r.consumer.popped ++ [value] } }
      if cfg.aarch64 then (r, .running (.setLocal value nextTail)) else (r, .returned (some value))
  | .setLocal value nextTail =>
      ({ r with consumer := { r.consumer with tailLocal := nextTail } }, .returned (some value))

/-- The slot a push is about to write. -/
def PushPc.slot? : PushPc α → Option Nat
  | .write _ head _ => some head
  | _ => none

/-- The slot a pop is about to read. -/
def PopPc.slot? : PopPc α → Option Nat
  | .read tail => some tail
  | _ => none

/-! ### Relation to the abstract protocol -/

section Simulation

variable (cfg : RingConfig)

/-- The producer's line holds the abstract positions modulo the capacity. -/
structure ProducerLine.Sim (l : ProducerLine α) (p : Spsc.ProducerSide α) : Prop where
  head : l.head = p.published.length % cfg.cap
  tailCached : l.tailCached = p.cachedReads % cfg.cap
  pushed : l.pushed = p.published

structure ConsumerLine.Sim (l : ConsumerLine α) (c : Spsc.ConsumerSide α) : Prop where
  tail : l.tail = c.taken.length % cfg.cap
  headCached : l.headCached = c.cachedWrites % cfg.cap
  popped : l.popped = c.taken

structure Ring.Sim (r : Ring α) (a : Spsc.State α) : Prop where
  inv : Spsc.Inv cfg.cap a
  slots : r.slots = a.mem
  producer : r.producer.Sim cfg a.producer
  consumer : r.consumer.Sim cfg a.consumer

/-- Between two calls the producer has nothing reserved, and its local cell is current. -/
structure ProducerLine.Rest (l : ProducerLine α) (p : Spsc.ProducerSide α) : Prop where
  idle : p.Idle
  headLocal : cfg.aarch64 = true → l.headLocal = l.head

structure ConsumerLine.Rest (l : ConsumerLine α) (c : Spsc.ConsumerSide α) : Prop where
  idle : c.Idle
  tailLocal : cfg.aarch64 = true → l.tailLocal = l.tail

/-- The local variables of a push are the next position and the one after it. -/
def PushPc.Sim (l : ProducerLine α) (p : Spsc.ProducerSide α) : PushPc α → Prop
  | .compare _ head nextHead | .refresh _ head nextHead =>
      l.Rest cfg p ∧ head = p.nextSlot cfg.cap ∧ nextHead = (p.log.length + 1) % cfg.cap
  | .write value head nextHead =>
      p.todo = [value] ∧ p.written = [] ∧ (cfg.aarch64 = true → l.headLocal = l.head) ∧
        head = p.nextSlot cfg.cap ∧ nextHead = (p.log.length + 1) % cfg.cap
  | .publish value head nextHead =>
      p.todo = [] ∧ p.written = [(head, value)] ∧ nextHead = p.log.length % cfg.cap
  | .setLocal nextHead => p.Idle ∧ nextHead = l.head

def PopPc.Sim (l : ConsumerLine α) (c : Spsc.ConsumerSide α) : PopPc α → Prop
  | .compare tail | .refresh tail => l.Rest cfg c ∧ tail = c.nextSlot cfg.cap
  | .read tail =>
      c.want = 1 ∧ c.got = [] ∧ (cfg.aarch64 = true → l.tailLocal = l.tail) ∧
        tail = c.nextSlot cfg.cap
  | .publish value nextTail =>
      c.want = 0 ∧ c.got = [value] ∧ nextTail = (c.taken.length + 1) % cfg.cap
  | .setLocal _ nextTail => c.Idle ∧ nextTail = l.tail

end Simulation

variable {cfg : RingConfig} {r r' : Ring α} {a a' : Spsc.State α}

/-- A call's next program counter satisfies `P`, or its result satisfies `Q`. -/
def Next.Holds {π ρ : Type} (P : π → Prop) (Q : ρ → Prop) : Next π ρ → Prop
  | .running pc => P pc
  | .returned result => Q result

/-- A producer step of the ring is matched by abstract producer steps, and touches
nothing of the consumer's. -/
structure ProducerMatch (cfg : RingConfig) (r r' : Ring α) (a a' : Spsc.State α) : Prop where
  steps : Relation.ReflTransGen (Spsc.ProducerStep cfg.cap) a a'
  sim : r'.Sim cfg a'
  line : r'.consumer = r.consumer
  side : a'.consumer = a.consumer

structure ConsumerMatch (cfg : RingConfig) (r r' : Ring α) (a a' : Spsc.State α) : Prop where
  steps : Relation.ReflTransGen (Spsc.ConsumerStep cfg.cap) a a'
  sim : r'.Sim cfg a'
  line : r'.producer = r.producer
  side : a'.producer = a.producer

theorem Ring.Sim.producerMatch (h : r.Sim cfg a)
    (hsteps : Relation.ReflTransGen (Spsc.ProducerStep cfg.cap) a a')
    (hslots : r'.slots = a'.mem) (hline : r'.producer.Sim cfg a'.producer)
    (hother : r'.consumer = r.consumer) : ProducerMatch cfg r r' a a' := by
  have hside := Spsc.producerSteps_consumer hsteps
  refine ⟨hsteps, ⟨h.inv.producerSteps hsteps, hslots, hline, ?_⟩, hother, hside⟩
  rw [hother, hside]
  exact h.consumer

theorem Ring.Sim.consumerMatch (h : r.Sim cfg a)
    (hsteps : Relation.ReflTransGen (Spsc.ConsumerStep cfg.cap) a a')
    (hslots : r'.slots = r.slots) (hline : r'.consumer.Sim cfg a'.consumer)
    (hother : r'.producer = r.producer) : ConsumerMatch cfg r r' a a' := by
  obtain ⟨hmem, hside⟩ := Spsc.consumerSteps_producer hsteps
  refine ⟨hsteps, ⟨h.inv.consumerSteps hsteps, ?_, ?_, hline⟩, hother, hside⟩
  · rw [hslots, hmem]
    exact h.slots
  · rw [hother, hside]
    exact h.producer

/-- A step that changes nothing matches the abstract stutter. -/
theorem Ring.Sim.producerStutter (h : r.Sim cfg a) : ProducerMatch cfg r r a a :=
  ⟨.refl, h, rfl, rfl⟩

theorem Ring.Sim.consumerStutter (h : r.Sim cfg a) : ConsumerMatch cfg r r a a :=
  ⟨.refl, h, rfl, rfl⟩

theorem ProducerMatch.trans {r₁ r₂ r₃ : Ring α} {a₁ a₂ a₃ : Spsc.State α}
    (h : ProducerMatch cfg r₁ r₂ a₁ a₂) (h' : ProducerMatch cfg r₂ r₃ a₂ a₃) :
    ProducerMatch cfg r₁ r₃ a₁ a₃ :=
  ⟨h.steps.trans h'.steps, h'.sim, h'.line.trans h.line, h'.side.trans h.side⟩

theorem ConsumerMatch.trans {r₁ r₂ r₃ : Ring α} {a₁ a₂ a₃ : Spsc.State α}
    (h : ConsumerMatch cfg r₁ r₂ a₁ a₂) (h' : ConsumerMatch cfg r₂ r₃ a₂ a₃) :
    ConsumerMatch cfg r₁ r₃ a₁ a₃ :=
  ⟨h.steps.trans h'.steps, h'.sim, h'.line.trans h.line, h'.side.trans h.side⟩

theorem log_of_idle {p : Spsc.ProducerSide α} (h : p.Idle) : p.log = p.published := by
  rw [Spsc.ProducerSide.log, h.2, List.append_nil]

theorem Ring.Sim.ownHead (h : r.Sim cfg a) (hrest : r.producer.Rest cfg a.producer) :
    r.ownHead cfg = a.producer.nextSlot cfg.cap := by
  have hhead : r.ownHead cfg = r.producer.head := by
    unfold Ring.ownHead
    split
    · next harch => exact hrest.headLocal harch
    · rfl
  rw [hhead, h.producer.head, Spsc.ProducerSide.nextSlot, log_of_idle hrest.idle]

theorem Ring.Sim.ownTail (h : r.Sim cfg a) (hrest : r.consumer.Rest cfg a.consumer) :
    r.ownTail cfg = a.consumer.nextSlot cfg.cap := by
  have htail : r.ownTail cfg = r.consumer.tail := by
    unfold Ring.ownTail
    split
    · next harch => exact hrest.tailLocal harch
    · rfl
  rw [htail, h.consumer.tail, Spsc.ConsumerSide.nextSlot, hrest.idle.2, List.length_nil,
    Nat.add_zero]

theorem Ring.Sim.pushStart (h : r.Sim cfg a) (hrest : r.producer.Rest cfg a.producer)
    (value : α) : (r.pushStart cfg value).Sim cfg r.producer a.producer := by
  refine ⟨hrest, h.ownHead hrest, ?_⟩
  rw [h.ownHead hrest]
  exact cfg.wrap_mod_succ _

theorem Ring.Sim.popStart (h : r.Sim cfg a) (hrest : r.consumer.Rest cfg a.consumer) :
    (r.popStart cfg).Sim cfg r.consumer a.consumer := ⟨hrest, h.ownTail hrest⟩

/-- The full test is right about the cached tail: if the next index differs from it, one
more value has room. -/
theorem room_of_next_ne (h : Spsc.Inv cfg.cap a)
    (hne : (a.producer.log.length + 1) % cfg.cap ≠ a.producer.cachedReads % cfg.cap) :
    a.producer.log.length + 1 ≤ a.producer.cachedReads + (cfg.cap - 1) := by
  by_contra hfull
  have hreserved := h.reserved_le
  have hpos := cfg.cap_pos
  have heq : a.producer.log.length + 1 = a.producer.cachedReads + cfg.cap := by omega
  exact hne (by rw [heq, Nat.add_mod_right])

/-- The empty test is right about the cached head. -/
theorem avail_of_tail_ne (h : Spsc.Inv cfg.cap a)
    (hne : a.consumer.nextSlot cfg.cap ≠ a.consumer.cachedWrites % cfg.cap) :
    a.consumer.taken.length + a.consumer.got.length + 1 ≤ a.consumer.cachedWrites := by
  have hclaimed := h.claimed_le
  have hdiff : a.consumer.taken.length + a.consumer.got.length ≠ a.consumer.cachedWrites :=
    fun heq => hne (by rw [Spsc.ConsumerSide.nextSlot, heq])
  omega

/-- The outcome of a producer step is matched: the ring by abstract steps, the program
counter by `Pc`, and a call that has returned an `Ok` result leaves the producer at rest. -/
def ProducerMatched {π ρ : Type} (cfg : RingConfig)
    (Pc : ProducerLine α → Spsc.ProducerSide α → π → Prop) (Ok : ρ → Prop) (r : Ring α)
    (a : Spsc.State α) (out : Ring α × Next π ρ) : Prop :=
  ∃ a', ProducerMatch cfg r out.1 a a' ∧ out.2.Holds (Pc out.1.producer a'.producer)
    fun result => Ok result ∧ out.1.producer.Rest cfg a'.producer

def ConsumerMatched {π ρ : Type} (cfg : RingConfig)
    (Pc : ConsumerLine α → Spsc.ConsumerSide α → π → Prop) (Ok : ρ → Prop) (r : Ring α)
    (a : Spsc.State α) (out : Ring α × Next π ρ) : Prop :=
  ∃ a', ConsumerMatch cfg r out.1 a a' ∧ out.2.Holds (Pc out.1.consumer a'.consumer)
    fun result => Ok result ∧ out.1.consumer.Rest cfg a'.consumer

theorem ProducerMatched.of_match {π ρ : Type}
    {Pc : ProducerLine α → Spsc.ProducerSide α → π → Prop} {Ok : ρ → Prop} {r' : Ring α}
    {a' : Spsc.State α} {out : Ring α × Next π ρ} (h : ProducerMatch cfg r r' a a')
    (hout : ProducerMatched cfg Pc Ok r' a' out) : ProducerMatched cfg Pc Ok r a out := by
  obtain ⟨a'', hmatch, hnext⟩ := hout
  exact ⟨a'', h.trans hmatch, hnext⟩

theorem ConsumerMatched.of_match {π ρ : Type}
    {Pc : ConsumerLine α → Spsc.ConsumerSide α → π → Prop} {Ok : ρ → Prop} {r' : Ring α}
    {a' : Spsc.State α} {out : Ring α × Next π ρ} (h : ConsumerMatch cfg r r' a a')
    (hout : ConsumerMatched cfg Pc Ok r' a' out) : ConsumerMatched cfg Pc Ok r a out := by
  obtain ⟨a'', hmatch, hnext⟩ := hout
  exact ⟨a'', h.trans hmatch, hnext⟩

/-! ### Steps both engines take -/

/-- The producer reads the consumer's tail. -/
theorem Ring.Sim.refreshTail (h : r.Sim cfg a) :
    ProducerMatch cfg r { r with producer := { r.producer with tailCached := r.consumer.tail } } a
      { a with producer := { a.producer with cachedReads := a.consumer.taken.length } } :=
  h.producerMatch (.single .refresh) h.slots
    ⟨h.producer.head, h.consumer.tail, h.producer.pushed⟩ rfl

/-- The consumer reads the producer's head. -/
theorem Ring.Sim.refreshHead (h : r.Sim cfg a) :
    ConsumerMatch cfg r { r with consumer := { r.consumer with headCached := r.producer.head } } a
      { a with consumer := { a.consumer with cachedWrites := a.producer.published.length } } :=
  h.consumerMatch (.single .refresh) rfl
    ⟨h.consumer.tail, h.producer.head, h.consumer.popped⟩ rfl

/-- The producer publishes all it has written. -/
theorem Ring.Sim.publishHead (h : r.Sim cfg a) (htodo : a.producer.todo = [])
    {pushed : List (Nat × α)} (hlog : pushed = a.producer.log) :
    ProducerMatch cfg r
      { r with
        producer := { r.producer with head := a.producer.log.length % cfg.cap, pushed := pushed } }
      a { a with producer := { a.producer with published := a.producer.log, written := [] } } :=
  h.producerMatch (.single (.publish htodo)) h.slots ⟨rfl, h.producer.tailCached, hlog⟩ rfl

/-- The consumer releases all it has read. -/
theorem Ring.Sim.releaseTail (h : r.Sim cfg a) (hwant : a.consumer.want = 0) {out : List α}
    (hgot : a.consumer.got = out) :
    ConsumerMatch cfg r
      { r with
        consumer :=
          { r.consumer with
            tail := (a.consumer.taken.length + out.length) % cfg.cap
            popped := r.consumer.popped ++ out } } a
      { a with
        consumer := { a.consumer with taken := a.consumer.taken ++ a.consumer.got, got := [] } } := by
  have htaken : a.consumer.taken ++ a.consumer.got = a.consumer.taken ++ out := by rw [hgot]
  exact h.consumerMatch (.single (.release hwant)) rfl
    ⟨by rw [htaken, List.length_append], h.consumer.headCached,
      by rw [htaken, h.consumer.popped]⟩ rfl

/-- **One step of a push.** -/
theorem Ring.Sim.pushStep (h : r.Sim cfg a) {pc : PushPc α}
    (hpc : pc.Sim cfg r.producer a.producer) :
    ProducerMatched cfg (PushPc.Sim cfg) (fun _ => True) r a (r.pushStep cfg pc) := by
  cases pc with
  | compare value head nextHead =>
      obtain ⟨hrest, rfl, rfl⟩ := hpc
      show ProducerMatched cfg (PushPc.Sim cfg) (fun _ => True) r a (if _ then _ else _)
      split
      · exact ⟨a, h.producerStutter, hrest, rfl, rfl⟩
      · next hne =>
          -- the reservation of one slot is checked against the cached tail
          rw [h.producer.tailCached] at hne
          have hroom := room_of_next_ne h.inv hne
          refine ⟨_, h.producerMatch (.single (.reserve [value] hrest.idle.1 hroom)) h.slots
            ⟨h.producer.head, h.producer.tailCached, h.producer.pushed⟩ rfl, ?_⟩
          exact ⟨rfl, hrest.idle.2, hrest.headLocal, rfl, rfl⟩
  | refresh value head nextHead =>
      obtain ⟨hrest, rfl, rfl⟩ := hpc
      have hsim := h.refreshTail.sim
      refine .of_match h.refreshTail ?_
      show ProducerMatched cfg (PushPc.Sim cfg) (fun _ => True) _ _ (if _ then _ else _)
      split
      · exact ⟨_, hsim.producerStutter, trivial, hrest.idle, hrest.headLocal⟩
      · next hne =>
          rw [h.consumer.tail] at hne
          have hroom := room_of_next_ne hsim.inv hne
          refine ⟨_, hsim.producerMatch (.single (.reserve [value] hrest.idle.1 hroom)) hsim.slots
            ⟨hsim.producer.head, hsim.producer.tailCached, hsim.producer.pushed⟩ rfl, ?_⟩
          exact ⟨rfl, hrest.idle.2, hrest.headLocal, rfl, rfl⟩
  | write value head nextHead =>
      obtain ⟨htodo, hwritten, hlocal, rfl, rfl⟩ := hpc
      refine ⟨_, h.producerMatch (.single (.write value [] htodo)) ?_
        ⟨h.producer.head, h.producer.tailCached, h.producer.pushed⟩ rfl, rfl, ?_, ?_⟩
      · show Function.update r.slots _ value = Function.update a.mem _ value
        rw [h.slots]
      · show a.producer.written ++ [_] = [_]
        rw [hwritten]
        rfl
      · rw [Spsc.log_write, List.length_append, List.length_singleton]
  | publish value head nextHead =>
      obtain ⟨htodo, hwritten, rfl⟩ := hpc
      have hlog : r.producer.pushed ++ [(head, value)] = a.producer.log := by
        rw [Spsc.ProducerSide.log, hwritten, h.producer.pushed]
      have hmatch := h.publishHead htodo hlog
      show ProducerMatched cfg (PushPc.Sim cfg) (fun _ => True) r a (if _ then _ else _)
      split
      · exact ⟨_, hmatch, ⟨htodo, rfl⟩, rfl⟩
      · next harch => exact ⟨_, hmatch, trivial, ⟨htodo, rfl⟩, fun h => absurd h harch⟩
  | setLocal nextHead =>
      obtain ⟨hidle, rfl⟩ := hpc
      exact ⟨a, h.producerMatch .refl h.slots
        ⟨h.producer.head, h.producer.tailCached, h.producer.pushed⟩ rfl, trivial, hidle,
        fun _ => rfl⟩

/-- **One step of a pop.** -/
theorem Ring.Sim.popStep (h : r.Sim cfg a) {pc : PopPc α}
    (hpc : pc.Sim cfg r.consumer a.consumer) :
    ConsumerMatched cfg (PopPc.Sim cfg) (fun _ => True) r a (r.popStep cfg pc) := by
  cases pc with
  | compare tail =>
      obtain ⟨hrest, rfl⟩ := hpc
      show ConsumerMatched cfg (PopPc.Sim cfg) (fun _ => True) r a (if _ then _ else _)
      split
      · exact ⟨a, h.consumerStutter, hrest, rfl⟩
      · next hne =>
          rw [h.consumer.headCached] at hne
          have havail := avail_of_tail_ne h.inv hne
          refine ⟨_, h.consumerMatch (.single (.claim 1 hrest.idle.1 havail)) rfl
            ⟨h.consumer.tail, h.consumer.headCached, h.consumer.popped⟩ rfl, ?_⟩
          exact ⟨rfl, hrest.idle.2, hrest.tailLocal, rfl⟩
  | refresh tail =>
      obtain ⟨hrest, rfl⟩ := hpc
      have hsim := h.refreshHead.sim
      refine .of_match h.refreshHead ?_
      show ConsumerMatched cfg (PopPc.Sim cfg) (fun _ => True) _ _ (if _ then _ else _)
      split
      · exact ⟨_, hsim.consumerStutter, trivial, hrest.idle, hrest.tailLocal⟩
      · next hne =>
          rw [h.producer.head] at hne
          have havail := avail_of_tail_ne hsim.inv hne
          refine ⟨_, hsim.consumerMatch (.single (.claim 1 hrest.idle.1 havail)) rfl
            ⟨hsim.consumer.tail, hsim.consumer.headCached, hsim.consumer.popped⟩ rfl, ?_⟩
          exact ⟨rfl, hrest.idle.2, hrest.tailLocal, rfl⟩
  | read tail =>
      obtain ⟨hwant, hgot, hlocal, rfl⟩ := hpc
      refine ⟨_, h.consumerMatch (.single (.read 0 hwant)) rfl
        ⟨h.consumer.tail, h.consumer.headCached, h.consumer.popped⟩ rfl, rfl, ?_, ?_⟩
      · show a.consumer.got ++ [_] = [_]
        rw [hgot, h.slots]
        rfl
      · show cfg.strategy.wrap (a.consumer.nextSlot cfg.cap + 1) cfg.cap = _
        rw [Spsc.ConsumerSide.nextSlot, cfg.wrap_mod_succ, hgot]
        rfl
  | publish value nextTail =>
      obtain ⟨hwant, hgot, rfl⟩ := hpc
      have hmatch := h.releaseTail hwant hgot
      show ConsumerMatched cfg (PopPc.Sim cfg) (fun _ => True) r a (if _ then _ else _)
      split
      · exact ⟨_, hmatch, ⟨hwant, rfl⟩, rfl⟩
      · next harch => exact ⟨_, hmatch, trivial, ⟨hwant, rfl⟩, fun h => absurd h harch⟩
  | setLocal value nextTail =>
      obtain ⟨hidle, rfl⟩ := hpc
      exact ⟨a, h.consumerMatch .refl rfl
        ⟨h.consumer.tail, h.consumer.headCached, h.consumer.popped⟩ rfl, trivial, hidle,
        fun _ => rfl⟩

/-! ### Safety -/

/-- What both engines guarantee in every state: `writing` is the slot the producer is
about to write and `reading` the one the consumer is about to read. -/
structure Ring.Safe (cfg : RingConfig) (r : Ring α) (writing reading : Option Nat) : Prop where
  /-- Nothing is lost, duplicated or reordered. -/
  fifo : r.consumer.popped <+: r.producer.pushed.map Prod.snd
  waiting_le : r.producer.pushed.length ≤ r.consumer.popped.length + (cfg.cap - 1)
  head_lt : r.producer.head < cfg.cap
  tail_lt : r.consumer.tail < cfg.cap
  /-- A slot about to be written holds no waiting value and is not being read. -/
  write_exclusive : ∀ slot, writing = some slot →
    slot < cfg.cap ∧ (∀ e ∈ r.waiting, e.1 ≠ slot) ∧ reading ≠ some slot
  /-- A slot about to be read holds a waiting value. -/
  read_published : ∀ slot, reading = some slot →
    slot < cfg.cap ∧ (slot, r.slots slot) ∈ r.waiting

theorem Ring.Sim.safe (h : r.Sim cfg a) {writing reading : Option Nat}
    (hwrite : ∀ slot, writing = some slot →
      a.producer.todo ≠ [] ∧ slot = a.producer.nextSlot cfg.cap)
    (hread : ∀ slot, reading = some slot →
      a.consumer.want ≠ 0 ∧ slot = a.consumer.nextSlot cfg.cap) :
    r.Safe cfg writing reading := by
  have hwaiting : r.waiting = a.producer.published.drop a.consumer.taken.length := by
    rw [Ring.waiting, h.producer.pushed, h.consumer.popped]
  refine ⟨?_, ?_, ?_, ?_, ?_, ?_⟩
  · rw [h.consumer.popped, h.producer.pushed]
    exact h.inv.taken_prefix
  · rw [h.consumer.popped, h.producer.pushed]
    exact h.inv.waiting_le
  · rw [h.producer.head]
    exact Nat.mod_lt _ cfg.cap_pos
  · rw [h.consumer.tail]
    exact Nat.mod_lt _ cfg.cap_pos
  · intro slot hslot
    obtain ⟨htodo, rfl⟩ := hwrite slot hslot
    refine ⟨Nat.mod_lt _ cfg.cap_pos, ?_, ?_⟩
    · intro e he
      rw [hwaiting] at he
      exact h.inv.write_exclusive htodo he
    · intro hboth
      obtain ⟨hwant, heq⟩ := hread _ hboth
      exact h.inv.write_ne_read htodo hwant heq.symm
  · intro slot hslot
    obtain ⟨hwant, rfl⟩ := hread slot hslot
    rw [hwaiting, h.slots]
    exact ⟨Nat.mod_lt _ cfg.cap_pos, h.inv.read_waiting hwant⟩

theorem PushPc.Sim.writing {l : ProducerLine α} {p : Spsc.ProducerSide α} {pc : PushPc α}
    (h : pc.Sim cfg l p) {slot : Nat} (hslot : pc.slot? = some slot) :
    p.todo ≠ [] ∧ slot = p.nextSlot cfg.cap := by
  cases pc with
  | write value head nextHead =>
      obtain ⟨htodo, -, -, hhead, -⟩ := h
      cases hslot
      exact ⟨by simp [htodo], hhead⟩
  | _ => cases hslot

theorem PopPc.Sim.reading {l : ConsumerLine α} {c : Spsc.ConsumerSide α} {pc : PopPc α}
    (h : pc.Sim cfg l c) {slot : Nat} (hslot : pc.slot? = some slot) :
    c.want ≠ 0 ∧ slot = c.nextSlot cfg.cap := by
  cases pc with
  | read tail =>
      obtain ⟨hwant, -, -, htail⟩ := h
      cases hslot
      exact ⟨by simp [hwant], htail⟩
  | _ => cases hslot

theorem Ring.sim_new (cfg : RingConfig) (slots : Nat → α) :
    (Ring.new slots).Sim cfg (Spsc.init slots) :=
  ⟨Spsc.inv_init slots, rfl, ⟨(Nat.zero_mod _).symm, (Nat.zero_mod _).symm, rfl⟩,
    ⟨(Nat.zero_mod _).symm, (Nat.zero_mod _).symm, rfl⟩⟩

end Mantis
