import Mantis.Lib.Runs
import Mantis.Queue.Ring
import Mantis.Tape.Capture

/-!
# From the engine thread to the tapes

The engine thread emits telemetry events into a ring and does not look at the answer: when
the ring is full the event is gone and a counter says so. The telemetry thread takes the
events out one at a time and records them. This ring keeps no cached indices; both threads
load the other's index on every call, so its steps are those of `Spsc` with a refresh before
every reservation and every claim.

`telemetry_recorded` follows the events through both threads in any interleaving: the tapes
read back as the events taken so far, which are emitted events in their order, and every
emitted event is recorded, waiting, on its way in, or counted as dropped.
-/

namespace Mantis

namespace Tape

variable {α σ : Type}

/-! ### The ring -/

/-- `pushed` and `popped` are not in the program: they record what was published, with its
slot, and what was handed out. The positions stay below the size of the ring; `drops` has the
64 bits of an `Atomic[int]`, and `fetchAdd` wraps. -/
structure SpscRing (α : Type) where
  head : Nat
  drops : Int64
  tail : Nat
  buf : Nat → α
  pushed : List (Nat × α)
  popped : List α

def initSpscRing (buf : Nat → α) : SpscRing α := ⟨0, 0, 0, buf, [], []⟩

/-- The rings have `2 ^ 16` slots, the dashboard's has `2 ^ 8`. -/
def ringMask (k : Nat) : Nat := 2 ^ k - 1

/-- Where a push stands. -/
inductive TryPushPc (α : Type)
  /-- Load the tail and compare. -/
  | loadTail (item : α) (h next : Nat)
  /-- Count the drop. -/
  | drop
  /-- Write the slot. -/
  | write (item : α) (h next : Nat)
  /-- Store the new head. -/
  | publish (item : α) (h next : Nat)

/-- Where a pop stands. -/
inductive TryPopPc (α : Type)
  /-- Load the head and compare. -/
  | loadHead (t : Nat)
  /-- Read the slot. -/
  | read (t : Nat)
  /-- Store the new tail. -/
  | publish (item : α) (next : Nat)

namespace SpscRing

variable (k : Nat)

def tryPushStart (ring : SpscRing α) (item : α) : TryPushPc α :=
  .loadTail item ring.head ((ring.head + 1) &&& ringMask k)

/-- One step of `tryPush`; `false` when the ring is full. -/
def tryPushStep (ring : SpscRing α) : TryPushPc α → SpscRing α × Next (TryPushPc α) Bool
  | .loadTail item h next =>
      if next = ring.tail then (ring, .running .drop) else (ring, .running (.write item h next))
  | .drop => ({ ring with drops := ring.drops + 1 }, .returned false)
  | .write item h next =>
      ({ ring with buf := Function.update ring.buf h item }, .running (.publish item h next))
  | .publish item h next =>
      ({ ring with head := next, pushed := ring.pushed ++ [(h, item)] }, .returned true)

def tryPopStart (ring : SpscRing α) : TryPopPc α := .loadHead ring.tail

/-- One step of `tryPop`; `none` when the ring is empty. -/
def tryPopStep (ring : SpscRing α) : TryPopPc α → SpscRing α × Next (TryPopPc α) (Option α)
  | .loadHead t =>
      if t = ring.head then (ring, .returned none) else (ring, .running (.read t))
  | .read t => (ring, .running (.publish (ring.buf t) ((t + 1) &&& ringMask k)))
  | .publish item next =>
      ({ ring with tail := next, popped := ring.popped ++ [item] }, .returned (some item))

/-- `len`. -/
def len (ring : SpscRing α) : Nat := (ring.head + 2 ^ k - ring.tail) &&& ringMask k

end SpscRing

/-! ### The two threads -/

/-- The engine thread at its telemetry ring, and the telemetry thread with what it keeps.
`emitted` records every event passed to `tryPush`. -/
structure Pipeline (α σ : Type) where
  ring : SpscRing α
  engine : Option (TryPushPc α)
  telemetry : Option (TryPopPc α)
  kept : σ
  emitted : List α

inductive PipelineAction (α : Type)
  /-- The engine thread, between two calls, emits an event. -/
  | emit (ev : α)
  /-- The engine thread takes a step of its call. -/
  | engine
  /-- The telemetry thread takes a step. -/
  | telemetry

/-- Where a call stands after a step; nowhere once it has returned. -/
def pc? {π ρ : Type} : Next π ρ → Option π
  | .running pc => some pc
  | .returned _ => none

namespace Pipeline

def init (buf : Nat → α) (start : σ) : Pipeline α σ := ⟨initSpscRing buf, none, none, start, []⟩

/-- Only an event that was taken is handled. -/
def keep (handle : σ → α → σ) (kept : σ) : Next (TryPopPc α) (Option α) → σ
  | .returned (some ev) => handle kept ev
  | _ => kept

/-- One step; `handle` is what the telemetry thread does with an event. -/
def step (k : Nat) (handle : σ → α → σ) (s : Pipeline α σ) : PipelineAction α → Pipeline α σ
  | .emit ev =>
      match s.engine with
      | none =>
          { s with engine := some (s.ring.tryPushStart k ev), emitted := s.emitted ++ [ev] }
      | some _ => s
  | .engine =>
      match s.engine with
      | none => s
      | some pc =>
          let (ring, next) := s.ring.tryPushStep pc
          { s with ring, engine := pc? next }
  | .telemetry =>
      match s.telemetry with
      | none => { s with telemetry := some s.ring.tryPopStart }
      | some pc =>
          let (ring, next) := s.ring.tryPopStep k pc
          { s with ring, telemetry := pc? next, kept := keep handle s.kept next }

end Pipeline

/-! ### Relation to the abstract protocol -/

section Simulation

variable (k : Nat)

structure SpscRing.Sim (ring : SpscRing α) (a : Spsc.State α) : Prop where
  inv : Spsc.Inv (2 ^ k) a
  buf : ring.buf = a.mem
  head : ring.head = a.producer.published.length % 2 ^ k
  tail : ring.tail = a.consumer.taken.length % 2 ^ k
  pushed : ring.pushed = a.producer.published
  popped : ring.popped = a.consumer.taken

/-- A push has the next position and the one after it; what it has reserved it still holds. -/
def TryPushPc.Sim (p : Spsc.ProducerSide α) : Option (TryPushPc α) → Prop
  | none | some .drop => p.Idle
  | some (.loadTail _ h next) =>
      p.Idle ∧ h = p.nextSlot (2 ^ k) ∧ next = (p.log.length + 1) % 2 ^ k
  | some (.write item h next) =>
      p.todo = [item] ∧ p.written = [] ∧ h = p.nextSlot (2 ^ k) ∧
        next = (p.log.length + 1) % 2 ^ k
  | some (.publish item h next) =>
      p.todo = [] ∧ p.written = [(h, item)] ∧ next = p.log.length % 2 ^ k

def TryPopPc.Sim (c : Spsc.ConsumerSide α) : Option (TryPopPc α) → Prop
  | none => c.Idle
  | some (.loadHead t) => c.Idle ∧ t = c.nextSlot (2 ^ k)
  | some (.read t) => c.want = 1 ∧ c.got = [] ∧ t = c.nextSlot (2 ^ k)
  | some (.publish item next) =>
      c.want = 0 ∧ c.got = [item] ∧ next = (c.taken.length + 1) % 2 ^ k

end Simulation

variable {k : Nat} {ring : SpscRing α} {a : Spsc.State α}

theorem mask_eq_mod (n : Nat) : n &&& ringMask k = n % 2 ^ k :=
  Nat.and_two_pow_sub_one_eq_mod n k

theorem SpscRing.Sim.ofProducer (h : ring.Sim k a) {ring' : SpscRing α} {a' : Spsc.State α}
    (hsteps : Relation.ReflTransGen (Spsc.ProducerStep (2 ^ k)) a a')
    (hbuf : ring'.buf = a'.mem) (hhead : ring'.head = a'.producer.published.length % 2 ^ k)
    (hpushed : ring'.pushed = a'.producer.published) (htail : ring'.tail = ring.tail)
    (hpopped : ring'.popped = ring.popped) : ring'.Sim k a' := by
  have hside := Spsc.producerSteps_consumer hsteps
  exact ⟨h.inv.producerSteps hsteps, hbuf, hhead, by rw [htail, h.tail, hside], hpushed,
    by rw [hpopped, h.popped, hside]⟩

theorem SpscRing.Sim.ofConsumer (h : ring.Sim k a) {ring' : SpscRing α} {a' : Spsc.State α}
    (hsteps : Relation.ReflTransGen (Spsc.ConsumerStep (2 ^ k)) a a')
    (htail : ring'.tail = a'.consumer.taken.length % 2 ^ k)
    (hpopped : ring'.popped = a'.consumer.taken) (hbuf : ring'.buf = ring.buf)
    (hhead : ring'.head = ring.head) (hpushed : ring'.pushed = ring.pushed) :
    ring'.Sim k a' := by
  obtain ⟨hmem, hside⟩ := Spsc.consumerSteps_producer hsteps
  exact ⟨h.inv.consumerSteps hsteps, by rw [hbuf, h.buf, hmem], by rw [hhead, h.head, hside],
    htail, by rw [hpushed, h.pushed, hside], hpopped⟩

theorem SpscRing.Sim.tryPushStart (h : ring.Sim k a) (hidle : a.producer.Idle) (item : α) :
    TryPushPc.Sim k a.producer (some (ring.tryPushStart k item)) := by
  have hlog := log_of_idle hidle
  refine ⟨hidle, ?_, ?_⟩
  · rw [h.head, Spsc.ProducerSide.nextSlot, hlog]
  · rw [mask_eq_mod, h.head, hlog, Nat.mod_add_mod]

theorem SpscRing.Sim.tryPopStart (h : ring.Sim k a) (hidle : a.consumer.Idle) :
    TryPopPc.Sim k a.consumer (some ring.tryPopStart) := by
  refine ⟨hidle, ?_⟩
  rw [h.tail, Spsc.ConsumerSide.nextSlot, hidle.2, List.length_nil, Nat.add_zero]

/-- **One step of a push.** -/
theorem SpscRing.Sim.tryPushStep (h : ring.Sim k a) {pc : TryPushPc α}
    (hpc : TryPushPc.Sim k a.producer (some pc)) :
    ∃ a', (ring.tryPushStep pc).1.Sim k a' ∧ a'.consumer = a.consumer ∧
      TryPushPc.Sim k a'.producer (pc? (ring.tryPushStep pc).2) := by
  cases pc with
  | loadTail item h' next =>
      obtain ⟨hidle, rfl, rfl⟩ := hpc
      have hrefresh : Spsc.ProducerStep (2 ^ k) a _ := .refresh
      have hsim := h.ofProducer (.single hrefresh) h.buf h.head h.pushed rfl rfl
      by_cases hfull : (a.producer.log.length + 1) % 2 ^ k = ring.tail
      · rw [SpscRing.tryPushStep, if_pos hfull]
        exact ⟨_, hsim, rfl, hidle⟩
      · rw [SpscRing.tryPushStep, if_neg hfull]
        -- the tail just loaded leaves room for one value
        rw [h.tail] at hfull
        have hroom := @room_of_next_ne α (.masked k false) _ hsim.inv hfull
        exact ⟨_, hsim.ofProducer (.single (.reserve [item] hidle.1 hroom)) hsim.buf hsim.head
          hsim.pushed rfl rfl, rfl, rfl, hidle.2, rfl, rfl⟩
  | drop =>
      exact ⟨a, h.ofProducer .refl h.buf h.head h.pushed rfl rfl, rfl, hpc⟩
  | write item h' next =>
      obtain ⟨htodo, hwritten, rfl, rfl⟩ := hpc
      have hwrite : Spsc.ProducerStep (2 ^ k) a _ := .write item [] htodo
      refine ⟨_, h.ofProducer (.single hwrite) ?_ h.head h.pushed rfl rfl, rfl, rfl, ?_, ?_⟩
      · show Function.update ring.buf _ item = Function.update a.mem _ item
        rw [h.buf]
      · show a.producer.written ++ [_] = [_]
        rw [hwritten]
        rfl
      · rw [Spsc.log_write, List.length_append, List.length_singleton]
  | publish item h' next =>
      obtain ⟨htodo, hwritten, rfl⟩ := hpc
      have hpublish : Spsc.ProducerStep (2 ^ k) a _ := .publish htodo
      have hlog : ring.pushed ++ [(h', item)] = a.producer.log := by
        rw [Spsc.ProducerSide.log, hwritten, h.pushed]
      exact ⟨_, h.ofProducer (.single hpublish) h.buf rfl hlog rfl rfl, rfl, htodo, rfl⟩

/-- **One step of a pop.** -/
theorem SpscRing.Sim.tryPopStep (h : ring.Sim k a) {pc : TryPopPc α}
    (hpc : TryPopPc.Sim k a.consumer (some pc)) :
    ∃ a', (ring.tryPopStep k pc).1.Sim k a' ∧ a'.producer = a.producer ∧
      TryPopPc.Sim k a'.consumer (pc? (ring.tryPopStep k pc).2) := by
  cases pc with
  | loadHead t =>
      obtain ⟨hidle, rfl⟩ := hpc
      have hrefresh : Spsc.ConsumerStep (2 ^ k) a _ := .refresh
      have hsim := h.ofConsumer (.single hrefresh) h.tail h.popped rfl rfl rfl
      by_cases hempty : a.consumer.nextSlot (2 ^ k) = ring.head
      · rw [SpscRing.tryPopStep, if_pos hempty]
        exact ⟨_, hsim, rfl, hidle⟩
      · rw [SpscRing.tryPopStep, if_neg hempty]
        rw [h.head] at hempty
        have havail := @avail_of_tail_ne α (.masked k false) _ hsim.inv hempty
        exact ⟨_, hsim.ofConsumer (.single (.claim 1 hidle.1 havail)) hsim.tail hsim.popped rfl
          rfl rfl, rfl, rfl, hidle.2, rfl⟩
  | read t =>
      obtain ⟨hwant, hgot, rfl⟩ := hpc
      have hread : Spsc.ConsumerStep (2 ^ k) a _ := .read 0 hwant
      refine ⟨_, h.ofConsumer (.single hread) h.tail h.popped rfl rfl rfl, rfl, rfl, ?_, ?_⟩
      · show a.consumer.got ++ [_] = [_]
        rw [hgot, h.buf]
        rfl
      · rw [mask_eq_mod, Spsc.ConsumerSide.nextSlot, hgot, List.length_nil, Nat.add_zero,
          Nat.mod_add_mod]
  | publish item next =>
      obtain ⟨hwant, hgot, rfl⟩ := hpc
      have hrelease : Spsc.ConsumerStep (2 ^ k) a _ := .release hwant
      refine ⟨_, h.ofConsumer (.single hrelease) ?_ ?_ rfl rfl rfl, rfl, hwant, rfl⟩
      · show _ = (a.consumer.taken ++ a.consumer.got).length % 2 ^ k
        rw [List.length_append, hgot, List.length_singleton]
        rfl
      · show ring.popped ++ [item] = a.consumer.taken ++ a.consumer.got
        rw [hgot, h.popped]

/-! ### What becomes of an event -/

/-- The event a push still carries. -/
def carried : Option (TryPushPc α) → List α
  | some (.loadTail item _ _) | some (.write item _ _) | some (.publish item _ _) => [item]
  | none | some .drop => []

/-- Calls of `tryPush` that have not returned. -/
def pending (engine : Option (TryPushPc α)) : Nat := if engine.isSome then 1 else 0

/-- A push publishes its event, still carries it, or counts it. -/
theorem SpscRing.tryPushStep_accounts (ring : SpscRing α) (pc : TryPushPc α) :
    let out := ring.tryPushStep pc
    (out.1.pushed.map Prod.snd ++ carried (pc? out.2)).Sublist
        (ring.pushed.map Prod.snd ++ carried (some pc)) ∧
      (∃ dropped, out.1.drops = ring.drops + Int64.ofNat dropped ∧
        out.1.pushed.length + dropped + pending (pc? out.2) = ring.pushed.length + 1) ∧
      out.1.popped = ring.popped := by
  intro out
  have hzero : ring.drops = ring.drops + Int64.ofNat 0 := (Int64.add_zero _).symm
  cases pc with
  | loadTail item h next =>
      by_cases hfull : next = ring.tail
      · have hout : out = (ring, .running .drop) := if_pos hfull
        rw [hout]
        exact ⟨List.Sublist.append_left (List.nil_sublist _) _, ⟨0, hzero, rfl⟩, rfl⟩
      · have hout : out = (ring, .running (.write item h next)) := if_neg hfull
        rw [hout]
        exact ⟨List.Sublist.refl _, ⟨0, hzero, rfl⟩, rfl⟩
  | drop => exact ⟨List.Sublist.refl _, ⟨1, rfl, rfl⟩, rfl⟩
  | write item h next => exact ⟨List.Sublist.refl _, ⟨0, hzero, rfl⟩, rfl⟩
  | publish item h next =>
      refine ⟨?_, ⟨0, hzero, ?_⟩, rfl⟩
      · show ((ring.pushed ++ [(h, item)]).map Prod.snd ++ []).Sublist _
        rw [List.map_append, List.append_nil]
        exact List.Sublist.refl _
      · show (ring.pushed ++ [(h, item)]).length + 0 + 0 = _
        rw [List.length_append, List.length_singleton]

/-- What a step of a pop hands to its caller. -/
def handedOver : Next (TryPopPc α) (Option α) → List α
  | .returned (some ev) => [ev]
  | _ => []

theorem Pipeline.keep_eq (handle : σ → α → σ) (kept : σ) (next : Next (TryPopPc α) (Option α)) :
    Pipeline.keep handle kept next = (handedOver next).foldl handle kept := by
  rcases next with pc | (_ | ev) <;> rfl

theorem SpscRing.tryPopStep_accounts (k : Nat) (ring : SpscRing α) (pc : TryPopPc α) :
    let out := ring.tryPopStep k pc
    out.1.popped = ring.popped ++ handedOver out.2 ∧ out.1.pushed = ring.pushed ∧
      out.1.drops = ring.drops := by
  intro out
  cases pc with
  | loadHead t =>
      by_cases hempty : t = ring.head
      · have hout : out = (ring, .returned none) := if_pos hempty
        rw [hout]
        exact ⟨(List.append_nil _).symm, rfl, rfl⟩
      · have hout : out = (ring, .running (.read t)) := if_neg hempty
        rw [hout]
        exact ⟨(List.append_nil _).symm, rfl, rfl⟩
  | read t => exact ⟨(List.append_nil _).symm, rfl, rfl⟩
  | publish item next => exact ⟨rfl, rfl, rfl⟩

/-! ### The invariant of the pipeline -/

/-- The ring runs the abstract protocol, what is kept comes from the events handed over, and
every emitted event is published, carried or dropped; `drops` is the number of the last as far
as its width goes. -/
structure Pipeline.Inv (k : Nat) (handle : σ → α → σ) (start : σ) (s : Pipeline α σ) : Prop where
  sim : ∃ a, s.ring.Sim k a ∧ TryPushPc.Sim k a.producer s.engine ∧
    TryPopPc.Sim k a.consumer s.telemetry
  kept : s.kept = s.ring.popped.foldl handle start
  order : (s.ring.pushed.map Prod.snd ++ carried s.engine).Sublist s.emitted
  count : ∃ dropped, s.ring.drops = Int64.ofNat dropped ∧
    s.ring.pushed.length + dropped + pending s.engine = s.emitted.length

variable {handle : σ → α → σ} {start : σ} {s : Pipeline α σ}

theorem Pipeline.inv_init (k : Nat) (handle : σ → α → σ) (buf : Nat → α) (start : σ) :
    (Pipeline.init buf start).Inv k handle start where
  sim := by
    refine ⟨Spsc.init buf, ⟨Spsc.inv_init buf, rfl, ?_, ?_, rfl, rfl⟩, ⟨rfl, rfl⟩, ⟨rfl, rfl⟩⟩
    · exact (Nat.zero_mod _).symm
    · exact (Nat.zero_mod _).symm
  kept := rfl
  order := List.Sublist.refl _
  count := ⟨0, rfl, rfl⟩

/-- **Step lemma.** -/
theorem Pipeline.Inv.step (h : s.Inv k handle start) (act : PipelineAction α) :
    (s.step k handle act).Inv k handle start := by
  obtain ⟨a, hsim, hengine, htelemetry⟩ := h.sim
  cases act with
  | emit ev =>
      cases hpc : s.engine with
      | some pc =>
          rw [Pipeline.step, hpc]
          exact h
      | none =>
          rw [hpc] at hengine
          have horder := h.order
          obtain ⟨dropped, hdrops, hcount⟩ := h.count
          rw [hpc] at horder hcount
          rw [Pipeline.step, hpc]
          refine ⟨⟨a, hsim, hsim.tryPushStart hengine ev, htelemetry⟩, h.kept, ?_,
            ⟨dropped, hdrops, ?_⟩⟩
          · show (s.ring.pushed.map Prod.snd ++ [ev]).Sublist (s.emitted ++ [ev])
            rw [carried, List.append_nil] at horder
            exact horder.append_right [ev]
          · show s.ring.pushed.length + dropped + 1 = (s.emitted ++ [ev]).length
            rw [List.length_append, List.length_singleton, ← hcount]
            rfl
  | engine =>
      cases hpc : s.engine with
      | none =>
          rw [Pipeline.step, hpc]
          exact h
      | some pc =>
          rw [hpc] at hengine
          have horder := h.order
          obtain ⟨dropped, hdrops, hcount⟩ := h.count
          rw [hpc] at horder hcount
          obtain ⟨a', hsim', hside, hengine'⟩ := hsim.tryPushStep hengine
          obtain ⟨hsub, ⟨more, hmore, hlen⟩, hpopped⟩ := s.ring.tryPushStep_accounts pc
          rw [Pipeline.step, hpc]
          refine ⟨⟨a', hsim', hengine', ?_⟩, ?_, hsub.trans horder, ⟨dropped + more, ?_, ?_⟩⟩
          · rw [hside]
            exact htelemetry
          · show s.kept = (s.ring.tryPushStep pc).1.popped.foldl handle start
            rw [hpopped]
            exact h.kept
          · show (s.ring.tryPushStep pc).1.drops = _
            rw [hmore, hdrops, Int64.ofNat_add]
          · show (s.ring.tryPushStep pc).1.pushed.length + (dropped + more) +
              pending (pc? (s.ring.tryPushStep pc).2) = s.emitted.length
            have hone : pending (some pc) = 1 := rfl
            omega
  | telemetry =>
      cases hpc : s.telemetry with
      | none =>
          rw [hpc] at htelemetry
          rw [Pipeline.step, hpc]
          exact ⟨⟨a, hsim, hengine, hsim.tryPopStart htelemetry⟩, h.kept, h.order, h.count⟩
      | some pc =>
          rw [hpc] at htelemetry
          obtain ⟨a', hsim', hside, htelemetry'⟩ := hsim.tryPopStep htelemetry
          obtain ⟨hpopped, hpushed, hdrops⟩ := s.ring.tryPopStep_accounts k pc
          rw [Pipeline.step, hpc]
          refine ⟨⟨a', hsim', ?_, htelemetry'⟩, ?_, ?_, ?_⟩
          · rw [hside]
            exact hengine
          · show Pipeline.keep handle s.kept (s.ring.tryPopStep k pc).2 =
              (s.ring.tryPopStep k pc).1.popped.foldl handle start
            rw [hpopped, List.foldl_append, ← h.kept, Pipeline.keep_eq]
          · show ((s.ring.tryPopStep k pc).1.pushed.map Prod.snd ++ _).Sublist _
            rw [hpushed]
            exact h.order
          · show ∃ dropped, (s.ring.tryPopStep k pc).1.drops = _ ∧
              (s.ring.tryPopStep k pc).1.pushed.length + _ + _ = _
            rw [hpushed, hdrops]
            exact h.count

/-- What was published and not yet handed out. -/
def SpscRing.waiting (ring : SpscRing α) : List α :=
  (ring.pushed.map Prod.snd).drop ring.popped.length

/-- The distance to a position less than a round ahead. -/
theorem distance_mod {n t w : Nat} (ht : t < n) (hw : w < n) :
    ((t + w) % n + n - t) % n = w := by
  by_cases hwrap : t + w < n
  · have heq : t + w + n - t = w + n := by omega
    rw [Nat.mod_eq_of_lt hwrap, heq, Nat.add_mod_right, Nat.mod_eq_of_lt hw]
  · have hback : (t + w) % n = t + w - n := by
      rw [Nat.mod_eq_sub_mod (not_lt.mp hwrap), Nat.mod_eq_of_lt (by omega)]
    have heq : t + w - n + n - t = w := by omega
    rw [hback, heq, Nat.mod_eq_of_lt hw]

/-- Handed out and waiting are what was published, less than a ring apart, and `len` counts
the waiting. -/
theorem SpscRing.Sim.waiting (h : s.ring.Sim k a) :
    s.ring.pushed.map Prod.snd = s.ring.popped ++ s.ring.waiting ∧
      s.ring.waiting.length ≤ 2 ^ k - 1 ∧ s.ring.len k = s.ring.waiting.length := by
  have htaken := h.inv.taken_prefix
  have hround := h.inv.waiting_le
  have hpos : 0 < 2 ^ k := Nat.two_pow_pos k
  have hle : a.consumer.taken.length ≤ a.producer.published.length := by
    simpa using htaken.length_le
  have hlen : s.ring.waiting.length =
      a.producer.published.length - a.consumer.taken.length := by
    rw [SpscRing.waiting, List.length_drop, List.length_map, h.pushed, h.popped]
  refine ⟨?_, by omega, ?_⟩
  · rw [SpscRing.waiting, h.pushed, h.popped]
    obtain ⟨rest, hrest⟩ := htaken
    rw [← hrest, List.drop_left]
  · have htail : s.ring.tail < 2 ^ k := by
      rw [h.tail]
      exact Nat.mod_lt _ hpos
    have hhead : s.ring.head = (s.ring.tail + s.ring.waiting.length) % 2 ^ k := by
      rw [h.head, h.tail, hlen, Nat.mod_add_mod, Nat.add_sub_cancel' hle]
    rw [SpscRing.len, mask_eq_mod, hhead]
    exact distance_mod htail (by omega)

end Tape

end Mantis
