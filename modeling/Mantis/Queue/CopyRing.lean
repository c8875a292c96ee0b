import Mantis.Lib.Runs
import Mantis.Queue.Ring
import Mathlib.Data.Nat.ModEq

/-!
# Mantis.Queue.CopyRing

`CopyRingEngine` under interleaving (`crates/queue/src/copy_ring/engine.rs`): the
single-element operations of `Mantis.Queue.Ring`, and batches.

A batch computes its size by modular distance from a possibly stale index, copies
its elements in two chunks around the wrap point, one slot per step, and publishes
them with one store. The subtractions on the way are `usize` subtractions: the model
checks each of them and sends the thread to `panicked` on an underflow, so that their
absence is a theorem about the code and not an artefact of truncated subtraction.
-/

namespace Mantis

variable {α : Type}

/-- `usize` subtraction; `none` on underflow. -/
def checkedSub (a b : Nat) : Option Nat := if b ≤ a then some (a - b) else none

/-- The distance from `tail` to `head` as both batch operations compute it. -/
def ringLen (cap head tail : Nat) : Option Nat :=
  if tail ≤ head then checkedSub head tail
  else (checkedSub cap tail).map (· + head)

/-- The free space seen from `tail`. -/
def ringFree (cap head tail : Nat) : Option Nat := do
  let usable ← checkedSub cap 1
  let len ← ringLen cap head tail
  checkedSub usable len

/-- The number of slots from `start` to the end of the array that a batch of `n` uses,
provided the remainder `n - first_chunk` does not underflow either. -/
def firstChunk (cap start n : Nat) : Option Nat := do
  let toEnd ← checkedSub cap start
  let first := min n toEnd
  let _ ← checkedSub n first
  pure first

/-- The slot of element `i` of a batch: the first chunk runs from `start` to the end of
the array, the second from slot zero. -/
def chunkSlot (start first i : Nat) : Nat := if i < first then start + i else i - first

/-! ### Batches -/

/-- Where a `push_batch` stands. -/
inductive PushBatchPc (α : Type)
  /-- Compute the free space from the cached tail. -/
  | compare (src : List α) (head : Nat)
  /-- Load the consumer's tail into the cache. -/
  | refresh (src : List α) (head : Nat)
  /-- Copy the next element, or publish when none is left. -/
  | copy (head n first : Nat) (rest : List α) (written : List (Nat × α))
  /-- Store the new head in the local cell (`aarch64`). -/
  | setLocal (newHead n : Nat)

/-- Where a `pop_batch` stands; `out` is the part of the destination filled so far. -/
inductive PopBatchPc (α : Type)
  | compare (dstLen tail : Nat)
  | refresh (dstLen tail : Nat)
  | copy (tail n first : Nat) (out : List α)
  | setLocal (newTail : Nat) (out : List α)

/-- Enter the copy loop of a `push_batch` with `free` slots; `none` on underflow. -/
def PushBatchPc.begin (cfg : RingConfig) (src : List α) (head free : Nat) :
    Option (PushBatchPc α) :=
  let n := min src.length free
  (firstChunk cfg.cap head n).map fun first => .copy head n first (src.take n) []

def PopBatchPc.begin (cfg : RingConfig) (dstLen tail avail : Nat) : Option (PopBatchPc α) :=
  let n := min dstLen avail
  (firstChunk cfg.cap tail n).map fun first => .copy tail n first []

/-- A program counter that was reached, or the panic of an underflow. -/
def Next.ofOption {π ρ : Type} : Option π → Next π (Option ρ)
  | some pc => .running pc
  | none => .returned none

/-- Entering the copy loop is no answer. -/
theorem Next.ofOption_ne_returned {π ρ : Type} (pc : Option π) (out : ρ) :
    (Next.ofOption pc : Next π (Option ρ)) ≠ .returned (some out) := by
  cases pc <;> exact fun h => by cases h

/-- One step of a `push_batch`, which returns the number of elements accepted, or `none`
after an underflow. -/
def Ring.pushBatchStep (cfg : RingConfig) (r : Ring α) :
    PushBatchPc α → Ring α × Next (PushBatchPc α) (Option Nat)
  | .compare src head =>
      match ringFree cfg.cap head r.producer.tailCached with
      | none => (r, .returned none)
      | some free =>
          if free < src.length then (r, .running (.refresh src head))
          else (r, .ofOption (PushBatchPc.begin cfg src head free))
  | .refresh src head =>
      let tail := r.consumer.tail
      let r := { r with producer := { r.producer with tailCached := tail } }
      match ringFree cfg.cap head tail with
      | none => (r, .returned none)
      | some free =>
          if free = 0 then (r, .returned (some 0))
          else (r, .ofOption (PushBatchPc.begin cfg src head free))
  | .copy head n first (value :: rest) written =>
      let slot := chunkSlot head first written.length
      ({ r with slots := Function.update r.slots slot value },
        .running (.copy head n first rest (written ++ [(slot, value)])))
  | .copy head n _ [] written =>
      let newHead := cfg.strategy.wrap (head + n) cfg.cap
      let r := { r with
        producer :=
          { r.producer with head := newHead, pushed := r.producer.pushed ++ written } }
      if cfg.aarch64 then (r, .running (.setLocal newHead n)) else (r, .returned (some n))
  | .setLocal newHead n =>
      ({ r with producer := { r.producer with headLocal := newHead } }, .returned (some n))

/-- One step of a `pop_batch`, which returns the elements copied out. -/
def Ring.popBatchStep (cfg : RingConfig) (r : Ring α) :
    PopBatchPc α → Ring α × Next (PopBatchPc α) (Option (List α))
  | .compare dstLen tail =>
      match ringLen cfg.cap r.consumer.headCached tail with
      | none => (r, .returned none)
      | some avail =>
          if avail < dstLen then (r, .running (.refresh dstLen tail))
          else (r, .ofOption (PopBatchPc.begin cfg dstLen tail avail))
  | .refresh dstLen tail =>
      let head := r.producer.head
      let r := { r with consumer := { r.consumer with headCached := head } }
      match ringLen cfg.cap head tail with
      | none => (r, .returned none)
      | some avail =>
          if avail = 0 then (r, .returned (some []))
          else (r, .ofOption (PopBatchPc.begin cfg dstLen tail avail))
  | .copy tail n first out =>
      if out.length < n then
        (r, .running (.copy tail n first (out ++ [r.slots (chunkSlot tail first out.length)])))
      else
        let newTail := cfg.strategy.wrap (tail + n) cfg.cap
        let r := { r with
          consumer := { r.consumer with tail := newTail, popped := r.consumer.popped ++ out } }
        if cfg.aarch64 then (r, .running (.setLocal newTail out)) else (r, .returned (some out))
  | .setLocal newTail out =>
      ({ r with consumer := { r.consumer with tailLocal := newTail } }, .returned (some out))

/-- The slot a `push_batch` is about to write. -/
def PushBatchPc.slot? : PushBatchPc α → Option Nat
  | .copy head _ first (_ :: _) written => some (chunkSlot head first written.length)
  | _ => none

/-- The slot a `pop_batch` is about to read. -/
def PopBatchPc.slot? : PopBatchPc α → Option Nat
  | .copy tail n first out => if out.length < n then some (chunkSlot tail first out.length) else none
  | _ => none

/-! ### Index arithmetic -/

section Arithmetic

variable {cap : Nat}

theorem checkedSub_of_le {a b : Nat} (h : b ≤ a) : checkedSub a b = some (a - b) := if_pos h

/-- On positions less than a round apart the modular distance is the true one. -/
theorem ringLen_eq (tail : Nat) {len : Nat} (hlen : len < cap) :
    ringLen cap ((tail + len) % cap) (tail % cap) = some len := by
  have htail := Nat.mod_lt tail (Nat.lt_of_le_of_lt (Nat.zero_le _) hlen)
  rw [Nat.add_mod_eq_ite, Nat.mod_eq_of_lt hlen]
  simp only [ringLen]
  split
  · rw [if_neg (by omega), checkedSub_of_le (by omega), Option.map_some]
    congr 1
    omega
  · rw [if_pos (by omega), checkedSub_of_le (by omega)]
    congr 1
    omega

theorem ringFree_eq (tail : Nat) {len : Nat} (hlen : len < cap) :
    ringFree cap ((tail + len) % cap) (tail % cap) = some (cap - 1 - len) := by
  simp only [ringFree]
  rw [checkedSub_of_le (by omega), ringLen_eq tail hlen]
  exact checkedSub_of_le (by omega)

theorem firstChunk_eq {start n : Nat} (hstart : start < cap) :
    firstChunk cap start n = some (min n (cap - start)) := by
  simp only [firstChunk]
  rw [checkedSub_of_le (Nat.le_of_lt hstart)]
  show (checkedSub n (min n (cap - start))).bind _ = _
  rw [checkedSub_of_le (Nat.min_le_left ..)]
  rfl

/-- Both chunks together cover consecutive positions. -/
theorem chunkSlot_eq {start n i : Nat} (hi : i < n) (hn : n < cap) :
    chunkSlot (start % cap) (min n (cap - start % cap)) i = (start + i) % cap := by
  have hstart := Nat.mod_lt start (Nat.lt_of_le_of_lt (Nat.zero_le _) hn)
  rw [Nat.add_mod_eq_ite, Nat.mod_eq_of_lt (Nat.lt_trans hi hn)]
  simp only [chunkSlot]
  split <;> split <;> omega

end Arithmetic

/-! ### Simulation of batches -/

section Simulation

variable (cfg : RingConfig)

/-- What is left of a `push_batch` is what the abstract producer has reserved, and what
it has copied is what the abstract producer has written. -/
def PushBatchPc.Sim (l : ProducerLine α) (p : Spsc.ProducerSide α) : PushBatchPc α → Prop
  | .compare _ head | .refresh _ head => l.Rest cfg p ∧ head = p.nextSlot cfg.cap
  | .copy head n first rest written =>
      p.todo = rest ∧ p.written = written ∧ (cfg.aarch64 = true → l.headLocal = l.head) ∧
        head = p.published.length % cfg.cap ∧ n = written.length + rest.length ∧
        first = min n (cfg.cap - head)
  | .setLocal newHead _ => p.Idle ∧ newHead = l.head

def PopBatchPc.Sim (l : ConsumerLine α) (c : Spsc.ConsumerSide α) : PopBatchPc α → Prop
  | .compare _ tail | .refresh _ tail => l.Rest cfg c ∧ tail = c.nextSlot cfg.cap
  | .copy tail n first out =>
      c.got = out ∧ n = out.length + c.want ∧ (cfg.aarch64 = true → l.tailLocal = l.tail) ∧
        tail = c.taken.length % cfg.cap ∧ first = min n (cfg.cap - tail)
  | .setLocal newTail _ => c.Idle ∧ newTail = l.tail

end Simulation

variable {cfg : RingConfig} {r : Ring α} {a : Spsc.State α}

/-- The free space computed from a stale tail is what the abstract cache leaves. -/
theorem ringFree_of_inv (h : Spsc.Inv cfg.cap a) :
    ringFree cfg.cap (a.producer.nextSlot cfg.cap) (a.producer.cachedReads % cfg.cap) =
      some (cfg.cap - 1 - (a.producer.log.length - a.producer.cachedReads)) := by
  have hpos := cfg.cap_pos
  have hreads := h.cachedReads_le
  have hclaimed := h.claimed_le
  have hwrites := h.cachedWrites_le
  have hreserved := h.reserved_le
  have hlen : a.producer.published.length ≤ a.producer.log.length := by
    simp [Spsc.ProducerSide.log]
  have hlt : a.producer.log.length - a.producer.cachedReads < cfg.cap := by omega
  have hfree := ringFree_eq a.producer.cachedReads hlt
  rwa [Nat.add_sub_cancel' (by omega)] at hfree

/-- The number of elements computed from a stale head is what the abstract cache knows
to be published. -/
theorem ringLen_of_inv (h : Spsc.Inv cfg.cap a) :
    ringLen cfg.cap (a.consumer.cachedWrites % cfg.cap) (a.consumer.nextSlot cfg.cap) =
      some (a.consumer.cachedWrites - (a.consumer.taken.length + a.consumer.got.length)) := by
  have hpos := cfg.cap_pos
  have hclaimed := h.claimed_le
  have hwrites := h.cachedWrites_le
  have hwaiting := h.waiting_le
  have hlt : a.consumer.cachedWrites - (a.consumer.taken.length + a.consumer.got.length) <
      cfg.cap := by omega
  have hlen := ringLen_eq (a.consumer.taken.length + a.consumer.got.length) hlt
  rwa [Nat.add_sub_cancel' (by omega)] at hlen

theorem nextSlot_of_idle {p : Spsc.ProducerSide α} (h : p.Idle) :
    p.nextSlot cfg.cap = p.published.length % cfg.cap := by
  rw [Spsc.ProducerSide.nextSlot, log_of_idle h]

theorem consumer_nextSlot_of_idle {c : Spsc.ConsumerSide α} (h : c.Idle) :
    c.nextSlot cfg.cap = c.taken.length % cfg.cap := by
  rw [Spsc.ConsumerSide.nextSlot, h.2]
  rfl

/-- Entering the copy loop reserves exactly the elements the batch will copy. -/
theorem Ring.Sim.beginPush (h : r.Sim cfg a) (hrest : r.producer.Rest cfg a.producer)
    (src : List α) {free : Nat}
    (hfree : free = cfg.cap - 1 - (a.producer.log.length - a.producer.cachedReads)) :
    ProducerMatched cfg (PushBatchPc.Sim cfg) (· ≠ none) r a
      (r, (Next.ofOption (PushBatchPc.begin cfg src (a.producer.nextSlot cfg.cap) free) :
        Next (PushBatchPc α) (Option Nat))) := by
  have hslot : a.producer.nextSlot cfg.cap < cfg.cap := Nat.mod_lt _ cfg.cap_pos
  have hreads := h.inv.cachedReads_le
  have hclaimed := h.inv.claimed_le
  have hwrites := h.inv.cachedWrites_le
  have hreserved := h.inv.reserved_le
  have hlen : a.producer.published.length ≤ a.producer.log.length := by
    simp [Spsc.ProducerSide.log]
  have htake : (src.take (min src.length free)).length = min src.length free := by simp
  have hroom : a.producer.log.length + (src.take (min src.length free)).length ≤
      a.producer.cachedReads + (cfg.cap - 1) := by
    rw [htake]
    omega
  simp only [PushBatchPc.begin]
  rw [firstChunk_eq hslot]
  refine ⟨_, h.producerMatch (.single (.reserve _ hrest.idle.1 hroom)) h.slots
    ⟨h.producer.head, h.producer.tailCached, h.producer.pushed⟩ rfl, rfl, hrest.idle.2,
    hrest.headLocal, nextSlot_of_idle hrest.idle, ?_, rfl⟩
  rw [List.length_nil, Nat.zero_add, htake]

theorem Ring.Sim.beginPop (h : r.Sim cfg a) (hrest : r.consumer.Rest cfg a.consumer)
    (dstLen : Nat) {avail : Nat}
    (havail : avail = a.consumer.cachedWrites -
      (a.consumer.taken.length + a.consumer.got.length)) :
    ConsumerMatched cfg (PopBatchPc.Sim cfg) (· ≠ none) r a
      (r, (Next.ofOption (PopBatchPc.begin cfg dstLen (a.consumer.nextSlot cfg.cap) avail) :
        Next (PopBatchPc α) (Option (List α)))) := by
  have hslot : a.consumer.nextSlot cfg.cap < cfg.cap := Nat.mod_lt _ cfg.cap_pos
  have hclaimed := h.inv.claimed_le
  have hclaim : a.consumer.taken.length + a.consumer.got.length + min dstLen avail ≤
      a.consumer.cachedWrites := by omega
  simp only [PopBatchPc.begin]
  rw [firstChunk_eq hslot]
  refine ⟨_, h.consumerMatch (.single (.claim _ hrest.idle.1 hclaim)) rfl
    ⟨h.consumer.tail, h.consumer.headCached, h.consumer.popped⟩ rfl, hrest.idle.2, ?_,
    hrest.tailLocal, consumer_nextSlot_of_idle hrest.idle, rfl⟩
  rw [List.length_nil, Nat.zero_add]

/-- The slot computed from the two chunks of a `push_batch` is the next position. -/
theorem Ring.Sim.chunkSlot_push (h : r.Sim cfg a) {head n first : Nat} {value : α}
    {rest : List α} {written : List (Nat × α)}
    (hpc : (PushBatchPc.copy head n first (value :: rest) written).Sim cfg r.producer a.producer) :
    chunkSlot head first written.length = a.producer.nextSlot cfg.cap := by
  obtain ⟨htodo, hwritten, -, rfl, hn, rfl⟩ := hpc
  have hreads := h.inv.cachedReads_le
  have hclaimed := h.inv.claimed_le
  have hwrites := h.inv.cachedWrites_le
  have hreserved := h.inv.reserved_le
  have hlog : a.producer.log.length = a.producer.published.length + written.length := by
    rw [Spsc.ProducerSide.log, hwritten, List.length_append]
  rw [htodo, hlog, List.length_cons] at hreserved
  rw [List.length_cons] at hn
  rw [chunkSlot_eq (by omega) (by omega), Spsc.ProducerSide.nextSlot, hlog]

theorem Ring.Sim.chunkSlot_pop (h : r.Sim cfg a) {tail n first : Nat} {out : List α}
    (hpc : (PopBatchPc.copy tail n first out).Sim cfg r.consumer a.consumer)
    (hlt : out.length < n) : chunkSlot tail first out.length = a.consumer.nextSlot cfg.cap := by
  obtain ⟨hgot, hn, -, rfl, rfl⟩ := hpc
  have hclaimed := h.inv.claimed_le
  have hwrites := h.inv.cachedWrites_le
  have hwaiting := h.inv.waiting_le
  have hpos := cfg.cap_pos
  rw [hgot] at hclaimed
  rw [chunkSlot_eq hlt (by omega), Spsc.ConsumerSide.nextSlot, hgot]

/-- **One step of a `push_batch`.** It never underflows. -/
theorem Ring.Sim.pushBatchStep (hmask : cfg.strategy = .pow2Masked) (h : r.Sim cfg a)
    {pc : PushBatchPc α} (hpc : pc.Sim cfg r.producer a.producer) :
    ProducerMatched cfg (PushBatchPc.Sim cfg) (· ≠ none) r a (r.pushBatchStep cfg pc) := by
  cases pc with
  | compare src head =>
      obtain ⟨hrest, rfl⟩ := hpc
      simp only [Ring.pushBatchStep, h.producer.tailCached, ringFree_of_inv h.inv]
      split
      · exact ⟨a, h.producerStutter, hrest, rfl⟩
      · exact h.beginPush hrest src rfl
  | refresh src head =>
      obtain ⟨hrest, rfl⟩ := hpc
      have hmatch := h.refreshTail
      have hrest' : ({ r.producer with tailCached := r.consumer.tail } : ProducerLine α).Rest cfg
          { a.producer with cachedReads := a.consumer.taken.length } :=
        ⟨hrest.idle, hrest.headLocal⟩
      have hfree : ringFree cfg.cap (a.producer.nextSlot cfg.cap) r.consumer.tail =
          some (cfg.cap - 1 - (a.producer.log.length - a.consumer.taken.length)) := by
        rw [h.consumer.tail]
        exact ringFree_of_inv hmatch.sim.inv
      refine .of_match hmatch ?_
      simp only [Ring.pushBatchStep, hfree]
      split
      · exact ⟨_, hmatch.sim.producerStutter, by simp, hrest'⟩
      · exact hmatch.sim.beginPush hrest' src rfl
  | copy head n first rest written =>
      have hslot : ∀ value rest', rest = value :: rest' →
          chunkSlot head first written.length = a.producer.nextSlot cfg.cap := by
        intro value rest' heq
        subst heq
        exact h.chunkSlot_push hpc
      obtain ⟨htodo, hwritten, hlocal, rfl, hn, rfl⟩ := hpc
      cases rest with
      | cons value rest =>
          simp only [Ring.pushBatchStep, hslot value rest rfl]
          refine ⟨_, h.producerMatch (.single (.write value rest htodo)) ?_
            ⟨h.producer.head, h.producer.tailCached, h.producer.pushed⟩ rfl, rfl, ?_, hlocal, rfl,
            ?_, rfl⟩
          · show Function.update r.slots _ value = Function.update a.mem _ value
            rw [h.slots]
          · show a.producer.written ++ [_] = _
            rw [hwritten]
          · rw [hn, List.length_append, List.length_singleton, List.length_cons]
            omega
      | nil =>
          have hlog : r.producer.pushed ++ written = a.producer.log := by
            rw [Spsc.ProducerSide.log, hwritten, h.producer.pushed]
          have hhead : cfg.strategy.wrap (a.producer.published.length % cfg.cap + n) cfg.cap =
              a.producer.log.length % cfg.cap := by
            rw [hmask, cfg.wrap_pow2Masked, Nat.mod_add_mod, hn, Spsc.ProducerSide.log, hwritten,
              List.length_append]
            rfl
          have hmatch := h.publishHead htodo hlog
          simp only [Ring.pushBatchStep, hhead]
          split
          · exact ⟨_, hmatch, ⟨htodo, rfl⟩, rfl⟩
          · next harch => exact ⟨_, hmatch, by simp, ⟨htodo, rfl⟩, fun h => absurd h harch⟩
  | setLocal newHead n =>
      obtain ⟨hidle, rfl⟩ := hpc
      exact ⟨a, h.producerMatch .refl h.slots
        ⟨h.producer.head, h.producer.tailCached, h.producer.pushed⟩ rfl, by simp, hidle,
        fun _ => rfl⟩

/-- **One step of a `pop_batch`.** It never underflows. -/
theorem Ring.Sim.popBatchStep (hmask : cfg.strategy = .pow2Masked) (h : r.Sim cfg a)
    {pc : PopBatchPc α} (hpc : pc.Sim cfg r.consumer a.consumer) :
    ConsumerMatched cfg (PopBatchPc.Sim cfg) (· ≠ none) r a (r.popBatchStep cfg pc) := by
  cases pc with
  | compare dstLen tail =>
      obtain ⟨hrest, rfl⟩ := hpc
      simp only [Ring.popBatchStep, h.consumer.headCached, ringLen_of_inv h.inv]
      split
      · exact ⟨a, h.consumerStutter, hrest, rfl⟩
      · exact h.beginPop hrest dstLen rfl
  | refresh dstLen tail =>
      obtain ⟨hrest, rfl⟩ := hpc
      have hmatch := h.refreshHead
      have hrest' : ({ r.consumer with headCached := r.producer.head } : ConsumerLine α).Rest cfg
          { a.consumer with cachedWrites := a.producer.published.length } :=
        ⟨hrest.idle, hrest.tailLocal⟩
      have havail : ringLen cfg.cap r.producer.head (a.consumer.nextSlot cfg.cap) =
          some (a.producer.published.length -
            (a.consumer.taken.length + a.consumer.got.length)) := by
        rw [h.producer.head]
        exact ringLen_of_inv hmatch.sim.inv
      refine .of_match hmatch ?_
      simp only [Ring.popBatchStep, havail]
      split
      · exact ⟨_, hmatch.sim.consumerStutter, by simp, hrest'⟩
      · exact hmatch.sim.beginPop hrest' dstLen rfl
  | copy tail n first out =>
      have hslot := fun hlt => h.chunkSlot_pop hpc hlt
      obtain ⟨hgot, hn, hlocal, rfl, rfl⟩ := hpc
      simp only [Ring.popBatchStep]
      split
      · next hlt =>
          obtain ⟨k, hk⟩ : ∃ k, a.consumer.want = k + 1 :=
            ⟨a.consumer.want - 1, by omega⟩
          rw [hslot hlt]
          refine ⟨_, h.consumerMatch (.single (.read k hk)) rfl
            ⟨h.consumer.tail, h.consumer.headCached, h.consumer.popped⟩ rfl, ?_, ?_, hlocal, rfl,
            rfl⟩
          · show a.consumer.got ++ [_] = _
            rw [hgot, h.slots]
          · show n = (out ++ [_]).length + k
            rw [List.length_append, List.length_singleton]
            omega
      · next hge =>
          have hwant : a.consumer.want = 0 := by omega
          have htail : cfg.strategy.wrap (a.consumer.taken.length % cfg.cap + n) cfg.cap =
              (a.consumer.taken.length + out.length) % cfg.cap := by
            rw [hmask, cfg.wrap_pow2Masked, Nat.mod_add_mod, hn, hwant]
            rfl
          have hmatch := h.releaseTail hwant hgot
          rw [htail]
          split
          · exact ⟨_, hmatch, ⟨hwant, rfl⟩, rfl⟩
          · next harch => exact ⟨_, hmatch, by simp, ⟨hwant, rfl⟩, fun h => absurd h harch⟩
  | setLocal newTail out =>
      obtain ⟨hidle, rfl⟩ := hpc
      exact ⟨a, h.consumerMatch .refl rfl
        ⟨h.consumer.tail, h.consumer.headCached, h.consumer.popped⟩ rfl, by simp, hidle,
        fun _ => rfl⟩

/-- The slot a batch is about to write is the next position of the abstract producer. -/
theorem Ring.Sim.batchWriting (h : r.Sim cfg a) {pc : PushBatchPc α}
    (hpc : pc.Sim cfg r.producer a.producer) {slot : Nat} (hslot : pc.slot? = some slot) :
    a.producer.todo ≠ [] ∧ slot = a.producer.nextSlot cfg.cap := by
  cases pc with
  | copy head n first rest written =>
      cases rest with
      | nil => cases hslot
      | cons value rest =>
          cases hslot
          refine ⟨by simp [hpc.1], h.chunkSlot_push hpc⟩
  | _ => cases hslot

theorem Ring.Sim.batchReading (h : r.Sim cfg a) {pc : PopBatchPc α}
    (hpc : pc.Sim cfg r.consumer a.consumer) {slot : Nat} (hslot : pc.slot? = some slot) :
    a.consumer.want ≠ 0 ∧ slot = a.consumer.nextSlot cfg.cap := by
  cases pc with
  | copy tail n first out =>
      simp only [PopBatchPc.slot?] at hslot
      split at hslot
      · next hlt =>
          cases hslot
          have hn := hpc.2.1
          exact ⟨by omega, h.chunkSlot_pop hpc hlt⟩
      · cases hslot
  | _ => cases hslot

end Mantis
