import Mathlib.Data.Nat.ModEq
import Mathlib.Logic.Function.Basic
import Mathlib.Logic.Relation

/-!
# Single-producer single-consumer rings

The abstract protocol behind a lock-free ring of `cap` slots, over **absolute**
positions: the `k`-th value ever written lives in slot `k % cap`, and neither side
ever wraps a counter.

The producer reserves room for some values against its cached count of reads,
writes them one slot at a time and then publishes them together; the consumer
claims values against its cached count of writes, reads them one slot at a time and
then releases their slots together. A cached count is only ever older than the true
one. `Inv` relates the two sides, the caches and the memory; every step of either
side keeps it, in any interleaving. An implementation gets its safety by mapping
each of its own steps to steps of this protocol.
-/

namespace Spsc

variable {α : Type*} {cap : Nat}

/-- Log entries are pairs of the slot written and the value. -/
structure ProducerSide (α : Type*) where
  /-- Everything published so far, oldest first. -/
  published : List (Nat × α)
  /-- Written in the current reservation, not yet published. -/
  written : List (Nat × α)
  /-- Reserved, still to be written. -/
  todo : List α
  /-- Last known number of released values. -/
  cachedReads : Nat

structure ConsumerSide (α : Type*) where
  /-- Everything taken and released so far, oldest first. -/
  taken : List α
  /-- Read in the current claim, slots not yet released. -/
  got : List α
  /-- Claimed, still to be read. -/
  want : Nat
  /-- Last known number of published values. -/
  cachedWrites : Nat

structure State (α : Type*) where
  mem : Nat → α
  producer : ProducerSide α
  consumer : ConsumerSide α

/-- All writes so far, published or not. -/
def ProducerSide.log (p : ProducerSide α) : List (Nat × α) := p.published ++ p.written

/-- The slot of the next write. -/
def ProducerSide.nextSlot (cap : Nat) (p : ProducerSide α) : Nat := p.log.length % cap

/-- The slot of the next read. -/
def ConsumerSide.nextSlot (cap : Nat) (c : ConsumerSide α) : Nat :=
  (c.taken.length + c.got.length) % cap

/-- Nothing reserved and nothing waiting for publication. -/
def ProducerSide.Idle (p : ProducerSide α) : Prop := p.todo = [] ∧ p.written = []

/-- Nothing claimed and nothing waiting for release. -/
def ConsumerSide.Idle (c : ConsumerSide α) : Prop := c.want = 0 ∧ c.got = []

/-- Empty logs over arbitrary memory. -/
def init (mem : Nat → α) : State α := ⟨mem, ⟨[], [], [], 0⟩, ⟨[], [], 0, 0⟩⟩

/-! ### Steps -/

inductive ProducerStep (cap : Nat) (s : State α) : State α → Prop
  | refresh : ProducerStep cap s
      { s with producer := { s.producer with cachedReads := s.consumer.taken.length } }
  | reserve (vs : List α) (htodo : s.producer.todo = [])
      (hroom : s.producer.log.length + vs.length ≤ s.producer.cachedReads + (cap - 1)) :
      ProducerStep cap s { s with producer := { s.producer with todo := vs } }
  | write (v : α) (rest : List α) (htodo : s.producer.todo = v :: rest) :
      ProducerStep cap s
        { s with
          mem := Function.update s.mem (s.producer.nextSlot cap) v
          producer :=
            { s.producer with
              written := s.producer.written ++ [(s.producer.nextSlot cap, v)]
              todo := rest } }
  | publish (htodo : s.producer.todo = []) : ProducerStep cap s
      { s with producer := { s.producer with published := s.producer.log, written := [] } }

inductive ConsumerStep (cap : Nat) (s : State α) : State α → Prop
  | refresh : ConsumerStep cap s
      { s with consumer := { s.consumer with cachedWrites := s.producer.published.length } }
  | claim (n : Nat) (hwant : s.consumer.want = 0)
      (havail : s.consumer.taken.length + s.consumer.got.length + n ≤ s.consumer.cachedWrites) :
      ConsumerStep cap s { s with consumer := { s.consumer with want := n } }
  | read (n : Nat) (hwant : s.consumer.want = n + 1) :
      ConsumerStep cap s
        { s with
          consumer :=
            { s.consumer with
              got := s.consumer.got ++ [s.mem (s.consumer.nextSlot cap)]
              want := n } }
  | release (hwant : s.consumer.want = 0) : ConsumerStep cap s
      { s with
        consumer := { s.consumer with taken := s.consumer.taken ++ s.consumer.got, got := [] } }

/-! ### The invariant -/

structure Inv (cap : Nat) (s : State α) : Prop where
  cachedReads_le : s.producer.cachedReads ≤ s.consumer.taken.length
  claimed_le : s.consumer.taken.length + s.consumer.got.length + s.consumer.want ≤
    s.consumer.cachedWrites
  cachedWrites_le : s.consumer.cachedWrites ≤ s.producer.published.length
  reserved_le : s.producer.log.length + s.producer.todo.length ≤
    s.producer.cachedReads + (cap - 1)
  /-- The `k`-th write went to slot `k % cap`. -/
  slot : ∀ k e, s.producer.log[k]? = some e → e.1 = k % cap
  /-- A value not yet released is still in its slot. -/
  stored : ∀ k e, s.producer.log[k]? = some e → s.consumer.taken.length ≤ k → s.mem e.1 = e.2
  fifo : s.consumer.taken ++ s.consumer.got <+: s.producer.published.map Prod.snd

theorem inv_init (mem : Nat → α) : Inv cap (init mem) where
  cachedReads_le := le_refl _
  claimed_le := le_refl _
  cachedWrites_le := le_refl _
  reserved_le := Nat.zero_le _
  slot := by simp [init, ProducerSide.log]
  stored := by simp [init, ProducerSide.log]
  fifo := List.nil_prefix

/-- Two positions less than a round apart are in different slots. -/
theorem slot_ne {k n : Nat} (hlt : k < n) (hround : n < k + cap) : k % cap ≠ n % cap := by
  intro heq
  have hdvd : cap ∣ n - k := (Nat.modEq_iff_dvd' (le_of_lt hlt)).mp heq
  have hle := Nat.le_of_dvd (by omega) hdvd
  omega

theorem log_write (p : ProducerSide α) (e : Nat × α) (rest : List α) :
    ({ p with written := p.written ++ [e], todo := rest } : ProducerSide α).log = p.log ++ [e] := by
  simp [ProducerSide.log]

/-- An entry of a log extended by one is an old entry or the new one. -/
theorem getElem?_log_append {l : List (Nat × α)} {e e' : Nat × α} {k : Nat}
    (h : (l ++ [e])[k]? = some e') : l[k]? = some e' ∨ (k = l.length ∧ e' = e) := by
  rw [List.getElem?_append] at h
  split at h
  · exact Or.inl h
  · next hk =>
      obtain ⟨hidx, rfl⟩ := List.getElem?_eq_some_iff.mp h
      simp only [List.length_singleton] at hidx
      exact Or.inr ⟨by omega, by simp⟩

/-- **Producer step.** -/
theorem Inv.producerStep {s s' : State α} (h : Inv cap s) (hs : ProducerStep cap s s') :
    Inv cap s' := by
  have hclaimed := h.claimed_le
  have hwrites := h.cachedWrites_le
  have hreads := h.cachedReads_le
  have hreserved := h.reserved_le
  cases hs with
  | refresh =>
      exact { h with
        cachedReads_le := le_refl _
        reserved_le := le_trans hreserved (Nat.add_le_add_right hreads _) }
  | reserve vs htodo hroom => exact { h with reserved_le := hroom }
  | write v rest htodo =>
      rw [htodo, List.length_cons] at hreserved
      have hlen : s.producer.published.length ≤ s.producer.log.length := by
        simp [ProducerSide.log]
      refine ⟨hreads, hclaimed, hwrites, ?_, ?_, ?_, h.fifo⟩
      · rw [log_write, List.length_append, List.length_singleton]
        show s.producer.log.length + 1 + rest.length ≤ s.producer.cachedReads + (cap - 1)
        omega
      · intro k e hk
        rw [log_write] at hk
        rcases getElem?_log_append hk with hold | ⟨rfl, rfl⟩
        · exact h.slot k e hold
        · rfl
      · intro k e hk hunread
        rw [log_write] at hk
        rcases getElem?_log_append hk with hold | ⟨rfl, rfl⟩
        · -- the new slot is less than a round ahead of every value not yet released
          have hlt : k < s.producer.log.length := (List.getElem?_eq_some_iff.mp hold).1
          have hunread' : s.consumer.taken.length ≤ k := hunread
          have hne : e.1 ≠ s.producer.nextSlot cap := by
            rw [h.slot k e hold]
            exact slot_ne hlt (by omega)
          show Function.update s.mem _ v e.1 = e.2
          rw [Function.update_of_ne hne]
          exact h.stored k e hold hunread'
        · exact Function.update_self ..
  | publish htodo =>
      have hlog : ({ s.producer with published := s.producer.log, written := [] } :
          ProducerSide α).log = s.producer.log := by simp [ProducerSide.log]
      refine ⟨hreads, hclaimed, le_trans hwrites ?_, ?_, ?_, ?_, h.fifo.trans ?_⟩
      · simp [ProducerSide.log]
      · rw [hlog]
        exact hreserved
      · rw [hlog]
        exact h.slot
      · rw [hlog]
        exact h.stored
      · exact (List.prefix_append _ _).map Prod.snd

/-- A claimed value is published, in its slot, and still there. -/
theorem Inv.read_published {s : State α} (h : Inv cap s) (hwant : s.consumer.want ≠ 0) :
    ∃ v, s.producer.published[s.consumer.taken.length + s.consumer.got.length]? =
        some (s.consumer.nextSlot cap, v) ∧ s.mem (s.consumer.nextSlot cap) = v := by
  have hlt : s.consumer.taken.length + s.consumer.got.length < s.producer.published.length := by
    have hclaimed := h.claimed_le
    have hwrites := h.cachedWrites_le
    omega
  obtain ⟨e, he⟩ : ∃ e,
      s.producer.published[s.consumer.taken.length + s.consumer.got.length]? = some e :=
    ⟨_, List.getElem?_eq_getElem hlt⟩
  have hlog : s.producer.log[s.consumer.taken.length + s.consumer.got.length]? = some e := by
    rw [ProducerSide.log, List.getElem?_append_left hlt]
    exact he
  have hslot : e.1 = s.consumer.nextSlot cap := h.slot _ e hlog
  refine ⟨e.2, ?_, ?_⟩
  · rw [he, ← hslot]
  · rw [← hslot]
    exact h.stored _ e hlog (by omega)

/-- **Consumer step.** -/
theorem Inv.consumerStep {s s' : State α} (h : Inv cap s) (hs : ConsumerStep cap s s') :
    Inv cap s' := by
  have hclaimed := h.claimed_le
  have hwrites := h.cachedWrites_le
  cases hs with
  | refresh =>
      exact { h with
        claimed_le := le_trans hclaimed hwrites
        cachedWrites_le := le_refl _ }
  | claim n hwant havail => exact { h with claimed_le := havail }
  | read n hwant =>
      obtain ⟨v, hv, hmem⟩ := h.read_published (by omega)
      refine { h with claimed_le := ?_, fifo := ?_ }
      · show s.consumer.taken.length + (s.consumer.got ++ [_]).length + n ≤ s.consumer.cachedWrites
        rw [List.length_append, List.length_singleton]
        omega
      · -- the value read is the next one of the published sequence
        obtain ⟨rest, hrest⟩ := h.fifo
        show s.consumer.taken ++ (s.consumer.got ++ [s.mem (s.consumer.nextSlot cap)]) <+: _
        rw [hmem, ← List.append_assoc, ← hrest]
        refine (List.prefix_append_right_inj _).mpr ?_
        have hget := congrArg (·[s.consumer.taken.length + s.consumer.got.length]?) hrest
        simp only [List.getElem?_map, hv, Option.map_some] at hget
        rw [← List.length_append, List.getElem?_append_right (le_refl _), Nat.sub_self] at hget
        cases rest with
        | nil => simp at hget
        | cons x xs =>
            simp only [List.getElem?_cons_zero, Option.some.injEq] at hget
            exact ⟨xs, by rw [hget]; rfl⟩
  | release hwant =>
      refine { h with cachedReads_le := ?_, claimed_le := ?_, stored := ?_, fifo := ?_ }
      · exact le_trans h.cachedReads_le (by simp)
      · show (s.consumer.taken ++ s.consumer.got).length + 0 + s.consumer.want ≤
          s.consumer.cachedWrites
        rw [List.length_append]
        omega
      · intro k e hk hunread
        refine h.stored k e hk (le_trans ?_ hunread)
        simp
      · show (_ ++ _) ++ [] <+: _
        rw [List.append_nil]
        exact h.fifo

/-- The producer leaves the consumer's side alone. -/
theorem producerSteps_consumer {s s' : State α}
    (hs : Relation.ReflTransGen (ProducerStep cap) s s') : s'.consumer = s.consumer := by
  induction hs with
  | refl => rfl
  | tail _ hstep ih => cases hstep <;> exact ih

/-- The consumer leaves the memory and the producer's side alone. -/
theorem consumerSteps_producer {s s' : State α}
    (hs : Relation.ReflTransGen (ConsumerStep cap) s s') :
    s'.mem = s.mem ∧ s'.producer = s.producer := by
  induction hs with
  | refl => exact ⟨rfl, rfl⟩
  | tail _ hstep ih => cases hstep <;> exact ih

theorem Inv.producerSteps {s s' : State α} (h : Inv cap s)
    (hs : Relation.ReflTransGen (ProducerStep cap) s s') : Inv cap s' := by
  induction hs with
  | refl => exact h
  | tail _ hstep ih => exact ih.producerStep hstep

theorem Inv.consumerSteps {s s' : State α} (h : Inv cap s)
    (hs : Relation.ReflTransGen (ConsumerStep cap) s s') : Inv cap s' := by
  induction hs with
  | refl => exact h
  | tail _ hstep ih => exact ih.consumerStep hstep

/-! ### What the invariant guarantees -/

/-- Nothing is lost, duplicated or reordered. -/
theorem Inv.taken_prefix {s : State α} (h : Inv cap s) :
    s.consumer.taken <+: s.producer.published.map Prod.snd :=
  (List.prefix_append _ _).trans h.fifo

/-- At most `cap - 1` published values are waiting. -/
theorem Inv.waiting_le {s : State α} (h : Inv cap s) :
    s.producer.published.length ≤ s.consumer.taken.length + (cap - 1) := by
  have hreserved := h.reserved_le
  have hreads := h.cachedReads_le
  have hlen : s.producer.published.length ≤ s.producer.log.length := by simp [ProducerSide.log]
  omega

/-- **Exclusive writes.** The slot about to be written holds no value that is published
and not yet released. -/
theorem Inv.write_exclusive {s : State α} (h : Inv cap s) (htodo : s.producer.todo ≠ [])
    {e : Nat × α} (he : e ∈ s.producer.published.drop s.consumer.taken.length) :
    e.1 ≠ s.producer.nextSlot cap := by
  obtain ⟨i, hi⟩ := List.mem_iff_getElem?.mp he
  rw [List.getElem?_drop] at hi
  obtain ⟨hlt, -⟩ := List.getElem?_eq_some_iff.mp hi
  have hlog : s.producer.log[s.consumer.taken.length + i]? = some e := by
    rw [ProducerSide.log, List.getElem?_append_left hlt]
    exact hi
  have hlen : s.producer.published.length ≤ s.producer.log.length := by simp [ProducerSide.log]
  have hpos : 0 < s.producer.todo.length := List.length_pos_iff.mpr htodo
  have hreserved := h.reserved_le
  have hreads := h.cachedReads_le
  rw [h.slot _ e hlog]
  exact slot_ne (by omega) (by omega)

/-- **Published reads.** The slot about to be read is that of a value published and not
yet released, and still holds it. -/
theorem Inv.read_waiting {s : State α} (h : Inv cap s) (hwant : s.consumer.want ≠ 0) :
    (s.consumer.nextSlot cap, s.mem (s.consumer.nextSlot cap)) ∈
      s.producer.published.drop s.consumer.taken.length := by
  obtain ⟨v, hv, hmem⟩ := h.read_published hwant
  rw [hmem]
  refine List.mem_iff_getElem?.mpr ⟨s.consumer.got.length, ?_⟩
  rw [List.getElem?_drop]
  exact hv

/-- Both sides work on different slots. -/
theorem Inv.write_ne_read {s : State α} (h : Inv cap s) (htodo : s.producer.todo ≠ [])
    (hwant : s.consumer.want ≠ 0) : s.consumer.nextSlot cap ≠ s.producer.nextSlot cap :=
  h.write_exclusive htodo (h.read_waiting hwant)

/-! ### The slots of the waiting values -/

/-- The `n` slots from position `start` on, with what the memory holds there. -/
def arc (cap : Nat) (mem : Nat → α) (start n : Nat) : List (Nat × α) :=
  (List.range n).map fun i => ((start + i) % cap, mem ((start + i) % cap))

@[simp] theorem arc_zero (mem : Nat → α) (start : Nat) : arc cap mem start 0 = [] := rfl

theorem arc_succ (mem : Nat → α) (start n : Nat) :
    arc cap mem start (n + 1) =
      (start % cap, mem (start % cap)) :: arc cap mem (start + 1) n := by
  simp only [arc, List.range_succ_eq_map, List.map_cons, List.map_map, Nat.add_zero]
  congr 1
  apply List.map_congr_left
  intro i _
  simp only [Function.comp_apply, Nat.succ_eq_add_one, Nat.add_assoc, Nat.add_comm 1 i]

/-- Only the slot of the start matters. -/
theorem arc_mod (mem : Nat → α) (start n : Nat) :
    arc cap mem (start % cap) n = arc cap mem start n := by
  simp only [arc, Nat.mod_add_mod]

/-- At most a round of slots has none twice. -/
theorem arc_nodup (mem : Nat → α) {start n : Nat} (hn : n ≤ cap) :
    ((arc cap mem start n).map Prod.fst).Nodup := by
  rw [List.Nodup, arc, List.map_map, List.pairwise_map]
  refine List.pairwise_lt_range.imp_of_mem ?_
  intro i j hi hj hlt
  rw [List.mem_range] at hi hj
  exact slot_ne (Nat.add_lt_add_left hlt start) (by omega)

/-- The published values not yet released are the arc of slots from the next release. -/
theorem Inv.waiting_eq_arc {s : State α} (h : Inv cap s) :
    s.producer.published.drop s.consumer.taken.length =
      arc cap s.mem s.consumer.taken.length
        (s.producer.published.length - s.consumer.taken.length) := by
  apply List.ext_getElem
  · simp [arc]
  · intro i hi hi'
    rw [List.length_drop] at hi
    have hentry : s.producer.log[s.consumer.taken.length + i]? =
        some (s.producer.published.drop s.consumer.taken.length)[i] := by
      rw [ProducerSide.log, List.getElem?_append_left (by omega), ← List.getElem?_drop,
        List.getElem?_eq_getElem]
    have hslot := h.slot _ _ hentry
    have hstored := h.stored _ _ hentry (Nat.le_add_right _ _)
    rw [hslot] at hstored
    simp only [arc, List.getElem_map, List.getElem_range]
    exact Prod.ext hslot hstored.symm

end Spsc
