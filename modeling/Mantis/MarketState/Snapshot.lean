import Mantis.MarketState.Isolation
import Mantis.MarketState.PriceMap

/-!
# Mantis.MarketState.Snapshot

The snapshot state machine of `process`: a `BookDelta` with `IS_SNAPSHOT` clears the book
and opens a snapshot, a `BookDelta` with `LAST_IN_BATCH` closes it.

`SnapshotOpen` says the same of a sequence of events, without the engine. The flag
`in_snapshot` follows it in every run (`run_inSnapshot_iff`). The flag
`snapshot_received` does not: a `TopOfBook` event sets it inside an open snapshot, and
`quietWhileOpen_iff` shows that this is the only way to break the documented rule that
nothing is emitted there.
-/

namespace Mantis

open Runs

/-- A `BookDelta` event of instrument `i`. -/
def HotEvent.isDeltaFor (i : InstrumentId) (event : HotEvent) : Bool :=
  event.header.instrumentId == i &&
    match event.body with
    | .bookDelta _ => true
    | _ => false

/-- A `TopOfBook` event of instrument `i`. -/
def HotEvent.isTobFor (i : InstrumentId) (event : HotEvent) : Bool :=
  event.header.instrumentId == i &&
    match event.body with
    | .topOfBook _ => true
    | _ => false

/-- The event opens a snapshot. -/
def HotEvent.isSnapshot (event : HotEvent) : Bool := event.header.flags.contains .isSnapshot

/-- The event ends its batch. -/
def HotEvent.isLast (event : HotEvent) : Bool := event.header.flags.contains .lastInBatch

theorem HotEvent.isDeltaFor_iff {i : InstrumentId} {event : HotEvent} :
    event.isDeltaFor i = true ↔
      event.header.instrumentId = i ∧ ∃ delta, event.body = .bookDelta delta := by
  cases hbody : event.body <;> simp [isDeltaFor, hbody]

theorem HotEvent.isTobFor_iff {i : InstrumentId} {event : HotEvent} :
    event.isTobFor i = true ↔
      event.header.instrumentId = i ∧ ∃ tob, event.body = .topOfBook tob := by
  cases hbody : event.body <;> simp [isTobFor, hbody]

/-! ### The flags after one event -/

namespace InstrumentState

theorem endSnapshot_flags {B : Type} (st : InstrumentState B) :
    st.endSnapshot.inSnapshot = false ∧
      st.endSnapshot.snapshotReceived = (st.inSnapshot || st.snapshotReceived) ∧
      st.endSnapshot.book = st.book := by
  simp only [endSnapshot]
  split
  · next h => simp [h]
  · next h => simp [h]

variable {B : Type} [OrderBook B]

theorem applyBookDelta_flags (header : EventHeader) (delta : BookDeltaPayload)
    (st : InstrumentState B) :
    (st.applyBookDelta header delta).inSnapshot =
        (header.flags.contains .isSnapshot || st.inSnapshot) ∧
      (st.applyBookDelta header delta).snapshotReceived =
        (!header.flags.contains .isSnapshot && st.snapshotReceived) := by
  simp only [applyBookDelta, beginSnapshot]
  split
  · next h => simp [h]
  · next h => simp [h]

/-- **A delta and the flags.** The end of a batch completes an open snapshot; inside a
batch nothing is announced. -/
theorem onBookDelta_flags (header : EventHeader) (delta : BookDeltaPayload) (slot : Nat)
    (st : InstrumentState B) :
    (st.onBookDelta header delta slot).1.inSnapshot =
        (!header.flags.contains .lastInBatch &&
          (header.flags.contains .isSnapshot || st.inSnapshot)) ∧
      (st.onBookDelta header delta slot).1.snapshotReceived =
        (if header.flags.contains .lastInBatch then
          header.flags.contains .isSnapshot || st.inSnapshot || st.snapshotReceived
        else !header.flags.contains .isSnapshot && st.snapshotReceived) ∧
      (header.flags.contains .lastInBatch = false → (st.onBookDelta header delta slot).2 = none) := by
  obtain ⟨hin, hrecv⟩ := applyBookDelta_flags header delta st
  obtain ⟨hin', hrecv', -⟩ := endSnapshot_flags (st.applyBookDelta header delta)
  rw [hin, hrecv] at hrecv'
  simp only [onBookDelta]
  by_cases hlast : header.flags.contains .lastInBatch = true
  · rw [if_pos hlast]
    have hrecv'' : (st.applyBookDelta header delta).endSnapshot.snapshotReceived =
        (header.flags.contains .isSnapshot || st.inSnapshot || st.snapshotReceived) := by
      rw [hrecv']
      cases header.flags.contains .isSnapshot <;> rfl
    split
    · obtain ⟨-, hkeep, hkeep'⟩ :=
        checkBboPriceChange_keeps (st.applyBookDelta header delta).endSnapshot slot
      simp [hlast, hkeep, hkeep', hin', hrecv'']
    · simp [hlast, hin', hrecv'']
  · rw [if_neg hlast]
    simp [hlast, hin, hrecv]

/-- The levels after a delta do not depend on the end of the batch. -/
theorem onBookDelta_side {N : Nat} (header : EventHeader) (delta : BookDeltaPayload) (slot : Nat)
    (st : InstrumentState (ArrayBook N)) (s : Side) :
    (st.onBookDelta header delta slot).1.book.side s =
      (st.applyBookDelta header delta).book.side s := by
  have hend := (endSnapshot_flags (st.applyBookDelta header delta)).2.2
  simp only [onBookDelta]
  split
  · split
    · rw [(checkBboPriceChange_keeps _ slot).1, ArrayBook.checked_side, hend]
    · rw [hend]
  · rfl

theorem onTopOfBook_flags (header : EventHeader) (tob : TopOfBookPayload) (slot : Nat)
    (st : InstrumentState B) :
    (st.onTopOfBook header tob slot).1.inSnapshot = st.inSnapshot ∧
      (st.onTopOfBook header tob slot).1.snapshotReceived = true := by
  simp only [onTopOfBook]
  exact ⟨(checkBboPriceChange_keeps _ slot).2.2, (checkBboPriceChange_keeps _ slot).2.1⟩

end InstrumentState

/-- What an event does to instrument `i`. -/
def HotEvent.actOn {B : Type} [OrderBook B] (i : InstrumentId) (event : HotEvent)
    (st : InstrumentState B) : InstrumentState B × Option TopOfBook :=
  if event.header.instrumentId = i then event.effect st else (st, none)

section

variable {B : Type} [OrderBook B] {i : InstrumentId} {event : HotEvent}

theorem HotEvent.actOn_of_delta {delta : BookDeltaPayload} (hid : event.header.instrumentId = i)
    (hbody : event.body = .bookDelta delta) (st : InstrumentState B) :
    event.actOn i st = st.onBookDelta event.header delta (i.toNat - 1) := by
  simp only [actOn, effect, onInstrument]
  rw [if_pos hid, hbody, ← hid]

theorem HotEvent.actOn_flags_of_delta (h : event.isDeltaFor i = true) (st : InstrumentState B) :
    (event.actOn i st).1.inSnapshot = (!event.isLast && (event.isSnapshot || st.inSnapshot)) ∧
      (event.actOn i st).1.snapshotReceived =
        (if event.isLast then event.isSnapshot || st.inSnapshot || st.snapshotReceived
        else !event.isSnapshot && st.snapshotReceived) ∧
      (event.isLast = false → (event.actOn i st).2 = none) := by
  obtain ⟨hid, delta, hbody⟩ := isDeltaFor_iff.mp h
  rw [actOn_of_delta hid hbody]
  exact InstrumentState.onBookDelta_flags event.header delta _ st

theorem HotEvent.actOn_flags_of_tob (h : event.isTobFor i = true) (st : InstrumentState B) :
    (event.actOn i st).1.inSnapshot = st.inSnapshot ∧
      (event.actOn i st).1.snapshotReceived = true := by
  obtain ⟨hid, tob, hbody⟩ := isTobFor_iff.mp h
  simp only [actOn, effect, onInstrument]
  rw [if_pos hid, hbody]
  exact InstrumentState.onTopOfBook_flags event.header tob _ st

/-- Every other event leaves the book and the flags of the instrument alone and announces
nothing for it. -/
theorem HotEvent.actOn_of_other (hdelta : event.isDeltaFor i = false)
    (htob : event.isTobFor i = false) (st : InstrumentState B) :
    (event.actOn i st).1.book = st.book ∧ (event.actOn i st).1.inSnapshot = st.inSnapshot ∧
      (event.actOn i st).1.snapshotReceived = st.snapshotReceived ∧
      (event.actOn i st).2 = none := by
  simp only [actOn]
  split
  · next hid =>
      simp only [effect, onInstrument]
      cases hbody : event.body with
      | bookDelta delta => simp [isDeltaFor, hid, hbody] at hdelta
      | topOfBook tob => simp [isTobFor, hid, hbody] at htob
      | trade trade => exact ⟨rfl, rfl, rfl, rfl⟩
      | _ => exact ⟨rfl, rfl, rfl, rfl⟩
  · exact ⟨rfl, rfl, rfl, rfl⟩

end

/-- An event is a delta of the instrument, a top of book of it, or neither. -/
theorem HotEvent.kind_for (i : InstrumentId) (event : HotEvent) :
    event.isDeltaFor i = true ∨ (event.isDeltaFor i = false ∧ event.isTobFor i = true) ∨
      (event.isDeltaFor i = false ∧ event.isTobFor i = false) := by
  cases hdelta : event.isDeltaFor i with
  | true => exact Or.inl rfl
  | false =>
      cases htob : event.isTobFor i with
      | true => exact Or.inr (Or.inl ⟨rfl, rfl⟩)
      | false => exact Or.inr (Or.inr ⟨rfl, rfl⟩)

/-! ### Open snapshots -/

/-- Some snapshot delta of `i` has arrived, and no delta of `i` since then ended a
batch. -/
def SnapshotOpen (i : InstrumentId) (events : List HotEvent) : Prop :=
  ∃ pre event post, events = pre ++ event :: post ∧ event.isDeltaFor i = true ∧
    event.isSnapshot = true ∧
    ∀ later ∈ event :: post, later.isDeltaFor i = true → later.isLast = false

theorem snapshotOpen_nil (i : InstrumentId) : ¬ SnapshotOpen i [] := by
  rintro ⟨pre, event, post, h, -⟩
  simp at h

/-- **One more event.** A delta that ends a batch closes the snapshot, a snapshot delta
opens one, and all else leaves it as it was. -/
theorem snapshotOpen_concat (i : InstrumentId) (events : List HotEvent) (event : HotEvent) :
    SnapshotOpen i (events ++ [event]) ↔
      if event.isDeltaFor i = true then
        event.isLast = false ∧ (event.isSnapshot = true ∨ SnapshotOpen i events)
      else SnapshotOpen i events := by
  constructor
  · rintro ⟨pre, first, post, hsplit, hdelta, hsnapshot, hlater⟩
    rcases List.eq_nil_or_concat post with rfl | ⟨post, last, rfl⟩
    · obtain ⟨rfl, hevent⟩ := List.append_inj' hsplit rfl
      obtain rfl : event = first := by simpa using hevent
      rw [if_pos hdelta]
      exact ⟨hlater event (by simp) hdelta, Or.inl hsnapshot⟩
    · rw [List.concat_eq_append, ← List.cons_append, ← List.append_assoc] at hsplit
      obtain ⟨rfl, hevent⟩ := List.append_inj' hsplit rfl
      obtain rfl : event = last := by simpa using hevent
      have hopen : SnapshotOpen i (pre ++ first :: post) := by
        refine ⟨pre, first, post, rfl, hdelta, hsnapshot, ?_⟩
        intro later hmem
        refine hlater later ?_
        rw [List.concat_eq_append, ← List.cons_append]
        exact List.mem_append_left _ hmem
      split
      · next h => exact ⟨hlater event (by simp) h, Or.inr hopen⟩
      · exact hopen
  · intro h
    have hkeep : SnapshotOpen i events → (event.isDeltaFor i = true → event.isLast = false) →
        SnapshotOpen i (events ++ [event]) := by
      rintro ⟨pre, first, post, rfl, hdelta, hsnapshot, hlater⟩ hevent
      refine ⟨pre, first, post ++ [event], by simp, hdelta, hsnapshot, ?_⟩
      intro later hmem
      rw [← List.cons_append] at hmem
      rcases List.mem_append.mp hmem with hmem | hmem
      · exact hlater later hmem
      · rw [List.mem_singleton.mp hmem]
        exact hevent
    split at h
    · next hdelta =>
        obtain ⟨hlast, hsnapshot | hopen⟩ := h
        · refine ⟨events, event, [], rfl, hdelta, hsnapshot, ?_⟩
          intro later hmem _
          rw [List.mem_singleton.mp hmem]
          exact hlast
        · exact hkeep hopen fun _ => hlast
    · next hdelta => exact hkeep h fun hd => absurd hd hdelta

namespace MarketStateEngine

section

variable {B : Type} {MAX : Nat} {e : MarketStateEngine B MAX} {i : InstrumentId}

theorem isReady_eq_false_iff :
    e.isReady i = false ↔ ∀ st, e.state? i = some st → st.snapshotReceived = false := by
  simp only [isReady]
  cases e.state? i <;> simp

/-- A `TopOfBook` event of an active instrument comes only when no snapshot of it is
open. -/
def TobOutsideSnapshots (e : MarketStateEngine B MAX) (i : InstrumentId)
    (events : List HotEvent) : Prop :=
  ∀ pre event, pre ++ [event] <+: events → (e.slot? i).isSome → event.isTobFor i = true →
    ¬ SnapshotOpen i pre

theorem TobOutsideSnapshots.of_prefix {pre events : List HotEvent}
    (h : TobOutsideSnapshots e i events) (hpre : pre <+: events) : TobOutsideSnapshots e i pre :=
  fun pre' event hpre' => h pre' event (hpre'.trans hpre)

end

variable {B : Type} [OrderBook B] {MAX : Nat} {e : MarketStateEngine B MAX} {i : InstrumentId}

/-- The state of an instrument after one more event. -/
theorem run_process_snoc_state? {events : List HotEvent} {event : HotEvent}
    {st' : InstrumentState B} (h : (run process e (events ++ [event])).state? i = some st') :
    ∃ st, (run process e events).state? i = some st ∧ st' = (event.actOn i st).1 := by
  rw [run_append, run_cons, run_nil, process_state?] at h
  simp only [HotEvent.actOn]
  split at h
  · next hid =>
      obtain ⟨st, hst, rfl⟩ := Option.map_eq_some_iff.mp h
      exact ⟨st, hst, by rw [if_pos hid]⟩
  · next hid => exact ⟨st', h, by rw [if_neg hid]⟩

/-- A valid instrument has a state throughout. -/
theorem run_process_state?_isSome (h : (e.slot? i).isSome) (events : List HotEvent) :
    ∃ st, (run process e events).state? i = some st := by
  simp only [state?]
  rw [run_process_slot?, ← Option.isSome_iff_exists, Option.isSome_map]
  exact h

/-- What one more polled event emits for an instrument. -/
theorem Feed.run_snoc_emittedFor (h : e.tobChanged = false) (events : List HotEvent)
    (event : HotEvent) (i : InstrumentId) :
    (run Feed.step (.start e) (events ++ [event])).emittedFor i =
      (run Feed.step (.start e) events).emittedFor i ++
        (((run process e events).state? i).bind fun st => (event.actOn i st).2).toList := by
  have hpolled : (run Feed.step (.start e) events).engine.tobChanged = false := by
    rcases List.eq_nil_or_concat events with rfl | ⟨events, last, rfl⟩
    · exact h
    · rw [List.concat_eq_append, run_append]
      exact Feed.step_tobChanged _ last
  rw [run_append, run_cons, run_nil, Feed.step_emittedFor hpolled, Feed.run_state?]
  simp only [Feed.start, HotEvent.actOn]
  split
  · rfl
  · cases (run process e events).state? i <;> rfl

/-- Every instrument of a new engine is in its initial state. -/
theorem new_state? {activeCount : Nat} {staleTimeoutNs : UInt64} {h : activeCount ≤ MAX}
    {st : InstrumentState B}
    (hst : (new activeCount staleTimeoutNs h : MarketStateEngine B MAX).state? i = some st) :
    st = .default := by
  obtain ⟨slot, -, rfl⟩ := Option.map_eq_some_iff.mp hst
  exact Vector.getElem_replicate ..

/-- **The flag of an open snapshot.** In every run of a new engine, `in_snapshot` is set
exactly while a snapshot of the instrument is open. -/
theorem run_inSnapshot_iff {activeCount : Nat} {staleTimeoutNs : UInt64} {h : activeCount ≤ MAX}
    (events : List HotEvent) {st : InstrumentState B}
    (hst : (run process (new activeCount staleTimeoutNs h) events).state? i = some st) :
    st.inSnapshot = true ↔ SnapshotOpen i events := by
  induction events using List.reverseRecOn generalizing st with
  | nil =>
      rw [new_state? hst]
      exact iff_of_false Bool.false_ne_true (snapshotOpen_nil i)
  | append_singleton events event ih =>
      obtain ⟨st, hbefore, rfl⟩ := run_process_snoc_state? hst
      rw [snapshotOpen_concat, ← ih hbefore]
      rcases event.kind_for i with hdelta | ⟨hdelta, htob⟩ | ⟨hdelta, htob⟩
      · rw [(HotEvent.actOn_flags_of_delta hdelta st).1, if_pos hdelta]
        simp
      · rw [(HotEvent.actOn_flags_of_tob htob st).1]
        simp [hdelta]
      · rw [(HotEvent.actOn_of_other hdelta htob st).2.1]
        simp [hdelta]

/-- **The documented rule.** All along a run, an instrument never has both flags; while a
snapshot of it is open it is not ready, and an event that leaves the snapshot open emits
nothing for it. -/
structure QuietWhileOpen (e : MarketStateEngine B MAX) (i : InstrumentId)
    (events : List HotEvent) : Prop where
  not_both : ∀ pre, pre <+: events → ∀ st, (run process e pre).state? i = some st →
    ¬ (st.inSnapshot = true ∧ st.snapshotReceived = true)
  not_ready : ∀ pre, pre <+: events → SnapshotOpen i pre → (run process e pre).isReady i = false
  quiet : ∀ pre event, pre ++ [event] <+: events → SnapshotOpen i (pre ++ [event]) →
    (run Feed.step (.start e) (pre ++ [event])).emittedFor i =
      (run Feed.step (.start e) pre).emittedFor i

section

variable {activeCount : Nat} {staleTimeoutNs : UInt64} {h : activeCount ≤ MAX}

/-- Unless a `TopOfBook` event falls into an open snapshot, the two flags exclude each
other. -/
theorem not_both_of_tobOutside {events : List HotEvent}
    (htobs : TobOutsideSnapshots (new activeCount staleTimeoutNs h : MarketStateEngine B MAX) i
      events) {st : InstrumentState B}
    (hst : (run process (new activeCount staleTimeoutNs h) events).state? i = some st) :
    ¬ (st.inSnapshot = true ∧ st.snapshotReceived = true) := by
  induction events using List.reverseRecOn generalizing st with
  | nil =>
      rw [new_state? hst]
      exact fun h => Bool.false_ne_true h.1
  | append_singleton events event ih =>
      have hvalid : (slot? (new activeCount staleTimeoutNs h : MarketStateEngine B MAX) i).isSome := by
        obtain ⟨slot, hslot, -⟩ := Option.map_eq_some_iff.mp hst
        rw [run_process_slot?] at hslot
        exact Option.isSome_of_eq_some hslot
      obtain ⟨st, hbefore, rfl⟩ := run_process_snoc_state? hst
      have ih := ih (htobs.of_prefix (List.prefix_append ..)) hbefore
      rcases event.kind_for i with hdelta | ⟨hdelta, htob⟩ | ⟨hdelta, htob⟩
      · obtain ⟨hin, hrecv, -⟩ := HotEvent.actOn_flags_of_delta hdelta st
        rw [hin, hrecv]
        cases event.isLast <;> cases event.isSnapshot <;> simp_all
      · have hclosed := htobs events event List.prefix_rfl hvalid htob
        rw [← run_inSnapshot_iff events hbefore] at hclosed
        rw [(HotEvent.actOn_flags_of_tob htob st).1]
        exact fun h => hclosed h.1
      · obtain ⟨-, hin, hrecv, -⟩ := HotEvent.actOn_of_other hdelta htob st
        rw [hin, hrecv]
        exact ih

/-- An event that leaves a snapshot open announces nothing, unless it is a `TopOfBook`
event. -/
theorem actOn_quiet_of_open {events : List HotEvent} {event : HotEvent}
    (hopen : SnapshotOpen i (events ++ [event])) (htob : event.isTobFor i = false)
    (st : InstrumentState B) : (event.actOn i st).2 = none := by
  rcases event.kind_for i with hdelta | ⟨-, htob'⟩ | ⟨hdelta, htob⟩
  · rw [snapshotOpen_concat, if_pos hdelta] at hopen
    exact (HotEvent.actOn_flags_of_delta hdelta st).2.2 hopen.1
  · rw [htob] at htob'
    cases htob'
  · exact (HotEvent.actOn_of_other hdelta htob st).2.2.2

end

/-- **No output while a snapshot is open, exactly.** A run of a new engine keeps the
documented rule for an instrument if and only if no `TopOfBook` event of the (active)
instrument falls into an open snapshot of it. -/
theorem quietWhileOpen_iff (activeCount : Nat) (staleTimeoutNs : UInt64) (h : activeCount ≤ MAX)
    (i : InstrumentId) (events : List HotEvent) :
    QuietWhileOpen (new activeCount staleTimeoutNs h : MarketStateEngine B MAX) i events ↔
      TobOutsideSnapshots (new activeCount staleTimeoutNs h : MarketStateEngine B MAX) i
        events := by
  constructor
  · intro hquiet pre event hpre hvalid htob hopen
    -- the event sets `snapshot_received` and leaves `in_snapshot` set
    obtain ⟨st', hst'⟩ := run_process_state?_isSome hvalid (pre ++ [event])
    obtain ⟨st, hst, rfl⟩ := run_process_snoc_state? hst'
    obtain ⟨hin, hrecv⟩ := HotEvent.actOn_flags_of_tob htob st
    refine hquiet.not_both _ hpre _ hst' ⟨?_, hrecv⟩
    rw [hin, run_inSnapshot_iff pre hst]
    exact hopen
  · intro htobs
    refine ⟨?_, ?_, ?_⟩
    · intro pre hpre st hst
      exact not_both_of_tobOutside (htobs.of_prefix hpre) hst
    · intro pre hpre hopen
      refine isReady_eq_false_iff.mpr ?_
      intro st hst
      have hin := (run_inSnapshot_iff pre hst).mpr hopen
      have hboth := not_both_of_tobOutside (htobs.of_prefix hpre) hst
      simpa [hin] using hboth
    · intro pre event hpre hopen
      rw [Feed.run_snoc_emittedFor rfl]
      suffices hnone : (((run process (new activeCount staleTimeoutNs h) pre).state? i).bind
          fun st : InstrumentState B => (event.actOn i st).2) = none by
        rw [hnone]
        exact List.append_nil _
      refine Option.bind_eq_none_iff.mpr ?_
      intro st hst
      have htob : event.isTobFor i = false := by
        by_contra hne
        have htob : event.isTobFor i = true := by simpa using hne
        obtain ⟨slot, hslot, -⟩ := Option.map_eq_some_iff.mp hst
        rw [run_process_slot?] at hslot
        refine htobs pre event hpre (Option.isSome_of_eq_some hslot) htob ?_
        have hdelta : ¬ event.isDeltaFor i = true := by
          obtain ⟨-, tob, hbody⟩ := HotEvent.isTobFor_iff.mp htob
          simp [HotEvent.isDeltaFor, hbody]
        rwa [snapshotOpen_concat, if_neg hdelta] at hopen
      exact actOn_quiet_of_open hopen htob st

/-- A two-delta snapshot of instrument 1, with a trade in between. -/
theorem quietWhileOpen_two_deltas :
    QuietWhileOpen (new 1 0 (by decide) : MarketStateEngine (ArrayBook 4) 1) 1
      [sampleDelta 1 1 .bid .isSnapshot, .trade 1000 2 1 1 .empty ⟨1, 5, .bid⟩,
        sampleDelta 1 2 .ask .lastInBatch] := by
  refine (quietWhileOpen_iff 1 0 (by decide) 1 _).mpr ?_
  intro pre event hpre _ htob
  have hnone : ∀ event ∈ [sampleDelta 1 1 .bid .isSnapshot,
      .trade 1000 2 1 1 .empty ⟨1, 5, .bid⟩, sampleDelta 1 2 .ask .lastInBatch],
      event.isTobFor 1 = false := by decide
  rw [hnone event (hpre.subset (by simp))] at htob
  cases htob

/-- A quote of instrument 1. -/
def sampleQuote (bidPrice askPrice : Ticks) : HotEvent :=
  .topOfBook 1000 2 1 1 .empty ⟨bidPrice, 10, askPrice, 10⟩

/-- A quote inside a snapshot: the instrument is ready, with both flags set, and a top of
book is emitted for it. -/
theorem quote_inside_snapshot :
    SnapshotOpen 1 [sampleDelta 1 1 .bid .isSnapshot, sampleQuote 1 2] ∧
    (run process (new 1 0 (by decide) : MarketStateEngine (ArrayBook 4) 1)
        [sampleDelta 1 1 .bid .isSnapshot, sampleQuote 1 2]).isReady 1 = true ∧
    (run Feed.step (.start (new 1 0 (by decide) : MarketStateEngine (ArrayBook 4) 1))
        [sampleDelta 1 1 .bid .isSnapshot, sampleQuote 1 2]).emittedFor 1 =
      [⟨1, 10, 2, 10, 1, 1, 1, 1000⟩] ∧
    ¬ QuietWhileOpen (new 1 0 (by decide) : MarketStateEngine (ArrayBook 4) 1) 1
        [sampleDelta 1 1 .bid .isSnapshot, sampleQuote 1 2] := by
  have hopen : SnapshotOpen 1 [sampleDelta 1 1 .bid .isSnapshot, sampleQuote 1 2] :=
    ⟨[], sampleDelta 1 1 .bid .isSnapshot, [sampleQuote 1 2], rfl, by decide, by decide, by decide⟩
  have hready : (run process (new 1 0 (by decide) : MarketStateEngine (ArrayBook 4) 1)
      [sampleDelta 1 1 .bid .isSnapshot, sampleQuote 1 2]).isReady 1 = true := by decide
  refine ⟨hopen, hready, by decide, ?_⟩
  intro hquiet
  rw [hquiet.not_ready _ List.prefix_rfl hopen] at hready
  cases hready

end MarketStateEngine

end Mantis
