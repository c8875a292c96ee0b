import Mantis.MarketState.Snapshot

/-!
# Mantis.MarketState.Resync

Resynchronisation: a complete snapshot batch determines the book of its instrument,
whatever the engine held before.

`bookOf` is the empty book with the deltas of a batch applied; as maps it holds the last
write to each price (`bookOf_quotes`). `run_batch` is the invariant of a batch in
progress, for every prefix of the events: the levels are those of `bookOf` for the deltas
seen so far, and the flags tell whether all of them have been seen.
-/

namespace Mantis

open Runs

variable {N MAX : Nat}

/-! ### The views of a book -/

/-- Two books that no reader can tell apart: same levels, best prices and depth views. -/
structure ArrayBook.SameViews (b b' : ArrayBook N) : Prop where
  levels : ∀ s, b.side s = b'.side s
  bestBid : b.bestBid.2 = b'.bestBid.2
  bestAsk : b.bestAsk.2 = b'.bestAsk.2
  depth : ∀ s buf, b.depth s buf = b'.depth s buf
  levelCount : ∀ s, b.levelCount s = b'.levelCount s
  totalDepth : ∀ s levels, b.totalDepth s levels = b'.totalDepth s levels

/-- Every view reads the levels alone. -/
theorem ArrayBook.sameViews_of_levels {b b' : ArrayBook N} (h : ∀ s, b.side s = b'.side s) :
    b.SameViews b' := by
  have hbids : b.bids = b'.bids := h .bid
  have hasks : b.asks = b'.asks := h .ask
  refine ⟨h, ?_, ?_, ?_, ?_, ?_⟩
  · show OrderBook.bid b = OrderBook.bid b'
    rw [bid_eq, bid_eq, hbids]
  · show OrderBook.ask b = OrderBook.ask b'
    rw [ask_eq, ask_eq, hasks]
  · intro s buf
    cases s <;> simp only [depth, hbids, hasks]
  · intro s
    cases s <;> simp only [levelCount, hbids, hasks]
  · intro s levels
    cases s <;> simp only [totalDepth, hbids, hasks]

theorem ArrayBook.applyDelta_side_congr {b b' : ArrayBook N} (h : ∀ s, b.side s = b'.side s)
    (price : Ticks) (qty : Lots) (side : Side) (action : UpdateAction) (s : Side) :
    (b.applyDelta price qty side action).side s = (b'.applyDelta price qty side action).side s := by
  cases hidx : index? N price with
  | none =>
      simp only [applyDelta]
      rw [hidx]
      exact h s
  | some idx => rw [applyDelta_side hidx, applyDelta_side hidx, h s]

/-! ### The book of a batch -/

/-- Apply the delta of an event. -/
def applyEvent (b : ArrayBook N) (event : HotEvent) : ArrayBook N :=
  match event.body with
  | .bookDelta delta => b.applyDelta delta.price delta.qty delta.side delta.action
  | _ => b

/-- The empty book with the deltas of a batch applied in order. -/
def bookOf (N : Nat) (batch : List HotEvent) : ArrayBook N := run applyEvent .default batch

/-- The quantity an event writes to a price. -/
def HotEvent.writes? (event : HotEvent) (s : Side) (p : Ticks) : Option Lots :=
  match event.body with
  | .bookDelta delta => if delta.side = s ∧ delta.price = p then some delta.qty else none
  | _ => none

/-- The last quantity a batch writes to a price, zero if it writes none. -/
def lastWrite (batch : List HotEvent) (s : Side) (p : Ticks) : Lots :=
  (batch.reverse.findSome? fun event => event.writes? s p).getD 0

/-- **Last write wins.** -/
theorem bookOf_quotes (batch : List HotEvent) (s : Side) (p : Ticks) :
    (bookOf N batch).quotes s p = if InRange N p then lastWrite batch s p else 0 := by
  induction batch using List.reverseRecOn with
  | nil =>
      show ArrayBook.default.quotes s p = _
      rw [ArrayBook.quotes_default]
      simp [PriceMaps.empty, lastWrite]
  | append_singleton batch event ih =>
      have hlast : lastWrite (batch ++ [event]) s p =
          (event.writes? s p).getD (lastWrite batch s p) := by
        simp only [lastWrite, List.reverse_append, List.reverse_singleton, List.singleton_append,
          List.findSome?_cons]
        cases event.writes? s p <;> rfl
      have hbook : bookOf N (batch ++ [event]) = applyEvent (bookOf N batch) event := run_append ..
      rw [hbook, hlast]
      cases hbody : event.body with
      | bookDelta delta =>
          simp only [applyEvent, HotEvent.writes?, hbody, ArrayBook.quotes_applyDelta]
          by_cases hsame : s = delta.side ∧ p = delta.price
          · obtain ⟨rfl, rfl⟩ := hsame
            split <;> simp [PriceMaps.write, *]
          · have hsame' : ¬ (delta.side = s ∧ delta.price = p) :=
              fun h => hsame ⟨h.1.symm, h.2.symm⟩
            rw [if_neg hsame', Option.getD_none, ← ih]
            split
            · simp only [PriceMaps.write]
              rw [if_neg hsame]
            · rfl
      | _ =>
          simp only [applyEvent, HotEvent.writes?, hbody, Option.getD_none]
          exact ih

/-! ### A batch in progress -/

/-- A snapshot batch of `i`: `IS_SNAPSHOT` on the first delta, `LAST_IN_BATCH` on the
last, and neither on any other. -/
structure IsSnapshotBatch (i : InstrumentId) (batch : List HotEvent) : Prop where
  ne_nil : batch ≠ []
  deltas : ∀ event ∈ batch, event.isDeltaFor i = true
  snapshot : ∀ k (h : k < batch.length), batch[k].isSnapshot = decide (k = 0)
  last : ∀ k (h : k < batch.length), batch[k].isLast = decide (k + 1 = batch.length)

/-- The deltas of `i` among the events are the batch, and none of the events is a top of
book of `i`; trades and events of other instruments stand anywhere between them. -/
structure Interleaves (i : InstrumentId) (batch events : List HotEvent) : Prop where
  deltas : events.filter (HotEvent.isDeltaFor i) = batch
  no_tob : ∀ event ∈ events, event.isTobFor i = false

/-- The levels after a delta: a snapshot delta is applied to the empty book. -/
theorem HotEvent.actOn_levels_of_delta {i : InstrumentId} {event : HotEvent}
    (h : event.isDeltaFor i = true) (st : InstrumentState (ArrayBook N)) (s : Side) :
    (event.actOn i st).1.book.side s =
      (applyEvent (if event.isSnapshot then .default else st.book) event).side s := by
  obtain ⟨hid, delta, hbody⟩ := isDeltaFor_iff.mp h
  rw [actOn_of_delta hid hbody, InstrumentState.onBookDelta_side]
  by_cases hsnapshot : event.isSnapshot = true
  · rw [if_pos hsnapshot, InstrumentState.applyBookDelta_of_snapshot hsnapshot]
    simp only [applyEvent, hbody]
    rfl
  · have hflag : ¬ event.header.flags.contains .isSnapshot = true := hsnapshot
    rw [if_neg hsnapshot]
    simp only [applyEvent, hbody, InstrumentState.applyBookDelta, InstrumentState.beginSnapshot]
    rw [if_neg hflag]
    rfl

/-- What one instrument looks like once the deltas `seen` of a batch have arrived. -/
structure InBatch (batch seen : List HotEvent) (st : InstrumentState (ArrayBook N)) : Prop where
  levels : ∀ s, st.book.side s = (bookOf N seen).side s
  inSnapshot : st.inSnapshot = decide (seen.length < batch.length)
  received : st.snapshotReceived = decide (seen.length = batch.length)

/-- Where the next delta of a batch stands. -/
theorem getElem_of_snoc_prefix {batch seen : List HotEvent} {event : HotEvent}
    (h : seen ++ [event] <+: batch) : ∃ hlt : seen.length < batch.length,
      batch[seen.length] = event := by
  obtain ⟨post, rfl⟩ := h
  refine ⟨by simp, by simp⟩

/-- The next delta of a batch. The first one needs nothing of the state before it. -/
theorem InBatch.next {i : InstrumentId} {batch seen : List HotEvent} {event : HotEvent}
    (hbatch : IsSnapshotBatch i batch) (hpre : seen ++ [event] <+: batch)
    {st : InstrumentState (ArrayBook N)} (h : seen ≠ [] → InBatch batch seen st) :
    InBatch batch (seen ++ [event]) (event.actOn i st).1 := by
  have hdelta : event.isDeltaFor i = true := hbatch.deltas event (hpre.subset (by simp))
  obtain ⟨hlt, hevent⟩ := getElem_of_snoc_prefix hpre
  have hsnapshot := hbatch.snapshot seen.length hlt
  have hlast := hbatch.last seen.length hlt
  rw [hevent] at hsnapshot hlast
  obtain ⟨hin, hrecv, -⟩ := HotEvent.actOn_flags_of_delta hdelta st
  rw [hsnapshot, hlast] at hin hrecv
  have hbook : bookOf N (seen ++ [event]) = applyEvent (bookOf N seen) event := run_append ..
  have happly : ∀ {b b' : ArrayBook N}, (∀ s, b.side s = b'.side s) →
      ∀ s, (applyEvent b event).side s = (applyEvent b' event).side s := by
    intro b b' hsame s
    simp only [applyEvent]
    split
    · exact ArrayBook.applyDelta_side_congr hsame _ _ _ _ s
    · exact hsame s
  -- before the last delta the snapshot is open and not yet received
  have hopen : (decide (seen.length = 0) || st.inSnapshot) = true := by
    by_cases hseen : seen = []
    · simp [hseen]
    · simp [(h hseen).inSnapshot, hlt]
  have hnot : (!decide (seen.length = 0) && st.snapshotReceived) = false := by
    by_cases hseen : seen = []
    · simp [hseen]
    · simp [(h hseen).received, Nat.ne_of_lt hlt]
  rw [hopen] at hin hrecv
  rw [hnot] at hrecv
  refine ⟨?_, ?_, ?_⟩
  · intro s
    rw [HotEvent.actOn_levels_of_delta hdelta, hbook, hsnapshot]
    by_cases hseen : seen = []
    · rw [hseen]
      rfl
    · rw [if_neg (by simpa using hseen)]
      exact happly (h hseen).levels s
  · rw [hin, List.length_append, List.length_singleton, Bool.eq_iff_iff]
    simp
    omega
  · rw [hrecv, List.length_append, List.length_singleton]
    by_cases hend : seen.length + 1 = batch.length <;> simp [hend]

/-- Events that are neither deltas nor tops of book of the instrument change nothing. -/
theorem InBatch.other {i : InstrumentId} {batch seen : List HotEvent} {event : HotEvent}
    (hdelta : event.isDeltaFor i = false) (htob : event.isTobFor i = false)
    {st : InstrumentState (ArrayBook N)} (h : InBatch batch seen st) :
    InBatch batch seen (event.actOn i st).1 := by
  obtain ⟨hbook, hin, hrecv, -⟩ := HotEvent.actOn_of_other hdelta htob st
  refine ⟨?_, ?_, ?_⟩
  · intro s
    rw [hbook, h.levels]
  · rw [hin, h.inSnapshot]
  · rw [hrecv, h.received]

namespace MarketStateEngine

variable {e : MarketStateEngine (ArrayBook N) MAX} {i : InstrumentId} {batch : List HotEvent}

/-- **A batch in progress.** From any engine state, once the first delta has arrived the
instrument looks as the deltas seen so far say. -/
theorem run_batch (hbatch : IsSnapshotBatch i batch) {pre : List HotEvent}
    (hpre : pre.filter (HotEvent.isDeltaFor i) <+: batch)
    (htob : ∀ event ∈ pre, event.isTobFor i = false)
    (hseen : pre.filter (HotEvent.isDeltaFor i) ≠ []) {st : InstrumentState (ArrayBook N)}
    (hst : (run process e pre).state? i = some st) :
    InBatch batch (pre.filter (HotEvent.isDeltaFor i)) st := by
  induction pre using List.reverseRecOn generalizing st with
  | nil => exact absurd rfl hseen
  | append_singleton pre event ih =>
      obtain ⟨st, hbefore, rfl⟩ := run_process_snoc_state? hst
      have htobs : ∀ event ∈ pre, event.isTobFor i = false :=
        fun event hmem => htob event (List.mem_append_left _ hmem)
      rw [List.filter_append] at hpre hseen ⊢
      cases hdelta : event.isDeltaFor i with
      | true =>
          rw [List.filter_singleton, hdelta] at hpre ⊢
          exact InBatch.next hbatch hpre fun hne =>
            ih ((List.prefix_append ..).trans hpre) htobs hne hbefore
      | false =>
          rw [List.filter_singleton, hdelta] at hpre hseen ⊢
          rw [show (bif false then [event] else []) = [] from rfl, List.append_nil]
            at hpre hseen ⊢
          exact (ih hpre htobs hseen hbefore).other hdelta (htob event (by simp))

/-- Nothing is emitted for the instrument until the batch is complete. -/
theorem run_batch_quiet (hpending : e.tobChanged = false) (hbatch : IsSnapshotBatch i batch)
    {pre : List HotEvent} (hpre : pre.filter (HotEvent.isDeltaFor i) <+: batch)
    (hincomplete : pre.filter (HotEvent.isDeltaFor i) ≠ batch)
    (htob : ∀ event ∈ pre, event.isTobFor i = false) :
    (run Feed.step (.start e) pre).emittedFor i = [] := by
  induction pre using List.reverseRecOn with
  | nil => rfl
  | append_singleton pre event ih =>
      have htobs : ∀ event ∈ pre, event.isTobFor i = false :=
        fun event hmem => htob event (List.mem_append_left _ hmem)
      rw [List.filter_append] at hpre hincomplete
      have hpre' := (List.prefix_append ..).trans hpre
      have hincomplete' : pre.filter (HotEvent.isDeltaFor i) ≠ batch := by
        intro heq
        rw [heq] at hpre hincomplete
        have hnil : [event].filter (HotEvent.isDeltaFor i) = [] := by
          have := hpre.length_le
          rw [List.length_append] at this
          exact List.length_eq_zero_iff.mp (by omega)
        rw [hnil, List.append_nil] at hincomplete
        exact hincomplete rfl
      have hquiet : ∀ st : InstrumentState (ArrayBook N), (event.actOn i st).2 = none := by
        intro st
        cases hdelta : event.isDeltaFor i with
        | false => exact (HotEvent.actOn_of_other hdelta (htob event (by simp)) st).2.2.2
        | true =>
            refine (HotEvent.actOn_flags_of_delta hdelta st).2.2 ?_
            -- a delta before the last one of the batch
            rw [List.filter_singleton, hdelta] at hpre hincomplete
            obtain ⟨hlt, hevent⟩ := getElem_of_snoc_prefix hpre
            have hne : (pre.filter (HotEvent.isDeltaFor i)).length + 1 ≠ batch.length :=
              fun hlength => hincomplete (hpre.eq_of_length (by simpa using hlength))
            have hlast := hbatch.last _ hlt
            rw [hevent] at hlast
            simpa [hne] using hlast
      rw [Feed.run_snoc_emittedFor hpending, ih hpre' hincomplete' htobs]
      cases (run process e pre).state? i with
      | none => rfl
      | some st => simp [hquiet st]

/-- The instrument after the whole batch. -/
theorem run_batch_complete (hbatch : IsSnapshotBatch i batch) {events : List HotEvent}
    (h : Interleaves i batch events) {st : InstrumentState (ArrayBook N)}
    (hst : (run process e events).state? i = some st) : InBatch batch batch st := by
  have hpre : events.filter (HotEvent.isDeltaFor i) <+: batch := by rw [h.deltas]
  have hseen : events.filter (HotEvent.isDeltaFor i) ≠ [] := by
    rw [h.deltas]
    exact hbatch.ne_nil
  have hin := run_batch hbatch hpre h.no_tob hseen hst
  rwa [h.deltas] at hin

theorem isReady_of_batch (hbatch : IsSnapshotBatch i batch) {events : List HotEvent}
    (h : Interleaves i batch events) :
    (run process e events).isReady i = (e.slot? i).isSome := by
  have hslot := run_process_slot? e events i
  simp only [isReady]
  cases hst : (run process e events).state? i with
  | none =>
      simp only [state?, Option.map_eq_none_iff] at hst
      rw [← hslot, hst]
      rfl
  | some st =>
      obtain ⟨slot, hslot', -⟩ := Option.map_eq_some_iff.mp hst
      rw [← hslot, hslot']
      show st.snapshotReceived = true
      rw [(run_batch_complete hbatch h hst).received]
      simp

/-- **A snapshot erases history.** Take any two engines with the same number of
instruments, and feed each the same snapshot batch of `i`, interleaved in any way with
trades of `i` and events of other instruments. Afterwards `i` is equally ready in both
and no view of its book tells the two apart: the book is the empty book with the deltas
of the batch applied, the last write in range to a price winning. Before the last delta
of the batch, a consumer that polls before the batch and after every event receives
nothing for `i`. -/
theorem snapshot_erases_history (e₁ e₂ : MarketStateEngine (ArrayBook N) MAX)
    (hsizes : e₁.activeCount = e₂.activeCount) {i : InstrumentId}
    {batch events₁ events₂ : List HotEvent} (hbatch : IsSnapshotBatch i batch)
    (h₁ : Interleaves i batch events₁) (h₂ : Interleaves i batch events₂) :
    (run process e₁ events₁).isReady i = (run process e₂ events₂).isReady i ∧
    (∀ st₁ st₂, (run process e₁ events₁).state? i = some st₁ →
      (run process e₂ events₂).state? i = some st₂ →
      st₁.book.SameViews st₂.book ∧ st₁.book.SameViews (bookOf N batch) ∧
      ∀ s p, st₁.book.quotes s p = if InRange N p then lastWrite batch s p else 0) ∧
    ∀ pre, pre <+: events₁ → pre.filter (HotEvent.isDeltaFor i) ≠ batch →
      (run Feed.step (.start e₁.takeTob.1) pre).emittedFor i = [] := by
  refine ⟨?_, ?_, ?_⟩
  · rw [isReady_of_batch hbatch h₁, isReady_of_batch hbatch h₂, slot?_congr hsizes]
  · intro st₁ st₂ hst₁ hst₂
    have hlevels₁ := (run_batch_complete hbatch h₁ hst₁).levels
    have hlevels₂ := (run_batch_complete hbatch h₂ hst₂).levels
    refine ⟨?_, ArrayBook.sameViews_of_levels hlevels₁, ?_⟩
    · refine ArrayBook.sameViews_of_levels ?_
      intro s
      rw [hlevels₁, hlevels₂]
    · intro s p
      rw [ArrayBook.quotes_congr hlevels₁, bookOf_quotes]
  · intro pre hpre hincomplete
    refine run_batch_quiet (takeTob_tobChanged e₁) hbatch ?_ hincomplete ?_
    · rw [← h₁.deltas]
      exact hpre.filter _
    · intro event hmem
      exact h₁.no_tob event (hpre.subset hmem)

/-- An engine that has seen half of another snapshot, and a new one. -/
theorem snapshot_erases_half_snapshot :
    (run process (run process (new 2 0 (by decide) : MarketStateEngine (ArrayBook 4) 2)
        [sampleDelta 1 3 .bid .isSnapshot])
        [sampleDelta 1 1 .bid .isSnapshot, sampleDelta 2 3 .ask .isSnapshot,
          .trade 1000 2 1 1 .empty ⟨1, 5, .bid⟩, sampleDelta 1 2 .ask .lastInBatch]).isReady 1 =
      (run process (new 2 0 (by decide) : MarketStateEngine (ArrayBook 4) 2)
        [sampleDelta 1 1 .bid .isSnapshot, sampleDelta 1 2 .ask .lastInBatch]).isReady 1 := by
  have hbatch : IsSnapshotBatch 1
      [sampleDelta 1 1 .bid .isSnapshot, sampleDelta 1 2 .ask .lastInBatch] :=
    ⟨by decide, by decide, by decide, by decide⟩
  have hmixed : Interleaves 1
      [sampleDelta 1 1 .bid .isSnapshot, sampleDelta 1 2 .ask .lastInBatch]
      [sampleDelta 1 1 .bid .isSnapshot, sampleDelta 2 3 .ask .isSnapshot,
        .trade 1000 2 1 1 .empty ⟨1, 5, .bid⟩, sampleDelta 1 2 .ask .lastInBatch] :=
    ⟨by decide, by decide⟩
  have hplain : Interleaves 1
      [sampleDelta 1 1 .bid .isSnapshot, sampleDelta 1 2 .ask .lastInBatch]
      [sampleDelta 1 1 .bid .isSnapshot, sampleDelta 1 2 .ask .lastInBatch] :=
    ⟨by decide, by decide⟩
  have hsizes : (run process (new 2 0 (by decide) : MarketStateEngine (ArrayBook 4) 2)
      [sampleDelta 1 3 .bid .isSnapshot]).activeCount = 2 := by
    rw [run_cons, run_nil, process_activeCount]
    rfl
  exact (snapshot_erases_history _ (new 2 0 (by decide)) hsizes hbatch hmixed hplain).1

end MarketStateEngine

end Mantis
