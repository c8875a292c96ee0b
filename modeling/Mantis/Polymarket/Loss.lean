import Mantis.MarketState.Snapshot
import Mantis.Polymarket.Decode

/-!
# Mantis.Polymarket.Loss

Lost events between the Polymarket feed and the market-state engine. The callback drops
what `push` refuses and only counts it; the engine sees the remaining events and goes by
their flags alone.

`IsBatch` lists the batches the decoder can announce. From them and from the engine's
snapshot state machine follows what a delta that makes an instrument ready can be
(`readyBy_of_turns`): the end of a snapshot batch, or a price change after a snapshot
batch that lost its end. A batch that lost another event is taken for complete.
-/

namespace Mantis

open Runs

/-! ### Batches -/

/-- A `"book"` batch of `i`: all events are snapshot deltas of `i`, and only the final
one ends the batch. -/
structure IsBookBatch (i : InstrumentId) (init : List HotEvent) (final : HotEvent) : Prop where
  deltas : ∀ event ∈ init ++ [final], event.isDeltaFor i = true
  snapshots : ∀ event ∈ init ++ [final], event.isSnapshot = true
  init_open : ∀ event ∈ init, event.isLast = false
  final_last : final.isLast = true

/-- What one decode call can announce. -/
inductive IsBatch : List HotEvent → Prop
  | nil : IsBatch []
  | priceChange {i event} (hdelta : event.isDeltaFor i = true)
      (hsnapshot : event.isSnapshot = false) : IsBatch [event]
  | trade {event} (hdelta : ∀ i, event.isDeltaFor i = false)
      (htob : ∀ i, event.isTobFor i = false) : IsBatch [event]
  | book {i init final} (h : IsBookBatch i init final) : IsBatch (init ++ [final])

theorem HotEvent.isTobFor_of_delta {i j : InstrumentId} {event : HotEvent}
    (h : event.isDeltaFor i = true) : event.isTobFor j = false := by
  obtain ⟨-, delta, hbody⟩ := isDeltaFor_iff.mp h
  simp [isTobFor, hbody]

theorem HotEvent.eq_of_isDeltaFor {i j : InstrumentId} {event : HotEvent}
    (hi : event.isDeltaFor i = true) (hj : event.isDeltaFor j = true) : i = j := by
  rw [← (isDeltaFor_iff.mp hi).1, (isDeltaFor_iff.mp hj).1]

/-- The decoder announces no top of book. -/
theorem IsBatch.not_tob {batch : List HotEvent} (h : IsBatch batch) (i : InstrumentId) :
    ∀ event ∈ batch, event.isTobFor i = false := by
  intro event hmem
  cases h with
  | nil => cases hmem
  | priceChange hdelta hsnapshot =>
      obtain rfl := List.mem_singleton.mp hmem
      exact HotEvent.isTobFor_of_delta hdelta
  | trade hdelta htob =>
      obtain rfl := List.mem_singleton.mp hmem
      exact htob i
  | book hbook => exact HotEvent.isTobFor_of_delta (hbook.deltas event hmem)

namespace PolymarketMarketDecoder

variable {D : Nat}

theorem mem_snapshotEvents {recvTs : Timestamp} {id : InstrumentId} {sourceId : SourceId}
    {seq : SeqNum} {deltas : List BookDeltaPayload} {event : HotEvent}
    (h : event ∈ snapshotEvents recvTs id sourceId seq deltas) :
    ∃ seq' delta, event = HotEvent.bookDelta recvTs seq' id sourceId .isSnapshot delta := by
  induction deltas generalizing seq with
  | nil => cases h
  | cons delta deltas ih =>
      rcases List.mem_cons.mp h with rfl | h
      · exact ⟨_, _, rfl⟩
      · exact ih h

theorem isDeltaFor_bookDelta (recvTs : Timestamp) (seq : SeqNum) (id : InstrumentId)
    (sourceId : SourceId) (flags : EventFlags) (delta : BookDeltaPayload) :
    (HotEvent.bookDelta recvTs seq id sourceId flags delta).isDeltaFor id = true :=
  HotEvent.isDeltaFor_iff.mpr ⟨rfl, delta, rfl⟩

theorem isSnapshot_flags :
    EventFlags.isSnapshot.contains .isSnapshot = true ∧
      EventFlags.isSnapshot.contains .lastInBatch = false := by decide

theorem lastInBatch_flags : EventFlags.lastInBatch.contains .isSnapshot = false := by decide

theorem lastSnapshot_flags :
    (EventFlags.isSnapshot.union .lastInBatch).contains .isSnapshot = true ∧
      (EventFlags.isSnapshot.union .lastInBatch).contains .lastInBatch = true := by decide

theorem decodeBook_batch (parseJson : List UInt8 → Option PolymarketBookMsg)
    (dec : PolymarketMarketDecoder D) (buf : List UInt8) (recvTs : Timestamp) :
    IsBatch (dec.decodeBook parseJson buf recvTs).2 := by
  cases hjson : parseJson buf with
  | none =>
      simp only [decodeBook, hjson]
      exact .nil
  | some msg =>
      cases hresolve : dec.resolve msg.assetId with
      | none =>
          simp only [decodeBook, hjson, hresolve]
          exact .nil
      | some found =>
          obtain ⟨id, metadata⟩ := found
          rcases List.eq_nil_or_concat ((parsedBook metadata msg).take outCapacity) with
            hnone | ⟨deltas, delta, hsome⟩
          · rw [decodeBook_eq hjson hresolve, hnone]
            exact .nil
          · rw [List.concat_eq_append] at hsome
            rw [decodeBook_concat hjson hresolve recvTs hsome]
            have hinit : ∀ event ∈ snapshotEvents recvTs id dec.sourceId dec.seq deltas,
                event.isDeltaFor id = true ∧ event.isSnapshot = true ∧ event.isLast = false := by
              intro event hmem
              obtain ⟨seq', delta', rfl⟩ := mem_snapshotEvents hmem
              exact ⟨isDeltaFor_bookDelta .., isSnapshot_flags.1, isSnapshot_flags.2⟩
            refine .book (i := id) ⟨?_, ?_, fun event hmem => (hinit event hmem).2.2,
              lastSnapshot_flags.2⟩
            · intro event hmem
              rcases List.mem_append.mp hmem with hmem | hmem
              · exact (hinit event hmem).1
              · obtain rfl := List.mem_singleton.mp hmem
                exact isDeltaFor_bookDelta ..
            · intro event hmem
              rcases List.mem_append.mp hmem with hmem | hmem
              · exact (hinit event hmem).2.1
              · obtain rfl := List.mem_singleton.mp hmem
                exact lastSnapshot_flags.1

theorem announced_zero (dec : PolymarketMarketDecoder D) (out : OutBuffer) :
    announced (dec, out, 0) = [] := List.take_zero

theorem announced_one (dec : PolymarketMarketDecoder D) (out : OutBuffer) (event : HotEvent)
    (h : 0 < outCapacity) : announced (dec, out.set 0 event h, 1) = [event] := by
  have hpush := (Out.start out).written_push event h
  rw [Out.written_start, List.nil_append] at hpush
  exact hpush

theorem decodePriceChange_batch (json : PolymarketJson) (dec : PolymarketMarketDecoder D)
    (frame : Frame) (out : OutBuffer) :
    IsBatch (announced (dec.decodePriceChange json frame out)) := by
  simp only [decodePriceChange]
  split
  · exact announced_zero dec out ▸ .nil
  · split
    · exact announced_zero dec out ▸ .nil
    · split
      · exact announced_zero dec out ▸ .nil
      · split
        · exact announced_zero dec out ▸ .nil
        · refine (congrArg IsBatch (announced_one _ _ _ _)).mpr ?_
          exact .priceChange (isDeltaFor_bookDelta ..) lastInBatch_flags

theorem decodeTrade_batch (json : PolymarketJson) (dec : PolymarketMarketDecoder D)
    (frame : Frame) (out : OutBuffer) : IsBatch (announced (dec.decodeTrade json frame out)) := by
  simp only [decodeTrade]
  split
  · exact announced_zero dec out ▸ .nil
  · split
    · exact announced_zero dec out ▸ .nil
    · split
      · exact announced_zero dec out ▸ .nil
      · refine (congrArg IsBatch (announced_one _ _ _ _)).mpr ?_
        refine .trade ?_ ?_
        · intro i
          simp [HotEvent.isDeltaFor, HotEvent.trade]
        · intro i
          simp [HotEvent.isTobFor, HotEvent.trade]

theorem decode_batch (json : PolymarketJson) (dec : PolymarketMarketDecoder D) (frame : Frame)
    (out : OutBuffer) : IsBatch (announced (dec.decode json frame out)) := by
  simp only [decode]
  split
  · exact announced_zero dec out ▸ .nil
  · split
    · exact announced_zero dec out ▸ .nil
    · split
      · exact decodePriceChange_batch json dec frame out
      · exact decodeTrade_batch json dec frame out
      · have hrefines : announced (dec.decodeBookInto json frame out) =
            (dec.decodeBook json.book frame.buf frame.recvTs).2 :=
          congrArg Prod.snd (decodeBookInto_refines json dec frame out)
        rw [hrefines]
        exact decodeBook_batch json.book dec frame.buf frame.recvTs
      · exact announced_zero dec out ▸ .nil

end PolymarketMarketDecoder

/-! ### Becoming ready -/

/-- The latest snapshot delta of an open snapshot. -/
theorem SnapshotOpen.latest {i : InstrumentId} {events : List HotEvent}
    (h : SnapshotOpen i events) :
    ∃ pre event post, events = pre ++ event :: post ∧ event.isDeltaFor i = true ∧
      event.isSnapshot = true ∧
      (∀ later ∈ event :: post, later.isDeltaFor i = true → later.isLast = false) ∧
      ∀ later ∈ post, later.isDeltaFor i = true → later.isSnapshot = false := by
  induction events using List.reverseRecOn with
  | nil => exact absurd h (snapshotOpen_nil i)
  | append_singleton events event ih =>
      rw [snapshotOpen_concat] at h
      have hkeep : SnapshotOpen i events → (event.isDeltaFor i = true → event.isLast = false) →
          (event.isDeltaFor i = true → event.isSnapshot = false) →
          ∃ pre first post, events ++ [event] = pre ++ first :: post ∧
            first.isDeltaFor i = true ∧ first.isSnapshot = true ∧
            (∀ later ∈ first :: post, later.isDeltaFor i = true → later.isLast = false) ∧
            ∀ later ∈ post, later.isDeltaFor i = true → later.isSnapshot = false := by
        intro hopen hlast hsnapshot
        obtain ⟨pre, first, post, rfl, hdelta, hfirst, hlater, hpost⟩ := ih hopen
        refine ⟨pre, first, post ++ [event], by simp, hdelta, hfirst, ?_, ?_⟩
        · intro later hmem
          rw [← List.cons_append] at hmem
          rcases List.mem_append.mp hmem with hmem | hmem
          · exact hlater later hmem
          · rw [List.mem_singleton.mp hmem]
            exact hlast
        · intro later hmem
          rcases List.mem_append.mp hmem with hmem | hmem
          · exact hpost later hmem
          · rw [List.mem_singleton.mp hmem]
            exact hsnapshot
      split at h
      · next hdelta =>
          obtain ⟨hlast, hsnapshot⟩ := h
          by_cases hself : event.isSnapshot = true
          · refine ⟨events, event, [], rfl, hdelta, hself, ?_, by simp⟩
            intro later hmem _
            rw [List.mem_singleton.mp hmem]
            exact hlast
          · rcases hsnapshot with hsnapshot | hopen
            · exact absurd hsnapshot hself
            · exact hkeep hopen (fun _ => hlast) (fun _ => by simpa using hself)
      · next hdelta =>
          exact hkeep h (fun hd => absurd hd hdelta) (fun hd => absurd hd hdelta)

namespace MarketStateEngine

variable {B : Type} [OrderBook B] {MAX : Nat}

/-- The event makes the instrument ready. -/
def TurnsReady (e : MarketStateEngine B MAX) (i : InstrumentId) (event : HotEvent) : Prop :=
  e.isReady i = false ∧ (e.process event).isReady i = true

instance (e : MarketStateEngine B MAX) (i : InstrumentId) (event : HotEvent) :
    Decidable (e.TurnsReady i event) :=
  inferInstanceAs (Decidable (e.isReady i = false ∧ (e.process event).isReady i = true))

/-- **Becoming ready.** Tops of book apart, only a delta that ends a batch makes an
instrument ready, and only with a snapshot of it open. -/
theorem TurnsReady.ends_snapshot {activeCount : Nat} {staleTimeoutNs : UInt64}
    {h : activeCount ≤ MAX} {i : InstrumentId} {events : List HotEvent} {event : HotEvent}
    (hturns : TurnsReady (run process (new activeCount staleTimeoutNs h : MarketStateEngine B MAX)
      events) i event) (htob : event.isTobFor i = false) :
    event.isDeltaFor i = true ∧ event.isLast = true ∧
      (event.isSnapshot = true ∨ SnapshotOpen i events) := by
  obtain ⟨hbefore, hafter⟩ := hturns
  have hrun : (run process (new activeCount staleTimeoutNs h : MarketStateEngine B MAX)
      (events ++ [event])).isReady i = true := by
    rw [run_append]
    exact hafter
  simp only [isReady] at hrun
  obtain ⟨st', hst', hready⟩ : ∃ st', (run process
      (new activeCount staleTimeoutNs h : MarketStateEngine B MAX) (events ++ [event])).state? i =
        some st' ∧ st'.snapshotReceived = true := by
    cases hst : (run process (new activeCount staleTimeoutNs h : MarketStateEngine B MAX)
        (events ++ [event])).state? i with
    | none => simp [hst] at hrun
    | some st' => exact ⟨st', rfl, by simpa [hst] using hrun⟩
  obtain ⟨st, hst, rfl⟩ := run_process_snoc_state? hst'
  have hnot := isReady_eq_false_iff.mp hbefore st hst
  rcases event.kind_for i with hdelta | ⟨-, htob'⟩ | ⟨hdelta, htob⟩
  · rw [(HotEvent.actOn_flags_of_delta hdelta st).2.1, hnot] at hready
    cases hlast : event.isLast with
    | false => simp [hlast] at hready
    | true =>
        refine ⟨hdelta, rfl, ?_⟩
        rw [← run_inSnapshot_iff events hst]
        simpa [hlast] using hready
  · rw [htob] at htob'
    cases htob'
  · rw [(HotEvent.actOn_of_other hdelta htob st).2.2.1, hnot] at hready
    cases hready

end MarketStateEngine

/-! ### Losses -/

/-- The current batch, up to `event`, is a whole snapshot batch of `i`, and all of it was
accepted. -/
def CompleteSnapshot (i : InstrumentId) (pre : List (HotEvent × Bool)) (event : HotEvent)
    (post : List (HotEvent × Bool)) : Prop :=
  post = [] ∧ IsBookBatch i (pre.map (·.1)) event ∧ ∀ entry ∈ pre, entry.2 = true

/-- The latest snapshot batch of `i` of which an event was accepted has lost its final
event. -/
def CutSnapshot (i : InstrumentId) (batches : List (List (HotEvent × Bool))) : Prop :=
  ∃ before init final after, batches = before ++ (init ++ [(final, false)]) :: after ∧
    IsBookBatch i (init.map (·.1)) final ∧ (∃ entry ∈ init, entry.2 = true) ∧
    ∀ batch ∈ after, ∀ event, (event, true) ∈ batch → event.isDeltaFor i = true →
      event.isSnapshot = false

/-- No snapshot batch of `i` was accepted in part. -/
def AllOrNothing (i : InstrumentId) (batches : List (List (HotEvent × Bool))) : Prop :=
  ∀ init final accepted, init ++ [(final, accepted)] ∈ batches →
    IsBookBatch i (init.map (·.1)) final →
    (∃ entry ∈ init ++ [(final, accepted)], entry.2 = true) →
    ∀ entry ∈ init ++ [(final, accepted)], entry.2 = true

/-- An element of a concatenation stands in one of its parts. -/
theorem flatten_eq_append_cons {α : Type} {parts : List (List α)} {pre post : List α} {a : α}
    (h : parts.flatten = pre ++ a :: post) :
    ∃ before pre' post' after, parts = before ++ (pre' ++ a :: post') :: after ∧
      post = post' ++ after.flatten := by
  rcases List.flatten_eq_append_iff.mp h with ⟨before, rest, rfl, -, hrest⟩ |
    ⟨before, pre', b, post', after, rfl, -, hrest⟩
  · obtain ⟨empties, post', after, rfl, -, rfl⟩ := List.flatten_eq_cons_iff.mp hrest.symm
    exact ⟨before ++ empties, [], post', after, by simp, rfl⟩
  · obtain ⟨rfl, rfl⟩ := List.cons.inj hrest
    exact ⟨before, pre', post', after, rfl, rfl⟩

/-- A batch with a snapshot delta of `i` is a snapshot batch of `i`. -/
theorem IsBatch.book_of_mem {batch : List HotEvent} (h : IsBatch batch) {i : InstrumentId}
    {event : HotEvent} (hmem : event ∈ batch) (hdelta : event.isDeltaFor i = true)
    (hsnapshot : event.isSnapshot = true) :
    ∃ init final, batch = init ++ [final] ∧ IsBookBatch i init final := by
  cases h with
  | nil => cases hmem
  | priceChange _ hno =>
      obtain rfl := List.mem_singleton.mp hmem
      rw [hno] at hsnapshot
      cases hsnapshot
  | trade hno htob =>
      obtain rfl := List.mem_singleton.mp hmem
      rw [hno i] at hdelta
      cases hdelta
  | book hbook =>
      obtain rfl := HotEvent.eq_of_isDeltaFor hdelta (hbook.deltas event hmem)
      exact ⟨_, _, rfl, hbook⟩

/-- Where a delta of `i` that ends its batch can stand. -/
theorem IsBatch.ending {pre post : List HotEvent} {event : HotEvent}
    (h : IsBatch (pre ++ event :: post)) {i : InstrumentId} (hdelta : event.isDeltaFor i = true)
    (hlast : event.isLast = true) :
    post = [] ∧ (IsBookBatch i pre event ∨ (pre = [] ∧ event.isSnapshot = false)) := by
  generalize hbatch : pre ++ event :: post = batch at h
  have hmem : event ∈ batch := by
    rw [← hbatch]
    simp
  cases h with
  | nil => cases hmem
  | priceChange _ hno =>
      obtain ⟨rfl, hrest⟩ | ⟨-, hpost⟩ := List.append_eq_singleton_iff.mp hbatch
      · obtain ⟨rfl, rfl⟩ := List.cons.inj hrest
        exact ⟨rfl, Or.inr ⟨rfl, hno⟩⟩
      · cases hpost
  | trade hno htob =>
      obtain rfl := List.mem_singleton.mp hmem
      rw [hno i] at hdelta
      cases hdelta
  | @book j init final hbook =>
      obtain rfl := HotEvent.eq_of_isDeltaFor hdelta (hbook.deltas event hmem)
      -- an event before the final one does not end the batch
      rcases List.eq_nil_or_concat post with rfl | ⟨post', last, rfl⟩
      · obtain ⟨rfl, hfinal⟩ := List.append_inj' hbatch rfl
        obtain ⟨rfl, -⟩ := List.cons.inj hfinal
        exact ⟨rfl, Or.inl hbook⟩
      · have hinit : event ∈ init := by
          rw [List.concat_eq_append, ← List.cons_append, ← List.append_assoc] at hbatch
          obtain ⟨rfl, -⟩ := List.append_inj' hbatch rfl
          simp
        rw [hbook.init_open event hinit] at hlast
        cases hlast

/-- An open snapshot at a batch boundary has lost its end. -/
theorem cutSnapshot_of_open {i : InstrumentId} {batches : List (List (HotEvent × Bool))}
    (hbatches : ∀ batch ∈ batches, IsBatch (batch.map (·.1)))
    (hopen : SnapshotOpen i (acceptedOf batches.flatten)) : CutSnapshot i batches := by
  obtain ⟨pre, first, post, hsplit, hdelta, hsnapshot, hlater, hpost⟩ := hopen.latest
  obtain ⟨entries₁, entries₂, hentries, -, rfl⟩ := acceptedOf_eq_append_cons hsplit
  obtain ⟨before, pre', post', after, rfl, rfl⟩ := flatten_eq_append_cons hentries
  have hbatch := hbatches (pre' ++ (first, true) :: post') (by simp)
  have hfirst : first ∈ (pre' ++ (first, true) :: post').map (·.1) := by simp
  obtain ⟨init, final, hmap, hbook⟩ := hbatch.book_of_mem hfirst hdelta hsnapshot
  have hafter : ∀ batch ∈ after, ∀ event, (event, true) ∈ batch → event.isDeltaFor i = true →
      event.isSnapshot = false := by
    intro batch hmem event hevent
    refine hpost event (mem_acceptedOf.mpr ?_)
    exact List.mem_append_right _ (List.mem_flatten_of_mem hmem hevent)
  rcases List.eq_nil_or_concat post' with rfl | ⟨post'', last, rfl⟩
  · -- the snapshot delta would itself be the final event
    rw [List.map_append, List.map_singleton] at hmap
    obtain ⟨-, hfinal⟩ := List.append_inj' hmap rfl
    obtain ⟨rfl, -⟩ := List.cons.inj hfinal
    have hopen := hlater first List.mem_cons_self hdelta
    rw [hbook.final_last] at hopen
    cases hopen
  · obtain ⟨event, accepted⟩ := last
    rw [List.concat_eq_append, ← List.cons_append, ← List.append_assoc, List.map_append,
      List.map_singleton] at hmap
    obtain ⟨rfl, hfinal⟩ := List.append_inj' hmap rfl
    obtain ⟨rfl, -⟩ := List.cons.inj hfinal
    cases accepted with
    | true =>
        have hmem : event ∈ acceptedOf ((post''.concat (event, true)) ++ after.flatten) :=
          mem_acceptedOf.mpr (by simp)
        have hopen := hlater event (List.mem_cons_of_mem _ hmem)
          (hbook.deltas event (by simp))
        rw [hbook.final_last] at hopen
        cases hopen
    | false =>
        refine ⟨before, pre' ++ (first, true) :: post'', event, after, by simp, hbook, ?_, hafter⟩
        exact ⟨(first, true), by simp, rfl⟩

/-- What the delta that makes `i` ready is: the end of a snapshot batch of `i`, or a price
change after a snapshot batch of `i` that lost its end. -/
def ReadyBy (i : InstrumentId) (before : List (List (HotEvent × Bool)))
    (pre : List (HotEvent × Bool)) (event : HotEvent) (post : List (HotEvent × Bool)) : Prop :=
  post = [] ∧ (IsBookBatch i (pre.map (·.1)) event ∨
    (pre = [] ∧ event.isDeltaFor i = true ∧ event.isSnapshot = false ∧ CutSnapshot i before))

section

variable {B : Type} [OrderBook B] {MAX : Nat} {activeCount : Nat} {staleTimeoutNs : UInt64}
  {h : activeCount ≤ MAX} {i : InstrumentId} {before : List (List (HotEvent × Bool))}
  {pre post : List (HotEvent × Bool)} {event : HotEvent}

theorem readyBy_of_turns
    (hbatches : ∀ batch ∈ before ++ [pre ++ (event, true) :: post], IsBatch (batch.map (·.1)))
    (hturns : (run MarketStateEngine.process
      (.new activeCount staleTimeoutNs h : MarketStateEngine B MAX)
      (acceptedOf (before.flatten ++ pre))).TurnsReady i event) :
    ReadyBy i before pre event post := by
  have hbatch := hbatches (pre ++ (event, true) :: post) (by simp)
  have htob : event.isTobFor i = false := hbatch.not_tob i event (by simp)
  obtain ⟨hdelta, hlast, hsnapshot⟩ := hturns.ends_snapshot htob
  rw [List.map_append, List.map_cons] at hbatch
  obtain ⟨hpost, hbook | ⟨hpre, hno⟩⟩ := hbatch.ending hdelta hlast
  · exact ⟨List.map_eq_nil_iff.mp hpost, Or.inl hbook⟩
  · obtain rfl := List.map_eq_nil_iff.mp hpre
    refine ⟨List.map_eq_nil_iff.mp hpost, Or.inr ⟨rfl, hdelta, hno, ?_⟩⟩
    rcases hsnapshot with hsnapshot | hopen
    · rw [hno] at hsnapshot
      cases hsnapshot
    · rw [List.append_nil] at hopen
      refine cutSnapshot_of_open ?_ hopen
      intro batch hmem
      exact hbatches batch (List.mem_append_left _ hmem)

/-- Without partial losses the delta ends a complete snapshot. -/
theorem ReadyBy.complete (hready : ReadyBy i before pre event post)
    (hwhole : AllOrNothing i (before ++ [pre ++ (event, true) :: post])) :
    CompleteSnapshot i pre event post := by
  obtain ⟨rfl, hbook | ⟨rfl, -, -, hcut⟩⟩ := hready
  · refine ⟨rfl, hbook, ?_⟩
    intro entry hmem
    refine hwhole pre event true (by simp) hbook ⟨(event, true), by simp, rfl⟩ entry ?_
    exact List.mem_append_left _ hmem
  · obtain ⟨before₁, init, final, before₂, rfl, hbook, ⟨entry, hmem, haccepted⟩, -⟩ := hcut
    have hall := hwhole init final false (by simp) hbook
      ⟨entry, List.mem_append_left _ hmem, haccepted⟩
    have hfinal := hall (final, false) (by simp)
    cases hfinal

end

/-- **Losses and readiness.** For every stream of messages and every behaviour of `push`,
with the accepted events processed in order by a new engine: the delta that makes `i`
ready is the end of a snapshot batch of `i`, or a price change of `i` after a snapshot
batch of `i` whose final event was refused. If no snapshot batch of `i` was accepted in
part, it is the end of a snapshot batch all of whose events were accepted. -/
theorem ready_by_snapshot_end {D MAX : Nat} {B σ : Type} [OrderBook B] (json : PolymarketJson)
    (sourceId : SourceId) (registry : InstrumentRegistry D) (push : σ → HotEvent → σ × Bool)
    (sink : σ) (frames : List Frame) (activeCount : Nat) (staleTimeoutNs : UInt64)
    (h : activeCount ≤ MAX) (i : InstrumentId) :
    let dec : PolymarketMarketDecoder D := .new sourceId registry
    let log := eventLog (PolymarketMarketDecoder.decode json) push dec makeOut sink frames
    (run (FeedCallback.onFrame (PolymarketMarketDecoder.decode json) push) (.build dec sink)
      frames).accepted = acceptedOf log.flatten ∧
    ∀ before pre event post after, log = before ++ (pre ++ (event, true) :: post) :: after →
      (run MarketStateEngine.process
        (.new activeCount staleTimeoutNs h : MarketStateEngine B MAX)
        (acceptedOf (before.flatten ++ pre))).TurnsReady i event →
      ReadyBy i before pre event post ∧
        (AllOrNothing i (before ++ [pre ++ (event, true) :: post]) →
          CompleteSnapshot i pre event post) := by
  intro dec log
  refine ⟨accepted_run _ push (.build dec sink) frames, ?_⟩
  intro before pre event post after hlog hturns
  have hbatches : ∀ batch ∈ before ++ [pre ++ (event, true) :: post],
      IsBatch (batch.map (·.1)) := by
    intro batch hmem
    refine eventLog_forall push (PolymarketMarketDecoder.decode_batch json) dec makeOut sink
      frames batch ?_
    show batch ∈ log
    rw [hlog]
    rcases List.mem_append.mp hmem with hmem | hmem
    · exact List.mem_append_left _ hmem
    · rw [List.mem_singleton.mp hmem]
      exact List.mem_append_right _ List.mem_cons_self
  have hready := readyBy_of_turns hbatches hturns
  exact ⟨hready, hready.complete⟩

/-- The two events of `bookFrame`, and the one of `updateFrame` after them. -/
def bookBid : HotEvent := .bookDelta 0 1 1 1 .isSnapshot ⟨50, 100, .bid, .new, 0⟩

def bookAsk : HotEvent :=
  .bookDelta 0 2 1 1 (EventFlags.isSnapshot.union .lastInBatch) ⟨55, 150, .ask, .new, 0⟩

def updateBid : HotEvent := .bookDelta 0 3 1 1 .lastInBatch ⟨53, 100, .bid, .change, 0⟩

/-- An engine with one instrument. -/
def soloEngine : MarketStateEngine (ArrayBook 100) 1 := .new 1 0 (Nat.le_refl 1)

/-- A snapshot that arrives whole. -/
theorem ready_by_snapshot_end_whole : CompleteSnapshot 1 [(bookBid, true)] bookAsk [] := by
  have hlog : eventLog (PolymarketMarketDecoder.decode sampleParser) (fun _ _ => ((), true))
      shareDecoder makeOut () [bookFrame] = [[(bookBid, true), (bookAsk, true)]] := by
    decide +kernel
  have hresult := (ready_by_snapshot_end (B := ArrayBook 100) sampleParser 1 shareDecoder.registry
    (fun _ _ => ((), true)) () [bookFrame] 1 0 (Nat.le_refl 1) 1).2 [] [(bookBid, true)] bookAsk
    [] [] hlog (by decide +kernel)
  refine hresult.2 ?_
  intro init final accepted hmem _ _ entry hentry
  rw [List.mem_singleton.mp hmem] at hentry
  revert entry
  decide +kernel

/-- A snapshot that lost its bid is taken for complete; and when it loses its ask instead,
the next price change makes the instrument ready. -/
theorem partial_snapshot_ready :
    (eventLog (PolymarketMarketDecoder.decode sampleParser) (fun seen _ => (true, seen))
        shareDecoder makeOut false [bookFrame] = [[(bookBid, false), (bookAsk, true)]] ∧
      (run MarketStateEngine.process soloEngine
        (acceptedOf [(bookBid, false)])).TurnsReady 1 bookAsk ∧
      ¬ CompleteSnapshot 1 [(bookBid, false)] bookAsk []) ∧
    (eventLog (PolymarketMarketDecoder.decode sampleParser) (fun n _ => (n + 1, n != 1))
        shareDecoder makeOut 0 [bookFrame, updateFrame] =
        [[(bookBid, true), (bookAsk, false)], [(updateBid, true)]] ∧
      (run MarketStateEngine.process soloEngine
        (acceptedOf [(bookBid, true), (bookAsk, false)])).TurnsReady 1 updateBid ∧
      ¬ CompleteSnapshot 1 [] updateBid []) := by
  refine ⟨⟨by decide +kernel, by decide +kernel, ?_⟩, by decide +kernel, by decide +kernel, ?_⟩
  · rintro ⟨-, -, hall⟩
    exact absurd (hall (bookBid, false) (by simp)) (by decide)
  · rintro ⟨-, hbook, -⟩
    exact absurd (hbook.snapshots updateBid (by simp)) (by decide)

end Mantis
