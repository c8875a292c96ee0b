import Mantis.MarketState.Resync
import Mantis.Queue.Teardown

/-!
# Mantis.MarketState.Replay

The book of an instrument as a function of the events processed. A snapshot delta and a top
of book erase it, every other delta writes one price, and the newest event that writes or
erases a price decides what it shows (`replay_exact`). So two engines fed from logs that agree
from some erasing event on show the same book, and no other instrument or event matters.

A `Pipeline` puts the engine behind the ring: the consumer's thread processes each event it
pops. Whatever the two threads do, the book is that of a prefix of the published events, and
of all events accepted once the ring is drained (`pipeline_replays`).
-/

namespace Mantis

open Runs

variable {N MAX : Nat}

/-! ### What one event does to the maps -/

/-- The quantity an event writes to a price of `i`. -/
def HotEvent.shows? (i : InstrumentId) (event : HotEvent) (s : Side) (p : Ticks) : Option Lots :=
  if event.header.instrumentId = i then
    match event.body, s with
    | .bookDelta delta, s => if delta.side = s ∧ delta.price = p then some delta.qty else none
    | .topOfBook tob, .bid => if tob.bidPrice = p then some tob.bidQty else none
    | .topOfBook tob, .ask => if tob.askPrice = p then some tob.askQty else none
    | _, _ => none
  else none

/-- The event clears the book of `i` before it writes. -/
def HotEvent.erases (i : InstrumentId) (event : HotEvent) : Bool :=
  event.isDeltaFor i && event.isSnapshot || event.isTobFor i

/-- What a price of `i` shows after events given newest first. -/
def latestQuote (i : InstrumentId) (s : Side) (p : Ticks) : List HotEvent → Lots
  | [] => 0
  | event :: older =>
      (event.shows? i s p).getD (if event.erases i then 0 else latestQuote i s p older)

namespace InstrumentState

/-- The levels after a top of book. -/
theorem onTopOfBook_side (header : EventHeader) (tob : TopOfBookPayload) (slot : Nat)
    (st : InstrumentState (ArrayBook N)) (s : Side) :
    (st.onTopOfBook header tob slot).1.book.side s =
      (((ArrayBook.default : ArrayBook N).applyDelta tob.bidPrice tob.bidQty .bid .new).applyDelta
        tob.askPrice tob.askQty .ask .new).side s := by
  simp only [onTopOfBook]
  rw [(checkBboPriceChange_keeps _ slot).1, ArrayBook.checked_side]
  rfl

end InstrumentState

/-- A write in range, read at a price in range. -/
theorem ArrayBook.quotes_applyDelta_get (b : ArrayBook N) (price : Ticks) (qty : Lots)
    (side : Side) (action : UpdateAction) (s : Side) {p : Ticks} (hp : InRange N p) :
    (b.applyDelta price qty side action).quotes s p =
      if side = s ∧ price = p then qty else b.quotes s p := by
  rw [quotes_applyDelta]
  by_cases hsame : side = s ∧ price = p
  · obtain ⟨rfl, rfl⟩ := hsame
    rw [if_pos hp, if_pos ⟨rfl, rfl⟩, PriceMaps.write, if_pos ⟨rfl, rfl⟩]
  · have hother : ¬ (s = side ∧ p = price) := fun h => hsame ⟨h.1.symm, h.2.symm⟩
    rw [if_neg hsame]
    split
    · rw [PriceMaps.write, if_neg hother]
    · rfl

/-- **One event.** A price in range shows what the event writes to it, or zero if the event
erases the book, or what it showed before. -/
theorem HotEvent.actOn_quotes (i : InstrumentId) (event : HotEvent)
    (st : InstrumentState (ArrayBook N)) (s : Side) {p : Ticks} (hp : InRange N p) :
    (event.actOn i st).1.book.quotes s p =
      (event.shows? i s p).getD (if event.erases i then 0 else st.book.quotes s p) := by
  rcases event.kind_for i with hdelta | ⟨hdelta, htob⟩ | ⟨hdelta, htob⟩
  · obtain ⟨hid, delta, hbody⟩ := isDeltaFor_iff.mp hdelta
    have hnot : event.isTobFor i = false := by simp [isTobFor, hbody]
    have hshows : event.shows? i s p =
        if delta.side = s ∧ delta.price = p then some delta.qty else none := by
      simp only [shows?, hbody, if_pos hid]
    have herases : event.erases i = event.isSnapshot := by
      rw [erases, hdelta, hnot, Bool.true_and, Bool.or_false]
    rw [ArrayBook.quotes_congr (actOn_levels_of_delta hdelta st), hshows, herases]
    simp only [applyEvent, hbody, ArrayBook.quotes_applyDelta_get _ _ _ _ _ _ hp]
    split
    · rfl
    · cases event.isSnapshot with
      | true => exact congrFun (congrFun ArrayBook.quotes_default s) p
      | false => rfl
  -- a quote clears the book and writes one level to each side
  · obtain ⟨hid, tob, hbody⟩ := isTobFor_iff.mp htob
    have hact : ∀ s', (event.actOn i st).1.book.side s' = _ := fun s' => by
      simp only [actOn, effect, onInstrument, if_pos hid, hbody]
      exact InstrumentState.onTopOfBook_side event.header tob _ st s'
    have herases : event.erases i = true := by rw [erases, htob, Bool.or_true]
    rw [ArrayBook.quotes_congr hact, herases, if_pos rfl,
      ArrayBook.quotes_applyDelta_get _ _ _ _ _ _ hp,
      ArrayBook.quotes_applyDelta_get _ _ _ _ _ _ hp, ArrayBook.quotes_default]
    cases s with
    | bid =>
        simp only [shows?, if_pos hid, hbody, PriceMaps.empty, reduceCtorEq, false_and, if_false,
          true_and]
        split <;> rfl
    | ask =>
        simp only [shows?, if_pos hid, hbody, PriceMaps.empty, reduceCtorEq, false_and, if_false,
          true_and]
        split <;> rfl
  · have herases : event.erases i = false := by rw [erases, hdelta, htob, Bool.false_and]; rfl
    have hshows : event.shows? i s p = none := by
      simp only [shows?]
      split
      · next hid =>
          cases hbody : event.body with
          | bookDelta delta => simp [isDeltaFor, hid, hbody] at hdelta
          | topOfBook tob => simp [isTobFor, hid, hbody] at htob
          | _ => rfl
      · rfl
    rw [(actOn_of_other hdelta htob st).1, herases, hshows]
    rfl

namespace MarketStateEngine

/-- **Every run.** What each price of an instrument shows after any events. -/
theorem run_quotes {activeCount : Nat} {staleTimeoutNs : UInt64} {h : activeCount ≤ MAX}
    {i : InstrumentId} (events : List HotEvent) {st : InstrumentState (ArrayBook N)}
    (hst : (run process (new activeCount staleTimeoutNs h) events).state? i = some st)
    (s : Side) (p : Ticks) :
    st.book.quotes s p = if InRange N p then latestQuote i s p events.reverse else 0 := by
  split
  · next hp =>
      induction events using List.reverseRecOn generalizing st with
      | nil =>
          rw [new_state? hst]
          exact congrFun (congrFun ArrayBook.quotes_default s) p
      | append_singleton events event ih =>
          obtain ⟨st, hbefore, rfl⟩ := run_process_snoc_state? hst
          rw [HotEvent.actOn_quotes i event st s hp, List.reverse_append, ih hbefore]
          rfl
  · next hp =>
      -- a price out of range has no slot
      have hnone : ArrayBook.index? N p = none := by
        rw [← Option.not_isSome_iff_eq_none, ArrayBook.index?_isSome_iff]
        exact hp
      simp only [ArrayBook.quotes, hnone]

end MarketStateEngine

/-- What came before an erasing event does not matter. -/
theorem latestQuote_of_erases {i : InstrumentId} {event : HotEvent} (h : event.erases i = true)
    (s : Side) (p : Ticks) (newer older older' : List HotEvent) :
    latestQuote i s p (newer ++ event :: older) = latestQuote i s p (newer ++ event :: older') := by
  induction newer with
  | nil =>
      show (event.shows? i s p).getD _ = (event.shows? i s p).getD _
      rw [if_pos h, if_pos h]
  | cons event' newer ih =>
      show (event'.shows? i s p).getD (if _ then _ else latestQuote i s p (newer ++ _)) = _
      rw [ih]
      rfl

/-- **Replay.** After any events every price in range of an instrument shows what the newest
event that writes or erases it left there, zero if none does, and no price out of range shows
anything; the answers of `best_bid` and `best_ask` are the highest and lowest price shown.
Two engines whose logs agree from an erasing event on, whatever preceded it, show the same
book. -/
theorem replay_exact (hN : N ≤ 65536) (activeCount : Nat) (staleTimeoutNs : UInt64)
    (h : activeCount ≤ MAX) (i : InstrumentId) (events : List HotEvent)
    (st : InstrumentState (ArrayBook N))
    (hst : (run MarketStateEngine.process
      (MarketStateEngine.new activeCount staleTimeoutNs h) events).state? i = some st) :
    let shown : PriceMaps := fun s p => if InRange N p then latestQuote i s p events.reverse else 0
    st.book.quotes = shown ∧ shown.IsBid st.book.bestBid.2 ∧ shown.IsAsk st.book.bestAsk.2 ∧
      ∀ (older older' newer : List HotEvent) (event : HotEvent), event.erases i = true →
        events = older ++ event :: newer → ∀ st' : InstrumentState (ArrayBook N),
          (run MarketStateEngine.process (MarketStateEngine.new activeCount staleTimeoutNs h)
            (older' ++ event :: newer)).state? i = some st' → st'.book.quotes = shown := by
  intro shown
  have hshown : st.book.quotes = shown := by
    funext s p
    exact MarketStateEngine.run_quotes events hst s p
  refine ⟨hshown, hshown ▸ ArrayBook.isBid_bestBid hN st.book,
    hshown ▸ ArrayBook.isAsk_bestAsk hN st.book, ?_⟩
  rintro older older' newer event herases rfl st' hst'
  funext s p
  rw [MarketStateEngine.run_quotes _ hst' s p]
  simp only [shown, List.reverse_append, List.reverse_cons, List.append_assoc,
    List.singleton_append]
  rw [latestQuote_of_erases herases s p newer.reverse older'.reverse older.reverse]

def firstBid : HotEvent := .bookDelta 0 1 1 1 .lastInBatch ⟨5, 100, .bid, .new, 0⟩

def snapshotAsk : HotEvent :=
  .bookDelta 0 2 1 1 (EventFlags.isSnapshot.union .lastInBatch) ⟨6, 40, .ask, .new, 0⟩

/-- A snapshot of one ask erases the bid. -/
theorem replay_exact_erased :
    ∃ st : InstrumentState (ArrayBook 8), (run MarketStateEngine.process
        (MarketStateEngine.new 1 0 (Nat.le_refl 1) : MarketStateEngine (ArrayBook 8) 1)
        [firstBid, snapshotAsk]).state? 1 = some st ∧
      st.book.quotes .bid 5 = 0 ∧ st.book.quotes .ask 6 = 40 := by
  obtain ⟨st, hst⟩ := MarketStateEngine.run_process_state?_isSome
    (e := (MarketStateEngine.new 1 0 (Nat.le_refl 1) : MarketStateEngine (ArrayBook 8) 1))
    (i := 1) (by decide) [firstBid, snapshotAsk]
  obtain ⟨hquotes, -⟩ := replay_exact (by decide) 1 0 (Nat.le_refl 1) 1 [firstBid, snapshotAsk] st hst
  refine ⟨st, hst, ?_, ?_⟩
  · rw [hquotes]
    decide
  · rw [hquotes]
    decide

/-! ### Behind the ring -/

/-- The ring with the two threads, and the engine the consumer feeds. -/
structure Pipeline (N MAX : Nat) where
  ledger : Ledger HotEvent
  engine : MarketStateEngine (ArrayBook N) MAX

namespace Pipeline

/-- The consumer processes every event it pops. -/
def step (cfg : RingConfig) (p : Pipeline N MAX) (act : RingEngine.Action HotEvent) :
    Pipeline N MAX :=
  { ledger := p.ledger.step cfg act
    engine := run MarketStateEngine.process p.engine (p.ledger.engine.handedOut cfg act) }

/-- The engine has processed what the ring has handed out. -/
theorem run_step (cfg : RingConfig) (p : Pipeline N MAX)
    (schedule : List (RingEngine.Action HotEvent)) :
    (run (step cfg) p schedule).ledger = run (Ledger.step cfg) p.ledger schedule ∧
      ∃ events, (run (step cfg) p schedule).ledger.handedOut = p.ledger.handedOut ++ events ∧
        (run (step cfg) p schedule).engine = run MarketStateEngine.process p.engine events := by
  induction schedule generalizing p with
  | nil => exact ⟨rfl, [], (List.append_nil _).symm, rfl⟩
  | cons act schedule ih =>
      obtain ⟨hledger, events, hhanded, hengine⟩ := ih (p.step cfg act)
      refine ⟨hledger, p.ledger.engine.handedOut cfg act ++ events, ?_, ?_⟩
      · rw [run_cons, hhanded]
        exact List.append_assoc ..
      · rw [run_cons, hengine, run_append]
        rfl

/-- What the consumer has returned is the beginning of what the producer has published. -/
theorem handedOut_prefix {cfg : RingConfig} {l : Ledger HotEvent} (h : l.Balanced)
    (hexplained : l.engine.Explained cfg) :
    l.handedOut <+: l.engine.ring.producer.pushed.map Prod.snd := by
  obtain ⟨a, hsim⟩ := hexplained
  have hpopped : l.handedOut <+: l.engine.ring.consumer.popped := by
    have hconsumer := h.consumer
    cases hthread : l.engine.consumer with
    | idle last =>
        rw [hthread, ConsumerThread.Balanced] at hconsumer
        rw [hconsumer]
    | running call pc =>
        rw [hthread, ConsumerThread.Balanced] at hconsumer
        rw [hconsumer]
        exact List.prefix_append ..
  refine hpopped.trans ?_
  rw [hsim.ring.consumer.popped, hsim.ring.producer.pushed]
  exact hsim.ring.inv.taken_prefix

end Pipeline

/-- **The engine behind the ring.** For every capacity, index strategy and schedule of the two
threads, the book of every instrument is at all times the replay of some of the published
events, from the first on and without a gap. When no call is in progress and the ring is
empty, it is the replay of all the events `push` has accepted. -/
theorem pipeline_replays (cfg : RingConfig) (slots : Nat → HotEvent) (activeCount : Nat)
    (staleTimeoutNs : UInt64) (h : activeCount ≤ MAX)
    (schedule : List (RingEngine.Action HotEvent)) :
    let start : Pipeline N MAX := ⟨.new slots, .new activeCount staleTimeoutNs h⟩
    let pipe := run (Pipeline.step cfg) start schedule
    let published := pipe.ledger.engine.ring.producer.pushed.map Prod.snd
    pipe.ledger.engine = run (RingEngine.step cfg) (.new slots) schedule ∧
      ∃ processed, processed <+: published ∧
        (∀ i st, pipe.engine.state? i = some st → ∀ s p, st.book.quotes s p =
          if InRange N p then latestQuote i s p processed.reverse else 0) ∧
        (pipe.ledger.engine.Idle → pipe.ledger.engine.ring.waiting = [] →
          processed = pipe.ledger.accepted) := by
  intro start pipe published
  obtain ⟨hledger, events, hhanded, hengine⟩ := Pipeline.run_step cfg start schedule
  have hring : pipe.ledger.engine = run (RingEngine.step cfg) (.new slots) schedule :=
    (congrArg Ledger.engine hledger).trans (Ledger.run_engine cfg (.new slots) schedule)
  have hbalanced : pipe.ledger.Balanced := by
    rw [hledger]
    exact Ledger.balanced_run cfg slots schedule
  have hexplained : pipe.ledger.engine.Explained cfg := by
    rw [hring]
    exact (always_of_step (fun _ act hs => hs.step act) (RingEngine.explained_new cfg slots)
      schedule).last
  have hprocessed : pipe.ledger.handedOut = events := hhanded
  refine ⟨hring, events, ?_, ?_, ?_⟩
  · rw [← hprocessed]
    exact Pipeline.handedOut_prefix hbalanced hexplained
  · intro i st hst s p
    have hst' : (run MarketStateEngine.process
        (MarketStateEngine.new activeCount staleTimeoutNs h) events).state? i = some st := by
      rw [← hst]
      exact congrArg (·.state? i) hengine.symm
    exact MarketStateEngine.run_quotes events hst' s p
  · intro hidle hempty
    have hall := hbalanced.idle hexplained hidle
    rw [hempty, List.map_nil, List.append_nil] at hall
    rw [← hprocessed, hall]

/-- Two events published, one of them processed. -/
theorem pipeline_replays_half :
    let start : Pipeline 8 1 := ⟨.new fun _ => .heartbeat 0 0 0 .empty ⟨0⟩, .new 1 0 (by decide)⟩
    let pipe := run (Pipeline.step (.masked 2 false)) start
      [.push (firstBid), .producer, .producer, .producer, .push (snapshotAsk),
        .producer, .producer, .producer, .pop, .consumer, .consumer, .consumer, .consumer]
    ∃ processed, processed <+: pipe.ledger.engine.ring.producer.pushed.map Prod.snd ∧
      ∀ i st, pipe.engine.state? i = some st → ∀ s p, st.book.quotes s p =
        if InRange 8 p then latestQuote i s p processed.reverse else 0 := by
  obtain ⟨-, processed, hprefix, hquotes, -⟩ := pipeline_replays (.masked 2 false)
    (fun _ => .heartbeat 0 0 0 .empty ⟨0⟩) 1 0 (Nat.le_refl 1)
    [.push (firstBid), .producer, .producer, .producer, .push (snapshotAsk),
      .producer, .producer, .producer, .pop, .consumer, .consumer, .consumer, .consumer]
  exact ⟨processed, hprefix, hquotes⟩

end Mantis
