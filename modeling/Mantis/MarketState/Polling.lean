import Mantis.MarketState.Isolation

/-!
# Mantis.MarketState.Polling

A consumer that polls `take_tob` after every event is never out of sync.

The engine compares the best prices with `prev_bid`/`prev_ask`, which it also updates
when one side is empty and nothing is announced. The invariant that makes this safe is
`Synced`: whenever **both** previous prices are present, they are the prices of the
last top of book announced for the instrument. An observation with an empty side
stores a missing price, so the next complete observation differs from it and is
announced.
-/

namespace Mantis

variable {B : Type} [OrderBook B]

namespace InstrumentState

open OrderBook

/-- The prices of the last observation are those of the book. -/
def Observed (st : InstrumentState B) : Prop :=
  st.prevBid = (bid st.book).map Prod.fst ∧ st.prevAsk = (ask st.book).map Prod.fst

/-- An announcement describes a book. -/
structure Describes (tob : TopOfBook) (book : B) : Prop where
  bid : bid book = some (tob.bidPrice, tob.bidQty)
  ask : ask book = some (tob.askPrice, tob.askQty)
  spread : tob.spread = tob.askPrice - tob.bidPrice

variable [LawfulOrderBook B]

/-- The book a check leaves behind gives the same answers. -/
theorem checked_bid (b : B) : bid (bestAsk (bestBid b).1).1 = bid b := by
  rw [LawfulOrderBook.bid_bestAsk, LawfulOrderBook.bid_bestBid]

theorem checked_ask (b : B) : ask (bestAsk (bestBid b).1).1 = ask b := by
  rw [LawfulOrderBook.ask_bestAsk, LawfulOrderBook.ask_bestBid]

theorem checked_ask_answer (b : B) : (bestAsk (bestBid b).1).2 = ask b :=
  LawfulOrderBook.ask_bestBid b

/-- **The check.** Afterwards the prices are observed. An announcement describes the
book; without one, the previous prices are unchanged or one of them is missing. -/
theorem checkBboPriceChange_spec (st : InstrumentState B) (slot : Nat) :
    (st.checkBboPriceChange slot).1.Observed ∧
    (∀ tob, (st.checkBboPriceChange slot).2 = some tob →
      Describes tob (st.checkBboPriceChange slot).1.book ∧ tob.ts = st.lastEventTs) ∧
    ((st.checkBboPriceChange slot).2 = none →
      ((st.checkBboPriceChange slot).1.prevBid = st.prevBid ∧
        (st.checkBboPriceChange slot).1.prevAsk = st.prevAsk) ∨
      (st.checkBboPriceChange slot).1.prevBid = none ∨
      (st.checkBboPriceChange slot).1.prevAsk = none) := by
  have hbid := checked_bid st.book
  have hask := checked_ask st.book
  simp only [checkBboPriceChange]
  simp only [checked_ask_answer]
  split
  · next heq =>
      refine ⟨⟨?_, ?_⟩, fun tob h => (by cases h), fun _ => Or.inl ⟨rfl, rfl⟩⟩
      · rw [hbid]
        exact heq.1.symm
      · rw [hask]
        exact heq.2.symm
  · split
    · next bp bq ap aq hb ha =>
        refine ⟨⟨?_, ?_⟩, ?_, fun h => by cases h⟩
        · exact congrArg (Option.map Prod.fst) hbid.symm
        · exact congrArg (Option.map Prod.fst) hask.symm
        · intro tob h
          cases h
          exact ⟨⟨hbid.trans hb, hask.trans ha, rfl⟩, rfl⟩
    · next hnot =>
        refine ⟨⟨?_, ?_⟩, fun tob h => (by cases h), fun _ => Or.inr ?_⟩
        · exact congrArg (Option.map Prod.fst) hbid.symm
        · exact congrArg (Option.map Prod.fst) hask.symm
        · cases hb : bid st.book with
          | none => exact Or.inl (congrArg (Option.map Prod.fst) hb)
          | some p =>
              cases ha : ask st.book with
              | none => exact Or.inr rfl
              | some q => exact absurd ha (hnot p.1 p.2 q.1 q.2 hb)

omit [LawfulOrderBook B] in
/-- Applying a delta touches neither previous price. -/
theorem applyBookDelta_prev (header : EventHeader) (delta : BookDeltaPayload)
    (st : InstrumentState B) :
    (st.applyBookDelta header delta).prevBid = st.prevBid ∧
      (st.applyBookDelta header delta).prevAsk = st.prevAsk ∧
      (st.applyBookDelta header delta).lastEventTs = header.recvTs := by
  simp only [applyBookDelta, beginSnapshot]
  split <;> exact ⟨rfl, rfl, rfl⟩

omit [OrderBook B] [LawfulOrderBook B] in
theorem endSnapshot_prev (st : InstrumentState B) :
    st.endSnapshot.prevBid = st.prevBid ∧ st.endSnapshot.prevAsk = st.prevAsk ∧
      st.endSnapshot.lastEventTs = st.lastEventTs := by
  simp only [endSnapshot]
  split <;> exact ⟨rfl, rfl, rfl⟩

end InstrumentState

/-! ### One event -/

/-- The events after which the consumer must be in sync: the last delta of a batch once
a snapshot has been received, and every top-of-book event. -/
def HotEvent.Triggers (event : HotEvent) (st : InstrumentState B) : Prop :=
  match event.body with
  | .bookDelta _ =>
      event.header.flags.contains .lastInBatch = true ∧ st.snapshotReceived = true
  | .topOfBook _ => True
  | _ => False

/-- What an event does to the previous prices of its instrument, and what it announces. -/
structure HotEvent.EffectSpec (event : HotEvent) (st st' : InstrumentState B)
    (out : Option TopOfBook) : Prop where
  observed : event.Triggers st' → st'.Observed
  announced : ∀ tob, out = some tob →
    InstrumentState.Describes tob st'.book ∧ st'.Observed ∧ tob.ts = event.header.recvTs
  silent : out = none → (st'.prevBid = st.prevBid ∧ st'.prevAsk = st.prevAsk) ∨
    st'.prevBid = none ∨ st'.prevAsk = none

variable [LawfulOrderBook B]

/-- Ending in a check gives the specification, if nothing before it touched the previous
prices or the timestamp. -/
theorem HotEvent.EffectSpec.of_check {event : HotEvent} {st st' : InstrumentState B}
    (hbid : st'.prevBid = st.prevBid) (hask : st'.prevAsk = st.prevAsk)
    (hts : st'.lastEventTs = event.header.recvTs) (slot : Nat) :
    event.EffectSpec st (st'.checkBboPriceChange slot).1 (st'.checkBboPriceChange slot).2 := by
  obtain ⟨hobserved, hannounced, hsilent⟩ := st'.checkBboPriceChange_spec slot
  refine ⟨fun _ => hobserved, ?_, ?_⟩
  · intro tob htob
    obtain ⟨hdescribes, htime⟩ := hannounced tob htob
    exact ⟨hdescribes, hobserved, htime.trans hts⟩
  · intro hnone
    rw [← hbid, ← hask]
    exact hsilent hnone

omit [LawfulOrderBook B] in
/-- An event without a check announces nothing. -/
theorem HotEvent.EffectSpec.of_quiet {event : HotEvent} {st st' : InstrumentState B}
    (hbid : st'.prevBid = st.prevBid) (hask : st'.prevAsk = st.prevAsk)
    (hquiet : ¬ event.Triggers st') : event.EffectSpec st st' none :=
  ⟨fun h => absurd h hquiet, fun _ h => (by cases h), fun _ => Or.inl ⟨hbid, hask⟩⟩

theorem HotEvent.effect_spec (event : HotEvent) (st : InstrumentState B) :
    event.EffectSpec st (event.effect st).1 (event.effect st).2 := by
  cases hbody : event.body with
  | bookDelta delta =>
      have heffect : event.effect st = InstrumentState.onBookDelta event.header delta
          (event.header.instrumentId.toNat - 1) st := by
        simp only [HotEvent.effect, HotEvent.onInstrument]
        rw [hbody]
      rw [heffect]
      obtain ⟨hbid, hask, hts⟩ := st.applyBookDelta_prev event.header delta
      simp only [InstrumentState.onBookDelta]
      split
      · obtain ⟨hbid', hask', hts'⟩ := (st.applyBookDelta event.header delta).endSnapshot_prev
        split
        · exact .of_check (hbid'.trans hbid) (hask'.trans hask) (hts'.trans hts) _
        · next hnot =>
            refine .of_quiet (hbid'.trans hbid) (hask'.trans hask) fun htrigger => hnot ?_
            simp only [HotEvent.Triggers] at htrigger
            rw [hbody] at htrigger
            exact htrigger.2
      · next hlast =>
          refine .of_quiet hbid hask fun htrigger => hlast ?_
          simp only [HotEvent.Triggers] at htrigger
          rw [hbody] at htrigger
          exact htrigger.1
  | topOfBook payload =>
      have heffect : event.effect st = InstrumentState.onTopOfBook event.header payload
          (event.header.instrumentId.toNat - 1) st := by
        simp only [HotEvent.effect, HotEvent.onInstrument]
        rw [hbody]
      rw [heffect]
      simp only [InstrumentState.onTopOfBook]
      refine .of_check ?_ ?_ ?_ _ <;> rfl
  | trade trade =>
      have heffect : event.effect st = InstrumentState.onTrade event.header trade
          (event.header.instrumentId.toNat - 1) st := by
        simp only [HotEvent.effect, HotEvent.onInstrument]
        rw [hbody]
      rw [heffect]
      exact .of_quiet rfl rfl fun htrigger => by simp [HotEvent.Triggers, hbody] at htrigger
  | _ =>
      have heffect : event.effect st = (st, none) :=
        HotEvent.effect_of_not_isMarket (by simp [HotEvent.isMarket, hbody]) st
      rw [heffect]
      exact .of_quiet rfl rfl fun htrigger => by simp [HotEvent.Triggers, hbody] at htrigger

/-! ### Whole runs -/

namespace MarketStateEngine

open Runs OrderBook

section Generic

variable {MAX : Nat}

/-- Nothing is pending, and two present previous prices are those of the last top of book
emitted for the instrument. -/
structure Synced (f : Feed B MAX) : Prop where
  pending : f.engine.tobChanged = false
  last : ∀ i st b a, f.engine.state? i = some st → st.prevBid = some b → st.prevAsk = some a →
    ∃ tob, (f.emittedFor i).getLast? = some tob ∧ tob.bidPrice = b ∧ tob.askPrice = a

omit [LawfulOrderBook B] in
/-- The state of an instrument after a polled event that names it. -/
theorem Feed.step_state?_self (f : Feed B MAX) (event : HotEvent) :
    (f.step event).engine.state? event.header.instrumentId =
      (f.engine.state? event.header.instrumentId).map fun st => (event.effect st).1 := by
  rw [Feed.step_state?, process_state?, if_pos rfl]

omit [LawfulOrderBook B] in
theorem Feed.step_emittedFor_self {f : Feed B MAX} (h : f.engine.tobChanged = false)
    (event : HotEvent) {st : InstrumentState B}
    (hst : f.engine.state? event.header.instrumentId = some st) :
    (f.step event).emittedFor event.header.instrumentId =
      f.emittedFor event.header.instrumentId ++ (event.effect st).2.toList := by
  rw [Feed.step_emittedFor h, if_pos rfl, hst]
  rfl

/-- **Invariant step.** -/
theorem Synced.step {f : Feed B MAX} (h : Synced f) (event : HotEvent) :
    Synced (f.step event) := by
  refine ⟨f.step_tobChanged event, ?_⟩
  intro i st' b a hst' hb ha
  by_cases hid : event.header.instrumentId = i
  · subst hid
    rw [Feed.step_state?_self] at hst'
    obtain ⟨st, hst, rfl⟩ := Option.map_eq_some_iff.mp hst'
    rw [Feed.step_emittedFor_self h.pending event hst]
    have hspec := event.effect_spec st
    cases hout : (event.effect st).2 with
    | some tob =>
        -- announced just now
        obtain ⟨hdescribes, hobserved, -⟩ := hspec.announced tob hout
        refine ⟨tob, by simp, ?_, ?_⟩
        · rw [hobserved.1, hdescribes.bid] at hb
          exact Option.some.inj hb
        · rw [hobserved.2, hdescribes.ask] at ha
          exact Option.some.inj ha
    | none =>
        rcases hspec.silent hout with ⟨hsameBid, hsameAsk⟩ | hnone | hnone
        · rw [hsameBid] at hb
          rw [hsameAsk] at ha
          simpa using h.last _ st b a hst hb ha
        · rw [hnone] at hb
          cases hb
        · rw [hnone] at ha
          cases ha
  · rw [Feed.step_state?, process_state?, if_neg hid] at hst'
    rw [Feed.step_emittedFor h.pending, if_neg hid, List.append_nil]
    exact h.last i st' b a hst' hb ha

omit [LawfulOrderBook B] in
theorem synced_start (activeCount : Nat) (staleTimeoutNs : UInt64) (h : activeCount ≤ MAX) :
    Synced (.start (new activeCount staleTimeoutNs h : MarketStateEngine B MAX)) := by
  refine ⟨rfl, ?_⟩
  intro i st b a hst hb
  obtain ⟨slot, -, hslot⟩ := Option.map_eq_some_iff.mp hst
  have hdefault : st = .default := by
    rw [← hslot]
    exact Vector.getElem_replicate slot.isLt
  rw [hdefault] at hb
  cases hb

end Generic

/-! ### Array books -/

variable {N MAX : Nat}

/-- The prices of `tob` are the best prices of the book. -/
structure BestPrices (tob : TopOfBook) (book : ArrayBook N) : Prop where
  bid : (bid book).map Prod.fst = some tob.bidPrice
  ask : (ask book).map Prod.fst = some tob.askPrice
  /-- Within the range of the cached index, the highest bid and the lowest ask. -/
  bid_true : N ≤ 65536 → ∃ q, book.IsBestBid tob.bidPrice q
  ask_true : N ≤ 65536 → ∃ q, book.IsBestAsk tob.askPrice q

/-- What an emitted top of book carries, for the event that triggered it and the book it
left. -/
structure Carries (tob : TopOfBook) (event : HotEvent) (book : ArrayBook N) : Prop where
  bid : bid book = some (tob.bidPrice, tob.bidQty)
  ask : ask book = some (tob.askPrice, tob.askQty)
  bid_true : N ≤ 65536 → book.IsBestBid tob.bidPrice tob.bidQty
  ask_true : N ≤ 65536 → book.IsBestAsk tob.askPrice tob.askQty
  spread : tob.spread.toInt = tob.askPrice.toInt - tob.bidPrice.toInt
  instrumentId : tob.instrumentId = event.header.instrumentId
  ts : tob.ts = event.header.recvTs
  /-- No side is empty. -/
  populated : ∀ s, book.Populated s

/-- One polled event keeps the consumer in sync. -/
structure StaysInSync (f : Feed (ArrayBook N) MAX) (event : HotEvent) : Prop where
  /-- After a trigger that leaves both sides populated, the last top of book emitted for
  the instrument has the best prices of its book. -/
  last : ∀ st, (f.step event).engine.state? event.header.instrumentId = some st →
    event.Triggers st → (∀ s, st.book.Populated s) →
    ∃ tob, ((f.step event).emittedFor event.header.instrumentId).getLast? = some tob ∧
      BestPrices tob st.book
  /-- The event emits at most one value, which carries the book it left. -/
  emission : (f.step event).emitted = f.emitted ∨
    ∃ tob st, (f.step event).emitted = f.emitted ++ [tob] ∧
      (f.step event).engine.state? event.header.instrumentId = some st ∧
      Carries tob event st.book

theorem carries_of_describes {tob : TopOfBook} {event : HotEvent} {book : ArrayBook N}
    (h : InstrumentState.Describes tob book)
    (hid : tob.instrumentId = event.header.instrumentId) (hts : tob.ts = event.header.recvTs) :
    Carries tob event book where
  bid := h.bid
  ask := h.ask
  bid_true hN := ArrayBook.isBestBid_of_bid hN h.bid
  ask_true hN := ArrayBook.isBestAsk_of_ask hN h.ask
  spread := by
    have hb := ArrayBook.bid_price h.bid
    have ha := ArrayBook.ask_price h.ask
    rw [h.spread]
    refine I64.toInt_sub ?_
    simp only [I64.Fits]
    omega
  instrumentId := hid
  ts := hts
  populated s := by
    cases s with
    | bid => exact (ArrayBook.bid_isSome_iff book).mp (by rw [h.bid]; rfl)
    | ask => exact (ArrayBook.ask_isSome_iff book).mp (by rw [h.ask]; rfl)

/-- Observed prices of a populated book are present, so the invariant applies to them. -/
theorem Synced.bestPrices {f : Feed (ArrayBook N) MAX} (h : Synced f) {i : InstrumentId}
    {st : InstrumentState (ArrayBook N)} (hst : f.engine.state? i = some st)
    (hobserved : st.Observed) (hpop : ∀ s, st.book.Populated s) :
    ∃ tob, (f.emittedFor i).getLast? = some tob ∧ BestPrices tob st.book := by
  obtain ⟨p, hp⟩ := Option.isSome_iff_exists.mp ((ArrayBook.bid_isSome_iff st.book).mpr (hpop .bid))
  obtain ⟨q, hq⟩ := Option.isSome_iff_exists.mp ((ArrayBook.ask_isSome_iff st.book).mpr (hpop .ask))
  have hb : st.prevBid = some p.1 := by rw [hobserved.1, hp]; rfl
  have ha : st.prevAsk = some q.1 := by rw [hobserved.2, hq]; rfl
  obtain ⟨tob, htob, hbid, hask⟩ := h.last i st p.1 q.1 hst hb ha
  refine ⟨tob, htob, ?_, ?_, fun hN => ⟨p.2, ?_⟩, fun hN => ⟨q.2, ?_⟩⟩
  · rw [hp, hbid]
    rfl
  · rw [hq, hask]
    rfl
  · rw [hbid]
    exact ArrayBook.isBestBid_of_bid hN hp
  · rw [hask]
    exact ArrayBook.isBestAsk_of_ask hN hq

theorem Synced.staysInSync {f : Feed (ArrayBook N) MAX} (h : Synced f) (event : HotEvent) :
    StaysInSync f event := by
  refine ⟨?_, ?_⟩
  · intro st' hst' htrigger hpop
    have hobserved : st'.Observed := by
      rw [Feed.step_state?_self] at hst'
      obtain ⟨st, -, rfl⟩ := Option.map_eq_some_iff.mp hst'
      exact (event.effect_spec st).observed htrigger
    exact (h.step event).bestPrices hst' hobserved hpop
  · rw [Feed.step_emitted h.pending, Feed.step_state?_self]
    cases hst : f.engine.state? event.header.instrumentId with
    | none => exact Or.inl (List.append_nil _)
    | some st =>
        have hemit : ((some st).bind fun st => (event.effect st).2) = (event.effect st).2 := rfl
        rw [hemit]
        cases hout : (event.effect st).2 with
        | none => exact Or.inl (List.append_nil _)
        | some tob =>
            obtain ⟨hdescribes, -, hts⟩ := (event.effect_spec st).announced tob hout
            obtain ⟨slot, hslot, -⟩ := Option.map_eq_some_iff.mp hst
            have hid := HotEvent.effect_instrumentId (slot?_eq_some hslot).2 hout
            exact Or.inr ⟨tob, _, rfl, rfl, carries_of_describes hdescribes hid hts⟩

/-- **A polling consumer is never out of sync.** From a new engine of any size, every
event of every sequence, polled right after, keeps it in sync. -/
theorem polling_in_sync (activeCount : Nat) (staleTimeoutNs : UInt64)
    (hcount : activeCount ≤ MAX) (events : List HotEvent) :
    AllSteps Feed.step StaysInSync
      (.start (new activeCount staleTimeoutNs hcount : MarketStateEngine (ArrayBook N) MAX))
      events := by
  have hall : AllSteps Feed.step (fun _ _ => True)
      (.start (new activeCount staleTimeoutNs hcount : MarketStateEngine (ArrayBook N) MAX))
      events := allSteps_of_forall (fun _ _ => trivial) _
  exact allSteps_of_invariant (P := Synced) (fun _ event h _ => h.step event)
    (fun _ event h _ => h.staysInSync event) (synced_start activeCount staleTimeoutNs hcount) hall

/-- A snapshot of one level a side emits one top of book. -/
theorem polling_in_sync_snapshot :
    (run Feed.step (.start (new 1 0 (by decide) : MarketStateEngine (ArrayBook 4) 2))
        [sampleDelta 1 1 .bid .isSnapshot, sampleDelta 1 2 .ask .lastInBatch]).emitted.length = 1 ∧
    AllSteps Feed.step StaysInSync
      (.start (new 1 0 (by decide) : MarketStateEngine (ArrayBook 4) 2))
      [sampleDelta 1 1 .bid .isSnapshot, sampleDelta 1 2 .ask .lastInBatch] :=
  ⟨by decide, polling_in_sync 1 0 (by decide) _⟩

end MarketStateEngine

end Mantis
