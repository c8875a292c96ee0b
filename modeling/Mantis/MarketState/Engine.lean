import Mantis.Lib.Runs
import Mantis.MarketState.ArrayBook

/-!
# Mantis.MarketState.Engine

The market-state engine (`crates/market-state/src/engine.rs`): a passive state machine
from events to order books and top-of-book changes.

Each event kind the engine processes is a function of one `InstrumentState`
(`onBookDelta`, `onTrade`, `onTopOfBook`) that returns the new state and the top of
book to announce, if any. `process` looks up the slot of the event's instrument,
applies that function to it and stores the announcement in the shared `lastTob`.
-/

namespace Mantis

/-- Last trade information. -/
structure TradeInfo where
  price : Ticks
  qty : Lots
  side : Side
  ts : Timestamp
  deriving DecidableEq, Repr

/-- Top-of-book state emitted on a change of the best prices. -/
structure TopOfBook where
  bidPrice : Ticks
  bidQty : Lots
  askPrice : Ticks
  askQty : Lots
  microPrice : Ticks
  spread : Ticks
  instrumentId : InstrumentId
  ts : Timestamp
  deriving DecidableEq, Repr

/-- Per-instrument state managed by the engine. -/
structure InstrumentState (B : Type) where
  book : B
  prevBid : Option Ticks
  prevAsk : Option Ticks
  lastTrade : Option TradeInfo
  lastEventTs : Timestamp
  seq : SeqNum
  snapshotReceived : Bool
  inSnapshot : Bool
  deriving DecidableEq

variable {B : Type} [OrderBook B]

namespace InstrumentState

def default : InstrumentState B := ⟨OrderBook.default, none, none, none, 0, 0, false, false⟩

/-- `i64::midpoint`: the average, rounded toward zero. -/
def midpoint (a b : Ticks) : Ticks := Int64.ofInt ((a.toInt + b.toInt).tdiv 2)

/-- The volume-weighted price between the best bid and ask. -/
def microPriceOf (bp : Ticks) (bq : Lots) (ap : Ticks) (aq : Lots) : Ticks :=
  let total := bq + aq
  if 0 < total then (bp * aq + ap * bq) / total else midpoint bp ap

/-- `check_bbo_price_change`: announce the top of book if both sides exist and at least
one price differs from the previous observation. -/
def checkBboPriceChange (st : InstrumentState B) (slot : Nat) :
    InstrumentState B × Option TopOfBook :=
  let (book, bid) := OrderBook.bestBid st.book
  let (book, ask) := OrderBook.bestAsk book
  let st := { st with book }
  let bidPrice := bid.map Prod.fst
  let askPrice := ask.map Prod.fst
  if bidPrice = st.prevBid ∧ askPrice = st.prevAsk then (st, none)
  else
    let st := { st with prevBid := bidPrice, prevAsk := askPrice }
    match bid, ask with
    | some (bp, bq), some (ap, aq) =>
        (st, some
          { bidPrice := bp
            bidQty := bq
            askPrice := ap
            askQty := aq
            microPrice := microPriceOf bp bq ap aq
            spread := ap - bp
            instrumentId := UInt32.ofNat (slot + 1)
            ts := st.lastEventTs })
    | _, _ => (st, none)

/-- The snapshot flag clears the book and enters snapshot mode. -/
def beginSnapshot (st : InstrumentState B) (flags : EventFlags) : InstrumentState B :=
  if flags.contains .isSnapshot then
    { st with book := OrderBook.clear st.book, inSnapshot := true, snapshotReceived := false }
  else st

/-- The last event of a batch completes an open snapshot. -/
def endSnapshot (st : InstrumentState B) : InstrumentState B :=
  if st.inSnapshot then { st with inSnapshot := false, snapshotReceived := true } else st

/-- The part of a `BookDelta` event that every delta goes through. -/
def applyBookDelta (header : EventHeader) (delta : BookDeltaPayload) (st : InstrumentState B) :
    InstrumentState B :=
  let st := { st with lastEventTs := header.recvTs, seq := header.seq }
  let st := st.beginSnapshot header.flags
  { st with book := OrderBook.applyDelta st.book delta.price delta.qty delta.side delta.action }

/-- A `BookDelta` event. -/
def onBookDelta (header : EventHeader) (delta : BookDeltaPayload) (slot : Nat)
    (st : InstrumentState B) : InstrumentState B × Option TopOfBook :=
  let st := st.applyBookDelta header delta
  if header.flags.contains .lastInBatch then
    let st := st.endSnapshot
    if st.snapshotReceived then st.checkBboPriceChange slot else (st, none)
  else (st, none)

/-- A `Trade` event. -/
def onTrade (header : EventHeader) (trade : TradePayload) (_slot : Nat)
    (st : InstrumentState B) : InstrumentState B × Option TopOfBook :=
  ({ st with
      lastEventTs := header.recvTs
      lastTrade := some ⟨trade.price, trade.qty, trade.aggressor, header.recvTs⟩ }, none)

/-- A `TopOfBook` event: a single-level synthetic book, announced immediately. -/
def onTopOfBook (header : EventHeader) (tob : TopOfBookPayload) (slot : Nat)
    (st : InstrumentState B) : InstrumentState B × Option TopOfBook :=
  let st := { st with lastEventTs := header.recvTs, snapshotReceived := true }
  let book := OrderBook.clear st.book
  let book := OrderBook.applyDelta book tob.bidPrice tob.bidQty .bid .new
  let book := OrderBook.applyDelta book tob.askPrice tob.askQty .ask .new
  let st := { st with book }
  st.checkBboPriceChange slot

/-- A snapshot delta is applied to a cleared book, in snapshot mode. -/
theorem applyBookDelta_of_snapshot {header : EventHeader}
    (h : header.flags.contains .isSnapshot = true) (delta : BookDeltaPayload)
    (st : InstrumentState B) :
    st.applyBookDelta header delta =
      { st with
        book := OrderBook.applyDelta (OrderBook.clear st.book) delta.price delta.qty delta.side
          delta.action
        lastEventTs := header.recvTs
        seq := header.seq
        snapshotReceived := false
        inSnapshot := true } := by
  simp only [applyBookDelta, beginSnapshot]
  rw [if_pos h]

/-- The check asks the book for its best prices and keeps the snapshot state. -/
theorem checkBboPriceChange_keeps (st : InstrumentState B) (slot : Nat) :
    (st.checkBboPriceChange slot).1.book =
        (OrderBook.bestAsk (OrderBook.bestBid st.book).1).1 ∧
      (st.checkBboPriceChange slot).1.snapshotReceived = st.snapshotReceived ∧
      (st.checkBboPriceChange slot).1.inSnapshot = st.inSnapshot := by
  simp only [checkBboPriceChange]
  split
  · exact ⟨rfl, rfl, rfl⟩
  · split <;> exact ⟨rfl, rfl, rfl⟩

end InstrumentState

/-- What an event does to the state of its instrument; `none` for the kinds the engine
does not process. -/
def HotEvent.onInstrument (B : Type) [OrderBook B] (event : HotEvent) :
    Option (Nat → InstrumentState B → InstrumentState B × Option TopOfBook) :=
  match event.body with
  | .bookDelta delta => some (InstrumentState.onBookDelta event.header delta)
  | .trade trade => some (InstrumentState.onTrade event.header trade)
  | .topOfBook tob => some (InstrumentState.onTopOfBook event.header tob)
  | .orderAck | .fill | .orderReject | .timer _ | .heartbeat _ => none

/-! ### The engine -/

/-- Venue-agnostic market-state engine over `MAX` slots; `new` asserts the bound on the
active instruments. -/
structure MarketStateEngine (B : Type) (MAX : Nat) where
  instruments : Vector (InstrumentState B) MAX
  activeCount : Nat
  staleTimeoutNs : UInt64
  tobChanged : Bool
  lastTob : Option TopOfBook
  activeCount_le : activeCount ≤ MAX
  deriving DecidableEq

namespace MarketStateEngine

variable {MAX : Nat}

/-- A new engine for the instruments `1..=activeCount`. -/
def new (activeCount : Nat) (staleTimeoutNs : UInt64) (h : activeCount ≤ MAX) :
    MarketStateEngine B MAX :=
  ⟨Vector.replicate MAX .default, activeCount, staleTimeoutNs, false, none, h⟩

/-- The slot of an instrument id, `none` when the id is `0` or above `active_count`. -/
def slot? (e : MarketStateEngine B MAX) (inst : InstrumentId) : Option (Fin MAX) :=
  let raw := inst.toNat
  if h : raw = 0 ∨ e.activeCount < raw then none
  else some ⟨raw - 1, by have := e.activeCount_le; omega⟩

/-- Process one event. It is what a build without overflow checks runs, where the plain `+`, `-`
and `*` wrap; `process?` is the one with them. -/
def process (e : MarketStateEngine B MAX) (event : HotEvent) : MarketStateEngine B MAX :=
  match event.onInstrument B with
  | none => e
  | some update =>
      match e.slot? event.header.instrumentId with
      | none => e
      | some slot =>
          let (st, tob) := update slot (e.instruments.get slot)
          let e := { e with instruments := e.instruments.set slot st slot.isLt }
          match tob with
          | some tob => { e with lastTob := some tob, tobChanged := true }
          | none => e

/-- Take the last top of book if a change was detected. -/
def takeTob (e : MarketStateEngine B MAX) : MarketStateEngine B MAX × Option TopOfBook :=
  if e.tobChanged then ({ e with tobChanged := false }, e.lastTob) else (e, none)

/-- The state of an instrument, if its id is valid. -/
def state? (e : MarketStateEngine B MAX) (inst : InstrumentId) : Option (InstrumentState B) :=
  (e.slot? inst).map e.instruments.get

/-- The initial snapshot has been received; `false` for an invalid id. -/
def isReady (e : MarketStateEngine B MAX) (inst : InstrumentId) : Bool :=
  match e.state? inst with
  | some st => st.snapshotReceived
  | none => false

end MarketStateEngine

/-! ### One event -/

/-- What an event does for the instrument it names, on its own. -/
def HotEvent.effect (event : HotEvent) (st : InstrumentState B) :
    InstrumentState B × Option TopOfBook :=
  match event.onInstrument B with
  | some update => update (event.header.instrumentId.toNat - 1) st
  | none => (st, none)

namespace MarketStateEngine

section

variable {B : Type} {MAX : Nat} {e : MarketStateEngine B MAX}

theorem slot?_eq_some {inst : InstrumentId} {slot : Fin MAX} (h : e.slot? inst = some slot) :
    slot.val = inst.toNat - 1 ∧ inst.toNat ≠ 0 := by
  simp only [slot?] at h
  split at h
  · cases h
  · next hrange =>
      cases h
      exact ⟨rfl, fun h0 => hrange (Or.inl h0)⟩

/-- Distinct instruments have distinct slots. -/
theorem slot?_inj {i j : InstrumentId} {slot : Fin MAX} (hi : e.slot? i = some slot)
    (hj : e.slot? j = some slot) : i = j := by
  obtain ⟨hi, hi0⟩ := slot?_eq_some hi
  obtain ⟨hj, hj0⟩ := slot?_eq_some hj
  exact UInt32.toNat_inj.mp (by omega)

/-- Only the number of active instruments decides which ids are valid. -/
theorem slot?_congr {e' : MarketStateEngine B MAX} (h : e'.activeCount = e.activeCount)
    (i : InstrumentId) : e'.slot? i = e.slot? i := by
  simp only [slot?, h]

theorem takeTob_tobChanged (e : MarketStateEngine B MAX) : e.takeTob.1.tobChanged = false := by
  simp only [takeTob]
  split
  · rfl
  · next h => simpa using h

theorem takeTob_state? (e : MarketStateEngine B MAX) (i : InstrumentId) :
    e.takeTob.1.state? i = e.state? i := by
  simp only [takeTob]
  split <;> rfl

end

variable {MAX : Nat} {e : MarketStateEngine B MAX}

theorem process_of_invalid {event : HotEvent} (h : e.slot? event.header.instrumentId = none) :
    e.process event = e := by
  simp only [process]
  split
  · rfl
  · rw [h]

theorem process_of_slot {event : HotEvent} {slot : Fin MAX}
    (h : e.slot? event.header.instrumentId = some slot) :
    e.process event =
      { e with
        instruments := e.instruments.set slot (event.effect (e.instruments.get slot)).1 slot.isLt
        lastTob := (event.effect (e.instruments.get slot)).2.or e.lastTob
        tobChanged := (event.effect (e.instruments.get slot)).2.isSome || e.tobChanged } := by
  cases hupdate : event.onInstrument B with
  | none =>
      have heffect : event.effect (e.instruments.get slot) = (e.instruments.get slot, none) := by
        simp only [HotEvent.effect]
        rw [hupdate]
      have hset : e.instruments.set slot (e.instruments.get slot) slot.isLt = e.instruments :=
        Vector.set_getElem_self slot.isLt
      simp only [process]
      rw [hupdate, heffect]
      dsimp only
      rw [hset]
      rfl
  | some update =>
      have heffect : event.effect (e.instruments.get slot) =
          update slot (e.instruments.get slot) := by
        simp only [HotEvent.effect]
        rw [hupdate, (slot?_eq_some h).1]
      simp only [process]
      rw [hupdate, h, heffect]
      dsimp only
      cases (update slot (e.instruments.get slot)).2 <;> rfl

theorem process_activeCount (e : MarketStateEngine B MAX) (event : HotEvent) :
    (e.process event).activeCount = e.activeCount := by
  cases h : e.slot? event.header.instrumentId with
  | none => rw [process_of_invalid h]
  | some slot => rw [process_of_slot h]

/-- **One event, one instrument.** Processing an event changes the state of the
instrument it names by its effect, and no other. -/
theorem process_state? (e : MarketStateEngine B MAX) (event : HotEvent) (i : InstrumentId) :
    (e.process event).state? i =
      if event.header.instrumentId = i then (e.state? i).map fun st => (event.effect st).1
      else e.state? i := by
  have hslot := slot?_congr (process_activeCount e event) i
  simp only [state?]
  rw [hslot]
  cases hev : e.slot? event.header.instrumentId with
  | none =>
      rw [process_of_invalid hev]
      split
      · next heq =>
          rw [← heq, hev]
          rfl
      · rfl
  | some slot =>
      rw [process_of_slot hev]
      split
      · next heq =>
          rw [← heq, hev]
          show some _ = some _
          exact congrArg some (Vector.getElem_set_self slot.isLt)
      · next hne =>
          cases hi : e.slot? i with
          | none => rfl
          | some slot' =>
              have hdiff : slot.val ≠ slot'.val := fun hval =>
                hne (slot?_inj hev (hi.trans (by rw [Fin.ext hval])))
              show some _ = some _
              exact congrArg some (Vector.getElem_set_ne slot.isLt slot'.isLt hdiff)

theorem run_process_slot? (e : MarketStateEngine B MAX) (events : List HotEvent)
    (i : InstrumentId) : (Runs.run process e events).slot? i = e.slot? i := by
  induction events generalizing e with
  | nil => rfl
  | cons event events ih =>
      rw [Runs.run_cons, ih]
      exact slot?_congr (process_activeCount e event) i

/-- The last event of a run acts on some state of the instrument it names. -/
theorem run_process_concat (event : HotEvent)
    (h : (e.slot? event.header.instrumentId).isSome) (events : List HotEvent) :
    ∃ st, (Runs.run process e (events ++ [event])).state? event.header.instrumentId =
      some (event.effect st).1 := by
  obtain ⟨slot, hslot⟩ := Option.isSome_iff_exists.mp h
  refine ⟨(Runs.run process e events).instruments.get slot, ?_⟩
  have hstate : (Runs.run process e events).state? event.header.instrumentId =
      some ((Runs.run process e events).instruments.get slot) := by
    simp only [state?]
    rw [run_process_slot?, hslot]
    rfl
  rw [Runs.run_append, Runs.run_cons, Runs.run_nil, process_state?, if_pos rfl, hstate]
  rfl

/-- What `take_tob` returns right after an event, when nothing was pending: the effect
of the event on the instrument it names. -/
theorem takeTob_process {e : MarketStateEngine B MAX} (h : e.tobChanged = false)
    (event : HotEvent) :
    (e.process event).takeTob.2 =
      (e.state? event.header.instrumentId).bind fun st => (event.effect st).2 := by
  simp only [state?]
  cases hev : e.slot? event.header.instrumentId with
  | none =>
      rw [process_of_invalid hev, takeTob, h]
      rfl
  | some slot =>
      rw [process_of_slot hev]
      show _ = (event.effect (e.instruments.get slot)).2
      simp only [takeTob]
      cases (event.effect (e.instruments.get slot)).2 with
      | none => simp [h]
      | some tob => rfl

/-! ### A consumer that polls after every event -/

/-- The engine together with everything `take_tob` has returned so far. -/
structure Feed (B : Type) (MAX : Nat) where
  engine : MarketStateEngine B MAX
  emitted : List TopOfBook

/-- Process one event, then poll. -/
def Feed.step (f : Feed B MAX) (event : HotEvent) : Feed B MAX :=
  let (engine, tob) := (f.engine.process event).takeTob
  ⟨engine, f.emitted ++ tob.toList⟩

/-- Nothing emitted yet. -/
def Feed.start (e : MarketStateEngine B MAX) : Feed B MAX := ⟨e, []⟩

theorem Feed.step_state? (f : Feed B MAX) (event : HotEvent) (i : InstrumentId) :
    (f.step event).engine.state? i = (f.engine.process event).state? i :=
  takeTob_state? _ i

theorem Feed.step_tobChanged (f : Feed B MAX) (event : HotEvent) :
    (f.step event).engine.tobChanged = false := takeTob_tobChanged _

theorem Feed.step_emitted {f : Feed B MAX} (h : f.engine.tobChanged = false) (event : HotEvent) :
    (f.step event).emitted = f.emitted ++
      ((f.engine.state? event.header.instrumentId).bind fun st => (event.effect st).2).toList := by
  show f.emitted ++ (f.engine.process event).takeTob.2.toList = _
  rw [takeTob_process h]

/-- Everything emitted for one instrument, oldest first. -/
def Feed.emittedFor (f : Feed B MAX) (i : InstrumentId) : List TopOfBook :=
  f.emitted.filter fun tob => tob.instrumentId == i

end MarketStateEngine

end Mantis
