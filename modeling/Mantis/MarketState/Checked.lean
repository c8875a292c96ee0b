import Mantis.MarketState.Engine

/-!
# Mantis.MarketState.Checked

The arithmetic of the market-state engine with overflow checks on: `process`,
`micro_price`, `spread` and the two depths of `book_imbalance`
(`crates/market-state/src/engine.rs`) as a build with checks runs them. A name that ends
in `?` is a function of the source whose plain `+`, `-` and `*` are checked; it returns
`none` where one of them overflows, which is where such a build panics and any other
wraps. Where it returns, it returns what the plain function does (`process?_cases`).
-/

namespace Mantis

/-! ### Checked queries of the book -/

namespace ArrayBook

variable {N : Nat}

/-- The loop of `total_depth`. -/
def totalLoop? (levels : Vector Lots N) (limit : Nat) : List (Fin N) → Lots → Nat → Option Lots
  | [], total, _ => some total
  | i :: is, total, count =>
      if limit ≤ count then some total
      else if 0 < levels.get i then
        match I64.checkedAdd total (levels.get i) with
        | none => none
        | some total => totalLoop? levels limit is total (count + 1)
      else totalLoop? levels limit is total count

/-- The quantity on the best `levels` levels of one side. -/
def totalDepth? (b : ArrayBook N) (side : Side) (levels : Nat) : Option Lots :=
  match side with
  | .bid => totalLoop? b.bids levels (List.finRange N).reverse 0 0
  | .ask => totalLoop? b.asks levels (List.finRange N) 0 0

end ArrayBook

/-! ### Checked events -/

variable {B : Type} [OrderBook B]

namespace InstrumentState

/-- The numerator and the quotient of the volume-weighted price. -/
def weighted? (bp : Ticks) (bq : Lots) (ap : Ticks) (aq : Lots) (total : Lots) : Option Ticks := do
  let left ← I64.checkedMul bp aq
  let right ← I64.checkedMul ap bq
  let sum ← I64.checkedAdd left right
  pure (sum / total)

/-- The volume-weighted price between the best bid and ask. -/
def microPriceOf? (bp : Ticks) (bq : Lots) (ap : Ticks) (aq : Lots) : Option Ticks := do
  let total ← I64.checkedAdd bq aq
  if 0 < total then weighted? bp bq ap aq total else pure (midpoint bp ap)

/-- `check_bbo_price_change`. -/
def checkBboPriceChange? (st : InstrumentState B) (slot : Nat) :
    Option (InstrumentState B × Option TopOfBook) :=
  let (book, bid) := OrderBook.bestBid st.book
  let (book, ask) := OrderBook.bestAsk book
  let st := { st with book }
  let bidPrice := bid.map Prod.fst
  let askPrice := ask.map Prod.fst
  if bidPrice = st.prevBid ∧ askPrice = st.prevAsk then some (st, none)
  else
    let st := { st with prevBid := bidPrice, prevAsk := askPrice }
    match bid, ask with
    | some (bp, bq), some (ap, aq) => do
        let microPrice ← microPriceOf? bp bq ap aq
        let spread ← I64.checkedSub ap bp
        pure (st, some
          { bidPrice := bp
            bidQty := bq
            askPrice := ap
            askQty := aq
            microPrice := microPrice
            spread := spread
            instrumentId := UInt32.ofNat (slot + 1)
            ts := st.lastEventTs })
    | _, _ => some (st, none)

/-- A `BookDelta` event. -/
def onBookDelta? (header : EventHeader) (delta : BookDeltaPayload) (slot : Nat)
    (st : InstrumentState B) : Option (InstrumentState B × Option TopOfBook) :=
  let st := st.applyBookDelta header delta
  if header.flags.contains .lastInBatch then
    let st := st.endSnapshot
    if st.snapshotReceived then st.checkBboPriceChange? slot else some (st, none)
  else some (st, none)

/-- The single-level synthetic book of a `TopOfBook` event. -/
def applyTopOfBook (header : EventHeader) (tob : TopOfBookPayload) (st : InstrumentState B) :
    InstrumentState B :=
  let st := { st with lastEventTs := header.recvTs, snapshotReceived := true }
  let book := OrderBook.clear st.book
  let book := OrderBook.applyDelta book tob.bidPrice tob.bidQty .bid .new
  let book := OrderBook.applyDelta book tob.askPrice tob.askQty .ask .new
  { st with book }

/-- A `TopOfBook` event. -/
def onTopOfBook? (header : EventHeader) (tob : TopOfBookPayload) (slot : Nat)
    (st : InstrumentState B) : Option (InstrumentState B × Option TopOfBook) :=
  (st.applyTopOfBook header tob).checkBboPriceChange? slot

end InstrumentState

/-- What an event does to the state of its instrument, in slot `instrument_id - 1`. -/
def HotEvent.effect? (event : HotEvent) (st : InstrumentState B) :
    Option (InstrumentState B × Option TopOfBook) :=
  let slot := event.header.instrumentId.toNat - 1
  match event.body with
  | .bookDelta delta => InstrumentState.onBookDelta? event.header delta slot st
  | .trade trade => some (InstrumentState.onTrade event.header trade slot st)
  | .topOfBook tob => InstrumentState.onTopOfBook? event.header tob slot st
  | .orderAck | .fill | .orderReject | .timer _ | .heartbeat _ => some (st, none)

/-! ### Checked calls of the engine -/

namespace MarketStateEngine

variable {MAX N : Nat}

/-- Process one event. -/
def process? (e : MarketStateEngine B MAX) (event : HotEvent) : Option (MarketStateEngine B MAX) :=
  match e.slot? event.header.instrumentId with
  | none => some e
  | some slot =>
      match event.effect? (e.instruments.get slot) with
      | none => none
      | some (st, tob) =>
          let e := { e with instruments := e.instruments.set slot st slot.isLt }
          match tob with
          | some tob => some { e with lastTob := some tob, tobChanged := true }
          | none => some e

/-- Store a book, as a query leaves it behind. -/
def setBook (e : MarketStateEngine B MAX) (slot : Fin MAX) (book : B) : MarketStateEngine B MAX :=
  { e with
    instruments := e.instruments.set slot { e.instruments.get slot with book } slot.isLt }

/-- Both best prices of an instrument, bid first, and the engine afterwards; a query ends
at the first side that is empty. -/
def bestPrices (e : MarketStateEngine B MAX) (inst : InstrumentId) :
    MarketStateEngine B MAX × Option ((Ticks × Lots) × (Ticks × Lots)) :=
  match e.slot? inst with
  | none => (e, none)
  | some slot =>
      match OrderBook.bestBid (e.instruments.get slot).book with
      | (book, none) => (e.setBook slot book, none)
      | (book, some bid) =>
          match OrderBook.bestAsk book with
          | (book, none) => (e.setBook slot book, none)
          | (book, some ask) => (e.setBook slot book, some (bid, ask))

/-- Micro price: volume-weighted fair value between best bid and ask. -/
def microPrice? (e : MarketStateEngine B MAX) (inst : InstrumentId) :
    Option (MarketStateEngine B MAX × Option Ticks) :=
  match e.bestPrices inst with
  | (e, none) => some (e, none)
  | (e, some ((bp, bq), (ap, aq))) => do
      let total ← I64.checkedAdd bq aq
      if total = 0 then pure (e, none)
      else do
        let price ← InstrumentState.weighted? bp bq ap aq total
        pure (e, some price)

/-- Spread in ticks. -/
def spread? (e : MarketStateEngine B MAX) (inst : InstrumentId) :
    Option (MarketStateEngine B MAX × Option Ticks) :=
  match e.bestPrices inst with
  | (e, none) => some (e, none)
  | (e, some ((bp, _), (ap, _))) => do
      let spread ← I64.checkedSub ap bp
      pure (e, some spread)

/-- The two depths whose ratio `book_imbalance` returns; the ratio is in `f64`. -/
def bookImbalance? (e : MarketStateEngine (ArrayBook N) MAX) (inst : InstrumentId)
    (levels : Nat) : Option (Option (Lots × Lots)) :=
  match e.slot? inst with
  | none => some none
  | some slot => do
      let book := (e.instruments.get slot).book
      let bd ← book.totalDepth? .bid levels
      let ad ← book.totalDepth? .ask levels
      pure (some (bd, ad))

end MarketStateEngine

/-! ### Checked functions agree with the plain ones -/

namespace InstrumentState

theorem weighted?_cases (bp : Ticks) (bq : Lots) (ap : Ticks) (aq : Lots) (total : Lots) :
    weighted? bp bq ap aq total = none ∨
      weighted? bp bq ap aq total = some ((bp * aq + ap * bq) / total) := by
  simp only [weighted?]
  rcases I64.checkedMul_cases bp aq with h | h <;> rw [h]
  · exact Or.inl rfl
  · rcases I64.checkedMul_cases ap bq with h | h <;> rw [h]
    · exact Or.inl rfl
    · rcases I64.checkedAdd_cases (bp * aq) (ap * bq) with h | h
      · exact Or.inl (congrArg (Option.bind · _) h)
      · exact Or.inr (congrArg (Option.bind · _) h)

theorem microPriceOf?_cases (bp : Ticks) (bq : Lots) (ap : Ticks) (aq : Lots) :
    microPriceOf? bp bq ap aq = none ∨
      microPriceOf? bp bq ap aq = some (microPriceOf bp bq ap aq) := by
  simp only [microPriceOf?, microPriceOf]
  rcases I64.checkedAdd_cases bq aq with h | h <;> rw [h]
  · exact Or.inl rfl
  · rw [Option.bind_eq_bind, Option.bind_some]
    split
    · exact weighted?_cases bp bq ap aq (bq + aq)
    · exact Or.inr rfl

theorem checkBboPriceChange?_cases (st : InstrumentState B) (slot : Nat) :
    st.checkBboPriceChange? slot = none ∨
      st.checkBboPriceChange? slot = some (st.checkBboPriceChange slot) := by
  simp only [checkBboPriceChange?, checkBboPriceChange]
  generalize (OrderBook.bestBid st.book).2 = bid
  generalize (OrderBook.bestAsk (OrderBook.bestBid st.book).1).2 = ask
  split
  · exact Or.inr rfl
  · rcases bid with _ | ⟨bp, bq⟩
    · exact Or.inr rfl
    · rcases ask with _ | ⟨ap, aq⟩
      · exact Or.inr rfl
      · rcases microPriceOf?_cases bp bq ap aq with h | h <;> simp only [h]
        · exact Or.inl rfl
        · rcases I64.checkedSub_cases ap bp with h | h <;> simp only [h]
          · exact Or.inl rfl
          · exact Or.inr rfl

end InstrumentState

theorem HotEvent.effect?_cases (event : HotEvent) (st : InstrumentState B) :
    event.effect? st = none ∨ event.effect? st = some (event.effect st) := by
  simp only [effect?, effect, onInstrument]
  cases event.body with
  | bookDelta delta =>
      simp only [InstrumentState.onBookDelta?, InstrumentState.onBookDelta]
      split
      · split
        · exact InstrumentState.checkBboPriceChange?_cases _ _
        · exact Or.inr rfl
      · exact Or.inr rfl
  | topOfBook tob => exact InstrumentState.checkBboPriceChange?_cases _ _
  | trade _ => exact Or.inr rfl
  | orderAck => exact Or.inr rfl
  | fill => exact Or.inr rfl
  | orderReject => exact Or.inr rfl
  | timer _ => exact Or.inr rfl
  | heartbeat _ => exact Or.inr rfl

namespace MarketStateEngine

variable {MAX : Nat}

/-- **Checks only stop.** A checked event does what the plain one does, or overflows. -/
theorem process?_cases (e : MarketStateEngine B MAX) (event : HotEvent) :
    e.process? event = none ∨ e.process? event = some (e.process event) := by
  simp only [process?]
  cases hslot : e.slot? event.header.instrumentId with
  | none =>
      rw [process_of_invalid hslot]
      exact Or.inr rfl
  | some slot =>
      rw [process_of_slot hslot]
      dsimp only
      rcases event.effect?_cases (e.instruments.get slot) with h | h <;> rw [h]
      · exact Or.inl rfl
      · dsimp only
        cases (event.effect (e.instruments.get slot)).2 with
        | none => exact Or.inr rfl
        | some tob => exact Or.inr rfl

theorem process?_isSome {e : MarketStateEngine B MAX} {event : HotEvent}
    (h : ∀ st, e.state? event.header.instrumentId = some st → (event.effect? st).isSome) :
    (e.process? event).isSome := by
  simp only [process?]
  cases hslot : e.slot? event.header.instrumentId with
  | none => rfl
  | some slot =>
      have hstate : e.state? event.header.instrumentId = some (e.instruments.get slot) := by
        rw [state?, hslot]
        rfl
      obtain ⟨r, hr⟩ := Option.isSome_iff_exists.mp (h _ hstate)
      dsimp only
      rw [hr]
      dsimp only
      split <;> rfl

/-! ### Calls of the engine -/

variable {N : Nat}

/-- A call of one of the methods with `i64` arithmetic. -/
inductive Call
  | process (event : HotEvent)
  | microPrice (inst : InstrumentId)
  | spread (inst : InstrumentId)
  | bookImbalance (inst : InstrumentId) (levels : Nat)

/-- The event of a call that processes one. -/
def Call.event? : Call → Option HotEvent
  | .process event => some event
  | .microPrice _ | .spread _ | .bookImbalance _ _ => none

/-- The engine after a call, `none` if the call overflows. -/
def call? (e : MarketStateEngine (ArrayBook N) MAX) :
    Call → Option (MarketStateEngine (ArrayBook N) MAX)
  | .process event => e.process? event
  | .microPrice inst => (e.microPrice? inst).map Prod.fst
  | .spread inst => (e.spread? inst).map Prod.fst
  | .bookImbalance inst levels => (e.bookImbalance? inst levels).map fun _ => e

/-- No call overflows, whenever the queries between the events are made, whichever they are
and however many. -/
def Safe (e : MarketStateEngine (ArrayBook N) MAX) (events : List HotEvent) : Prop :=
  ∀ calls : List Call, calls.filterMap Call.event? = events → (calls.foldlM call? e).isSome

end MarketStateEngine

end Mantis
