import Mantis.Lib.Runs
import Mantis.Tape.EngineBook

/-!
# The engine thread

The engine thread drains the two feed rings in turn, first the shares and then the
references, applies each event to the books of its instrument, and passes telemetry on
(`engineThread` in `main.nim`). While a book is being cleared and refilled, which it takes
to last as long as the deltas have the time of the clear, it says nothing about it.

The counters of the thread and its window are a Nim `int` and are numbers without a bound
here: where they leave 64 bits, Nim's checked arithmetic raises and the thread is gone.
-/

namespace Mantis

namespace Tape

open FloatOps (thousand)

/-! ### Events and configuration -/

/-- What the engine thread reads of an event. -/
structure FeedEvent where
  kind : EventKind
  instrumentId : UInt32
  localNs : Int64
  localEpochMs : Int64
  price : Float64
  size : Float64
  side : UInt8
  flags : UInt8
  priceMilli : PriceMilli
  seqNo : UInt32
  bnEventTimeMs : Int64
  bnTradeTimeMs : Int64
  bnBid : Float64
  bnAsk : Float64
  bnBidQty : Float64
  bnAskQty : Float64
  deriving DecidableEq

/-- `SideBuy`. -/
def sideBuy : UInt8 := 0

/-- `SideSell`. -/
def sideSell : UInt8 := 1

/-- `FlagLastInBatch`. -/
def flagLastInBatch : UInt8 := 1

/-- The shares have a book, the references a feed of best prices and depth. -/
inductive InstrumentKind
  | pmUpDown | reference
  deriving DecidableEq, Repr

/-- The kinds of the registered instruments, and the market's window. -/
structure EngineConfig where
  instruments : List InstrumentKind
  count_le : instruments.length ≤ 16
  windowStart : Int
  duration : Int

def EngineConfig.isRef (cfg : EngineConfig) (idx : Nat) : Bool :=
  cfg.instruments[idx]? = some .reference

/-- The middle, bid and ask last heard of. -/
structure Btc where
  mid : Float64
  bid : Float64
  ask : Float64
  deriving DecidableEq

section

variable (ops : EngineOps)

/-- The phases end at 10, 70, 90 and 100 percent of the window. -/
def getPhase (elapsed : Float64) (duration : Int) : Phase :=
  let part := ops.div elapsed (ops.ofInt duration)
  if ops.lt elapsed 0 then .preOpen
  else if ops.le part 0x3FB999999999999A then .open
  else if ops.le part 0x3FE6666666666666 then .mid
  else if ops.le part 0x3FECCCCCCCCCCCCD then .late
  else if ops.le part FloatOps.one then .final
  else .postClose

/-- The seconds since the window opened. -/
def elapsed (cfg : EngineConfig) (ev : FeedEvent) : Float64 :=
  ops.div (ops.ofInt (ev.localEpochMs.toInt - cfg.windowStart * 1000)) thousand

/-- The event that says what a book shows. -/
def telemetryEvent (cfg : EngineConfig) (ev : FeedEvent) (telKind : TelemetryKind) (view : View)
    (btc : Btc) : TelemetryEvent where
  kind := telKind
  phase := getPhase ops (elapsed ops cfg ev) cfg.duration
  localNs := ev.localNs
  localEpochMs := ev.localEpochMs
  bidPrice := view.bidPrice
  askPrice := view.askPrice
  bidSize := view.bidSize
  askSize := view.askSize
  spread := view.spread
  weightedMid := view.weightedMid
  bidLevels := view.bidLevels
  askLevels := view.askLevels
  btcMid := btc.mid
  btcBid := btc.bid
  btcAsk := btc.ask
  evKind := ev.kind
  instId := ev.instrumentId
  tradePrice := ev.price
  tradeSize := ev.size
  tradeSide := ev.side
  flags := ev.flags
  seqNo := ev.seqNo
  bnEventTimeMs := ev.bnEventTimeMs
  bnTradeTimeMs := ev.bnTradeTimeMs
  bnBidQty := ev.bnBidQty
  bnAskQty := ev.bnAskQty

/-- Both prices are there and do not cross. -/
def validBbo (bbo : Float64 × Float64) : Bool :=
  ops.lt 0 bbo.1 && ops.lt 0 bbo.2 && ops.lt bbo.1 bbo.2

/-- There was a best bid, and it or the ask is another now. -/
def changedBbo (last bbo : Float64 × Float64) : Bool :=
  ops.lt 0 last.1 && (!ops.eq bbo.1 last.1 || !ops.eq bbo.2 last.2)

end

/-! ### The thread -/

/-- `emitted` records what is passed to the telemetry ring. -/
structure EngineState where
  running : Bool
  books : Vector EngineBook 16
  refBooks : Vector BnBook 16
  btc : Btc
  lastBbo : Vector (Float64 × Float64) 16
  lastBboMid : Vector Float64 16
  lastBboDir : Vector Int 16
  snapshotNs : Vector Int64 16
  bboChanges : Nat
  priceReversals : Nat
  bnBookUpdates : Nat
  bnBboMatches : Nat
  bnBboMismatches : Nat
  emitted : List TelemetryEvent

def initEngine : EngineState where
  running := true
  books := Vector.replicate 16 initEngineBook
  refBooks := Vector.replicate 16 initBnBook
  btc := ⟨0, 0, 0⟩
  lastBbo := Vector.replicate 16 (0, 0)
  lastBboMid := Vector.replicate 16 0
  lastBboDir := Vector.replicate 16 0
  snapshotNs := Vector.replicate 16 0
  bboChanges := 0
  priceReversals := 0
  bnBookUpdates := 0
  bnBboMatches := 0
  bnBboMismatches := 0
  emitted := []

/-- The book an event is shown with; an instrument without one has the first. -/
def bookIdx (ev : FeedEvent) : Fin 16 :=
  if h : ev.instrumentId.toNat < 16 then ⟨ev.instrumentId.toNat, h⟩ else 0

namespace EngineState

variable (ops : EngineOps) (cfg : EngineConfig)

def emitTelemetry (s : EngineState) (ev : FeedEvent) (telKind : TelemetryKind) : EngineState :=
  if cfg.isRef ev.instrumentId.toNat then
    let view := (s.refBooks.get (bookIdx ev)).view ops
    { s with emitted := s.emitted ++ [telemetryEvent ops cfg ev telKind view s.btc] }
  else
    -- asking for the best prices may scan, so the book is written back
    let shown := (s.books.get (bookIdx ev)).view ops
    { s with
      books := s.books.set (bookIdx ev) shown.1
      emitted := s.emitted ++ [telemetryEvent ops cfg ev telKind shown.2 s.btc] }

/-- Another best bid or ask: count it, and a turn of the middle. -/
def countChange (s : EngineState) (i : Fin 16) (bp ap : Float64) : EngineState :=
  let newMid := ops.div (ops.add bp ap) EngineOps.two
  let dir : Int :=
    if ops.lt (s.lastBboMid.get i) newMid then 1
    else if ops.lt newMid (s.lastBboMid.get i) then -1
    else 0
  let known := ops.lt 0 (s.lastBboMid.get i)
  { s with
    bboChanges := s.bboChanges + 1
    priceReversals :=
      if known ∧ dir ≠ 0 ∧ s.lastBboDir.get i ≠ 0 ∧ dir ≠ s.lastBboDir.get i then
        s.priceReversals + 1
      else s.priceReversals
    lastBboDir := if known ∧ dir ≠ 0 then s.lastBboDir.set i dir else s.lastBboDir
    lastBboMid := s.lastBboMid.set i newMid }

/-- Announce best prices that are not the last ones. -/
def announce (s : EngineState) (i : Fin 16) (ev : FeedEvent) (bbo : Float64 × Float64) :
    EngineState :=
  if changedBbo ops (s.lastBbo.get i) bbo then
    (s.countChange ops i bbo.1 bbo.2).emitTelemetry ops cfg ev .topOfBook
  else s

/-- Remember best prices that are valid. -/
def observe (s : EngineState) (i : Fin 16) (ev : FeedEvent) (bbo : Float64 × Float64) :
    EngineState :=
  if validBbo ops bbo then
    let s := s.announce ops cfg i ev bbo
    { s with lastBbo := s.lastBbo.set i bbo }
  else s

/-- Outside a snapshot: look at the best prices. -/
def trackBbo (s : EngineState) (i : Fin 16) (ev : FeedEvent) : EngineState :=
  let bests := (s.books.get i).bestPrices ops
  observe ops cfg { s with books := s.books.set i bests.1 } i ev (bests.2.1.1, bests.2.2.1)

/-- A delta of another time ends a snapshot. -/
def leaveSnapshot (s : EngineState) (i : Fin 16) (ev : FeedEvent) : EngineState :=
  if s.snapshotNs.get i ≠ 0 ∧ ev.localNs ≠ s.snapshotNs.get i then
    { s with snapshotNs := s.snapshotNs.set i 0 }
  else s

def onDelta (s : EngineState) (i : Fin 16) (ev : FeedEvent) : EngineState :=
  let book := (s.books.get i).applyLevel (ev.side == sideBuy) ev.priceMilli ev.size
  let s := EngineState.leaveSnapshot { s with books := s.books.set i book } i ev
  -- still in the snapshot: nothing is said
  if s.snapshotNs.get i ≠ 0 then s
  else (s.trackBbo ops cfg i ev).emitTelemetry ops cfg ev .bookUpdate

/-- An event of the share ring. -/
def onPm (s : EngineState) (ev : FeedEvent) : EngineState :=
  if h : ev.instrumentId.toNat < 16 then
    let i : Fin 16 := ⟨ev.instrumentId.toNat, h⟩
    match ev.kind with
    | .pmBookClear =>
        { s with
          books := s.books.set i (s.books.get i).clear
          snapshotNs := s.snapshotNs.set i ev.localNs }
    | .pmDelta => s.onDelta ops cfg i ev
    | .pmTrade => s.emitTelemetry ops cfg ev .trade
    | _ => s
  else s

/-- The reference books are found modulo their number. -/
def refIdx (ev : FeedEvent) : Fin 16 := ⟨ev.instrumentId.toNat % 16, Nat.mod_lt _ (by decide)⟩

/-- A complete depth snapshot is compared with the last best prices. -/
def crossCheck (s : EngineState) (i : Fin 16) : EngineState :=
  let rbid := (s.refBooks.get i).bnBestBid.1
  let rask := (s.refBooks.get i).bnBestAsk.1
  let close (a b : Float64) : Bool := ops.le (ops.abs (ops.sub a b)) 0x3F95810624DD2F1B
  let s : EngineState := { s with bnBookUpdates := s.bnBookUpdates + 1 }
  if ops.lt 0 rbid && ops.lt 0 rask && ops.lt 0 s.btc.bid && ops.lt 0 s.btc.ask then
    if close rbid s.btc.bid && close rask s.btc.ask then
      { s with bnBboMatches := s.bnBboMatches + 1 }
    else { s with bnBboMismatches := s.bnBboMismatches + 1 }
  else s

/-- Best prices of the reference that are both there. -/
def learnBbo (s : EngineState) (ev : FeedEvent) : EngineState :=
  if ops.lt 0 ev.bnBid && ops.lt 0 ev.bnAsk then
    { s with btc := ⟨ops.div (ops.add ev.bnBid ev.bnAsk) EngineOps.two, ev.bnBid, ev.bnAsk⟩ }
  else s

/-- One level of a depth snapshot; the last one has it checked. -/
def addDepth (s : EngineState) (ev : FeedEvent) : EngineState :=
  let book := s.refBooks.get (refIdx ev)
  let level : BnBookLevel := ⟨ev.price, ev.size⟩
  let book :=
    if ev.side = sideBuy then book.append true level
    else if ev.side = sideSell then book.append false level
    else book
  let s : EngineState := { s with refBooks := s.refBooks.set (refIdx ev) book }
  if ev.flags &&& flagLastInBatch ≠ 0 then s.crossCheck ops (refIdx ev) else s

/-- An event of the reference ring. -/
def onRef (s : EngineState) (ev : FeedEvent) : EngineState :=
  match ev.kind with
  | .bnBbo => (s.learnBbo ops ev).emitTelemetry ops cfg ev .bnBbo
  | .bnTrade => s.emitTelemetry ops cfg ev .bnTrade
  | .pmBookClear =>
      -- a depth snapshot begins
      let book := (s.refBooks.get (refIdx ev)).clear
      let s : EngineState := { s with refBooks := s.refBooks.set (refIdx ev) book }
      s.emitTelemetry ops cfg ev .bnDepth
  | .bnDepth => (s.addDepth ops ev).emitTelemetry ops cfg ev .bnDepth
  | _ => s

/-- Drain the share ring, up to a shutdown. -/
def drainPm (s : EngineState) : List FeedEvent → EngineState
  | [] => s
  | ev :: evs =>
      -- what is behind the shutdown stays in the ring
      if ev.kind = .shutdown then { s with running := false } else drainPm (s.onPm ops cfg ev) evs

/-- One round of the loop: what is taken from the share ring, then from the reference
ring. -/
def round (s : EngineState) (batch : List FeedEvent × List FeedEvent) : EngineState :=
  -- the reference ring is drained in the round of a shutdown too
  if s.running then batch.2.foldl (onRef ops cfg) (s.drainPm ops cfg batch.1) else s

end EngineState

end Tape

end Mantis
