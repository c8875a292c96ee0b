import Mantis.Binance.Decoder
import Mantis.MarketState.Overflow
import Mantis.Polymarket.Decode

/-!
# Mantis.Feed.Safety

The venues' messages through their decoders into the engine: which feeds can make its
arithmetic overflow.

A decoder accepts every quantity that is an `i64` number of lots, so the sizes in the
messages decide. Nothing between the decimal parser and the book bounds them.
-/

namespace Mantis

open Runs

/-- The decoders of a process that listens to both venues. -/
structure Venues (D D' : Nat) where
  polymarket : PolymarketMarketDecoder D
  binance : BinanceDecoder D'

/-- A message of one of the venues, and the buffer its events are written to. -/
inductive VenueMessage
  | polymarket (frame : Frame) (out : OutBuffer)
  | binance (frame : Frame) (out : OutBuffer)

namespace Venues

variable {D D' : Nat}

/-- Decode a message; one that is not accepted announces no events. -/
def decode (polymarketJson : PolymarketJson) (binanceJson : BinanceJson) (v : Venues D D') :
    VenueMessage → Venues D D' × List HotEvent
  | .polymarket frame out =>
      let r := v.polymarket.decode polymarketJson frame out
      ({ v with polymarket := r.1 }, announced r)
  | .binance frame out =>
      let r := v.binance.decode binanceJson frame out
      ({ v with binance := r.1 }, announced r)

/-- The events of a sequence of messages. -/
def events (polymarketJson : PolymarketJson) (binanceJson : BinanceJson) :
    Venues D D' → List VenueMessage → List HotEvent
  | _, [] => []
  | v, message :: messages =>
      let (v, batch) := v.decode polymarketJson binanceJson message
      batch ++ events polymarketJson binanceJson v messages

end Venues

/-! ### Two tickers -/

theorem unit_pos : 0 < (⟨1⟩ : FixedI64 6).raw.toInt := by decide

theorem one_le_maxBinanceSymbols : 1 ≤ maxBinanceSymbols := by decide

/-- One cent a tick and the smallest lot there is. -/
def fineMeta : InstrumentMeta 6 := ⟨⟨10000⟩, ⟨1⟩, cent_pos, unit_pos⟩

/-- The decoder of one symbol, as `new` makes it. -/
def tickerDecoder : BinanceDecoder 6 where
  seq := 0
  sourceId := 2
  instrumentIds := (Vector.replicate maxBinanceSymbols 0).setIfInBounds 0 1
  metas := (Vector.replicate maxBinanceSymbols fineMeta).setIfInBounds 0 fineMeta
  symbolNames := (Vector.replicate maxBinanceSymbols (Vector.replicate maxSymbolLen 0)).setIfInBounds
    0 (Vector.ofFn fun k : Fin maxSymbolLen => "BTCUSDT".toUTF8.data.toList.getD k 0)
  symbolLens := (Vector.replicate maxBinanceSymbols 0).setIfInBounds 0 7
  len := 1
  len_le := one_le_maxBinanceSymbols
  combinedStream := false

def tickerVenues : Venues 6 6 := ⟨shareDecoder, tickerDecoder⟩

/-- The text of a ticker. -/
def tickerDocument (ticker : BinanceBookTicker) : String :=
  "\x7b\"e\":\"" ++ ticker.e ++ "\",\"s\":\"" ++ ticker.s ++
  "\",\"b\":\"" ++ ticker.b ++ "\",\"B\":\"" ++ ticker.bidQty ++
  "\",\"a\":\"" ++ ticker.a ++ "\",\"A\":\"" ++ ticker.askQty ++ "\"\x7d"

def tickerFrame (ticker : BinanceBookTicker) : Frame :=
  ⟨(tickerDocument ticker).toUTF8.data.toList, 0⟩

/-- A JSON parser on the text of one ticker. -/
def tickerParser (ticker : BinanceBookTicker) : BinanceJson where
  bookTicker buf := if buf = (tickerFrame ticker).buf then some ticker else none
  combinedStream _ := none

def smallTicker : BinanceBookTicker := ⟨"bookTicker", "BTCUSDT", "0.01", "31.21", "0.02", "40.66"⟩

/-- The largest quantity the parser accepts, on both sides. -/
def hugeTicker : BinanceBookTicker :=
  ⟨"bookTicker", "BTCUSDT", "0.01", "9223372036854.775807", "0.02", "9223372036854.775807"⟩

/-! ### Which feeds are safe -/

namespace Venues

variable {D D' : Nat}

/-- **When a feed cannot overflow the engine.** For every configuration of at most 65536
levels and every sequence of messages, no call of the engine overflows, whatever is asked
between the events, exactly when every event of the sequence leaves calm quantities at its
instrument. Quantities of at most `2 ^ 46` lots are always calm. -/
theorem feed_safe_iff {MAX N activeCount : Nat} (hN : N ≤ 65536) (h : activeCount ≤ MAX)
    (staleTimeoutNs : UInt64) (polymarketJson : PolymarketJson) (binanceJson : BinanceJson)
    (v : Venues D D') (messages : List VenueMessage) :
    let e : MarketStateEngine (ArrayBook N) MAX := .new activeCount staleTimeoutNs h
    let feed := v.events polymarketJson binanceJson messages
    (e.Safe feed ↔
      AllSteps (Markets.step N) (Markets.Good N activeCount) (fun _ => .empty) feed) ∧
    ((∀ event ∈ feed, event.LotsAtMost (2 ^ 46)) → e.Safe feed) := by
  intro e feed
  have hiff := MarketStateEngine.safe_iff hN h staleTimeoutNs feed
  refine ⟨hiff, fun hlots => hiff.mpr ?_⟩
  exact Markets.allSteps_of_lotsAtMost hN hlots fun _ => PriceMaps.bounded_empty N _

/-- An ordinary ticker is safe. -/
theorem feed_safe_small :
    100 ≤ 65536 ∧
    (MarketStateEngine.new 1 0 (Nat.le_refl 1) : MarketStateEngine (ArrayBook 100) 1).Safe
      (tickerVenues.events sampleParser (tickerParser smallTicker)
        [.binance (tickerFrame smallTicker) makeOut]) :=
  ⟨by decide, (feed_safe_iff (by decide) (Nat.le_refl 1) 0 sampleParser (tickerParser smallTicker)
    tickerVenues [.binance (tickerFrame smallTicker) makeOut]).2 (by decide)⟩

/-- One ticker whose two quantities are `i64::MAX` lots: processing it adds them up. -/
theorem huge_ticker_overflows :
    BinanceDecoder.new 2 [⟨"BTCUSDT", 1, fineMeta⟩] = .ok tickerDecoder ∧
    (tickerVenues.events sampleParser (tickerParser hugeTicker)
      [.binance (tickerFrame hugeTicker) makeOut]).length = 1 ∧
    ¬ (MarketStateEngine.new 1 0 (Nat.le_refl 1) : MarketStateEngine (ArrayBook 100) 1).Safe
      (tickerVenues.events sampleParser (tickerParser hugeTicker)
        [.binance (tickerFrame hugeTicker) makeOut]) := by
  refine ⟨rfl, by decide, fun hsafe => ?_⟩
  have hrun := hsafe [.process (HotEvent.topOfBook 0 1 1 2 .empty
    ⟨1, 9223372036854775807, 2, 9223372036854775807⟩)] (by decide)
  exact absurd hrun (by decide)

end Venues

end Mantis
