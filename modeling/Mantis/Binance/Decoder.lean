import Mantis.Feed.Callback
import Mantis.Fixed.Parse

/-!
# Mantis.Binance.Decoder

The Binance `bookTicker` decoder (`crates/binance/src/decoder.rs`): a table of at most
eight symbols, and one `TopOfBook` event for every ticker of a known symbol.

The JSON parser is third-party code and a parameter.
-/

namespace Mantis

/-- Maximum number of symbols of a decoder. -/
def maxBinanceSymbols : Nat := 8

/-- Maximum length of a symbol name, in bytes. -/
def maxSymbolLen : Nat := 16

/-- Binance futures bookTicker message. -/
structure BinanceBookTicker where
  e : String
  s : String
  b : String
  bidQty : String
  a : String
  askQty : String
  deriving DecidableEq, Repr

/-- Binance combined stream wrapper for multi-symbol subscriptions. -/
structure BinanceCombinedStream where
  stream : String
  data : BinanceBookTicker
  deriving DecidableEq, Repr

/-- The JSON parser, at the two message types. -/
structure BinanceJson where
  bookTicker : List UInt8 → Option BinanceBookTicker
  combinedStream : List UInt8 → Option BinanceCombinedStream

/-- A symbol-to-instrument mapping supplied at construction time. -/
structure BinanceSymbolMapping (D : Nat) where
  symbol : String
  instrumentId : InstrumentId
  metadata : InstrumentMeta D

inductive DecoderError
  | tooManySymbols
  | emptyMappings
  | symbolTooLong
  deriving DecidableEq, Repr

/-- The decoder: a sequence counter over a symbol table of which `len` rows are in use. -/
structure BinanceDecoder (D : Nat) where
  seq : UInt64
  sourceId : SourceId
  instrumentIds : Vector InstrumentId maxBinanceSymbols
  metas : Vector (InstrumentMeta D) maxBinanceSymbols
  symbolNames : Vector (Vector UInt8 maxSymbolLen) maxBinanceSymbols
  symbolLens : Vector UInt8 maxBinanceSymbols
  len : Nat
  len_le : len ≤ maxBinanceSymbols
  combinedStream : Bool

namespace BinanceDecoder

variable {D : Nat}

/-- The loop of `new`: fill the rows from `i` on. -/
def fill (dec : BinanceDecoder D) (i : Nat) :
    List (BinanceSymbolMapping D) → Except DecoderError (BinanceDecoder D)
  | [] => .ok dec
  | m :: mappings =>
      let sym := m.symbol.toUTF8.data.toList
      if maxSymbolLen < sym.length then .error .symbolTooLong
      else
        let row := Vector.ofFn fun k : Fin maxSymbolLen => sym.getD k 0
        fill
          { dec with
            instrumentIds := dec.instrumentIds.setIfInBounds i m.instrumentId
            metas := dec.metas.setIfInBounds i m.metadata
            symbolNames := dec.symbolNames.setIfInBounds i row
            symbolLens := dec.symbolLens.setIfInBounds i (UInt8.ofNat sym.length) }
          (i + 1) mappings

/-- Create a new multi-symbol decoder. -/
def new (sourceId : SourceId) (mappings : List (BinanceSymbolMapping D)) :
    Except DecoderError (BinanceDecoder D) :=
  match mappings with
  | [] => .error .emptyMappings
  | first :: rest =>
      if h : (first :: rest).length ≤ maxBinanceSymbols then
        fill
          { seq := 0
            sourceId := sourceId
            -- `InstrumentId::NONE`
            instrumentIds := Vector.replicate maxBinanceSymbols 0
            metas := Vector.replicate maxBinanceSymbols first.metadata
            symbolNames := Vector.replicate maxBinanceSymbols (Vector.replicate maxSymbolLen 0)
            symbolLens := Vector.replicate maxBinanceSymbols 0
            len := (first :: rest).length
            len_le := h
            combinedStream := decide (1 < (first :: rest).length) }
          0 (first :: rest)
      else .error .tooManySymbols

/-- Override the combined-stream detection. -/
def setCombinedStream (dec : BinanceDecoder D) (combined : Bool) : BinanceDecoder D :=
  { dec with combinedStream := combined }

/-- Find the row of `symbol` in the mapping table. -/
def findSymbol (dec : BinanceDecoder D) (symbol : List UInt8) : Option (Fin maxBinanceSymbols) :=
  ((List.finRange dec.len).map (Fin.castLE dec.len_le)).find? fun i =>
    let slen := (dec.symbolLens.get i).toNat
    slen == symbol.length && (dec.symbolNames.get i).toList.take slen == symbol

/-- The row and the quote of a ticker, if its symbol is known and its numbers parse. -/
def parseTicker (dec : BinanceDecoder D) (ticker : BinanceBookTicker) :
    Option (Fin maxBinanceSymbols × TopOfBookPayload) := do
  let idx ← dec.findSymbol ticker.s.toUTF8.data.toList
  let metadata := dec.metas.get idx
  let bidPriceFixed ← (FixedI64.parseDecimalBytes (D := D) ticker.b.toUTF8.data.toList).toOption
  let askPriceFixed ← (FixedI64.parseDecimalBytes (D := D) ticker.a.toUTF8.data.toList).toOption
  let bidQtyFixed ← (FixedI64.parseDecimalBytes (D := D) ticker.bidQty.toUTF8.data.toList).toOption
  let askQtyFixed ← (FixedI64.parseDecimalBytes (D := D) ticker.askQty.toUTF8.data.toList).toOption
  let bidPrice ← metadata.priceToTicks bidPriceFixed
  let askPrice ← metadata.priceToTicks askPriceFixed
  let bidQty ← metadata.qtyToLots bidQtyFixed
  let askQty ← metadata.qtyToLots askQtyFixed
  pure (idx, ⟨bidPrice, bidQty, askPrice, askQty⟩)

/-- Decode a `bookTicker` message into at most one event, in `out[0]`. -/
def decode (json : BinanceJson) (dec : BinanceDecoder D) (frame : Frame) (out : OutBuffer) :
    BinanceDecoder D × OutBuffer × Nat :=
  let ticker :=
    if dec.combinedStream then (json.combinedStream frame.buf).map fun combined => combined.data
    else json.bookTicker frame.buf
  match ticker.bind dec.parseTicker with
  | none => (dec, out, 0)
  | some (idx, payload) =>
      let dec := { dec with seq := dec.seq + 1 }
      let event := HotEvent.topOfBook frame.recvTs dec.seq (dec.instrumentIds.get idx)
        dec.sourceId .empty payload
      (dec, out.set 0 event outCapacity_pos, 1)

/-- **One call.** A ticker that decodes takes the next number, any other changes
nothing. -/
theorem decode_callSpec (json : BinanceJson) (dec : BinanceDecoder D) (frame : Frame)
    (out : OutBuffer) : CallSpec seq dec out (dec.decode json frame out) := by
  simp only [decode]
  split
  · exact .zero seq dec out
  · apply CallSpec.one
    · rfl
    · rfl

theorem fill_seq {dec dec' : BinanceDecoder D} {i : Nat}
    {mappings : List (BinanceSymbolMapping D)} (h : dec.fill i mappings = .ok dec') :
    dec'.seq = dec.seq := by
  induction mappings generalizing dec i with
  | nil =>
      cases h
      rfl
  | cons m mappings ih =>
      simp only [fill] at h
      split at h
      · cases h
      · have hseq := ih h
        exact hseq

/-- A new decoder has numbered nothing. -/
theorem new_seq {sourceId : SourceId} {mappings : List (BinanceSymbolMapping D)}
    {dec : BinanceDecoder D} (h : new sourceId mappings = .ok dec) : dec.seq = 0 := by
  cases mappings with
  | nil => cases h
  | cons first rest =>
      simp only [new] at h
      split at h
      · exact fill_seq h
      · cases h

end BinanceDecoder

end Mantis
