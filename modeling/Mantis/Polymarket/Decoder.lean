import Mantis.Feed.Callback
import Mantis.Fixed.Parse
import Mantis.Registry.Registry

/-!
# Mantis.Polymarket.Decoder

The Polymarket market-data decoder (`crates/polymarket/src/market/decoder.rs`), for
`"book"` messages: an order book snapshot becomes a batch of `BookDelta` events.

The JSON parser is third-party code and a parameter. The output buffer of 64 events is
the list of the events written to it, oldest first.
-/

namespace Mantis

/-- A single orderbook level, as decimal strings. -/
structure BookLevel where
  price : String
  size : String
  deriving DecidableEq, Repr

/-- A Polymarket `"book"` message. -/
structure PolymarketBookMsg where
  assetId : String
  bids : List BookLevel
  asks : List BookLevel
  deriving DecidableEq, Repr

/-- `InstrumentRegistry::meta`. -/
def InstrumentRegistry.metaOf {D : Nat} (reg : InstrumentRegistry D) (id : InstrumentId) :
    Option (InstrumentMeta D) := (reg.byId.lookup id).map fun record => record.canonical.metadata

/-- The decoder: a sequence counter over a registry. -/
structure PolymarketMarketDecoder (D : Nat) where
  seq : UInt64
  sourceId : SourceId
  registry : InstrumentRegistry D

namespace PolymarketMarketDecoder

variable {D : Nat}

def new (sourceId : SourceId) (registry : InstrumentRegistry D) : PolymarketMarketDecoder D :=
  ⟨0, sourceId, registry⟩

/-- Resolve a Polymarket `asset_id`. -/
def resolve (dec : PolymarketMarketDecoder D) (assetId : String) :
    Option (InstrumentId × InstrumentMeta D) := do
  let id ← dec.registry.findByPolymarketTokenId assetId
  let metadata ← dec.registry.metaOf id
  pure (id, metadata)

/-- Parse price and size strings into ticks and lots. -/
def parsePriceQty (priceStr sizeStr : String) (metadata : InstrumentMeta D) :
    Option (Ticks × Lots) := do
  let priceFixed ← (FixedI64.parseDecimalBytes (D := D) priceStr.toUTF8.data.toList).toOption
  let qtyFixed ← (FixedI64.parseDecimalBytes (D := D) sizeStr.toUTF8.data.toList).toOption
  let price ← metadata.priceToTicks priceFixed
  let qty ← metadata.qtyToLots qtyFixed
  pure (price, qty)

/-- One loop of `decode_book`, over the levels of one side; `depthIdx` is the position of
the first of them. Unparsable levels are skipped, and the loop ends when the buffer is
full. -/
def decodeLevels (metadata : InstrumentMeta D) (recvTs : Timestamp) (id : InstrumentId)
    (side : Side) (dec : PolymarketMarketDecoder D) (out : List HotEvent) (depthIdx : Nat) :
    List BookLevel → PolymarketMarketDecoder D × List HotEvent
  | [] => (dec, out)
  | level :: levels =>
      if outCapacity ≤ out.length then (dec, out)
      else
        match parsePriceQty level.price level.size metadata with
        | none => decodeLevels metadata recvTs id side dec out (depthIdx + 1) levels
        | some (price, qty) =>
            let dec := { dec with seq := dec.seq + 1 }
            let event := HotEvent.bookDelta recvTs dec.seq id dec.sourceId .isSnapshot
              ⟨price, qty, side, .new, UInt8.ofNat depthIdx⟩
            decodeLevels metadata recvTs id side dec (out ++ [event]) (depthIdx + 1) levels

/-- Add `LAST_IN_BATCH` to an event. -/
def markLast (event : HotEvent) : HotEvent :=
  { event with header := { event.header with flags := event.header.flags.union .lastInBatch } }

/-- Decode a `"book"` snapshot into a batch of `BookDelta` events. -/
def decodeBook (parseJson : List UInt8 → Option PolymarketBookMsg)
    (dec : PolymarketMarketDecoder D) (buf : List UInt8) (recvTs : Timestamp) :
    PolymarketMarketDecoder D × List HotEvent :=
  match parseJson buf with
  | none => (dec, [])
  | some msg =>
      match dec.resolve msg.assetId with
      | none => (dec, [])
      | some (id, metadata) =>
          if msg.bids.isEmpty ∧ msg.asks.isEmpty then (dec, [])
          else
            let (dec, out) := decodeLevels metadata recvTs id .bid dec [] 0 msg.bids
            let (dec, out) := decodeLevels metadata recvTs id .ask dec out 0 msg.asks
            -- the final event written, whatever the number of raw levels
            (dec, out.modify (out.length - 1) markLast)

/-! ### What a snapshot batch holds -/

/-- The deltas of the parsable levels of one side, in the order of the message. -/
def parsedLevels (metadata : InstrumentMeta D) (side : Side) (depthIdx : Nat) :
    List BookLevel → List BookDeltaPayload
  | [] => []
  | level :: levels =>
      match parsePriceQty level.price level.size metadata with
      | none => parsedLevels metadata side (depthIdx + 1) levels
      | some (price, qty) =>
          ⟨price, qty, side, .new, UInt8.ofNat depthIdx⟩ ::
            parsedLevels metadata side (depthIdx + 1) levels

/-- The parsable levels of a message: bids, then asks. -/
def parsedBook (metadata : InstrumentMeta D) (msg : PolymarketBookMsg) : List BookDeltaPayload :=
  parsedLevels metadata .bid 0 msg.bids ++ parsedLevels metadata .ask 0 msg.asks

/-- Snapshot events for deltas, numbered from the one after `seq`. -/
def snapshotEvents (recvTs : Timestamp) (id : InstrumentId) (sourceId : SourceId)
    (seq : SeqNum) : List BookDeltaPayload → List HotEvent
  | [] => []
  | delta :: deltas =>
      HotEvent.bookDelta recvTs (seq + 1) id sourceId .isSnapshot delta ::
        snapshotEvents recvTs id sourceId (seq + 1) deltas

@[simp] theorem snapshotEvents_length (recvTs : Timestamp) (id : InstrumentId)
    (sourceId : SourceId) (seq : SeqNum) (deltas : List BookDeltaPayload) :
    (snapshotEvents recvTs id sourceId seq deltas).length = deltas.length := by
  induction deltas generalizing seq with
  | nil => rfl
  | cons delta deltas ih => simp [snapshotEvents, ih]

theorem snapshotEvents_append (recvTs : Timestamp) (id : InstrumentId) (sourceId : SourceId)
    (seq : SeqNum) (ds ds' : List BookDeltaPayload) :
    snapshotEvents recvTs id sourceId seq (ds ++ ds') =
      snapshotEvents recvTs id sourceId seq ds ++
        snapshotEvents recvTs id sourceId (seq + UInt64.ofNat ds.length) ds' := by
  induction ds generalizing seq with
  | nil => simp [snapshotEvents]
  | cons delta ds ih =>
      have hseq : seq + UInt64.ofNat (delta :: ds).length =
          seq + 1 + UInt64.ofNat ds.length := by
        rw [List.length_cons, UInt64.ofNat_add, UInt64.add_assoc, UInt64.add_comm (1 : UInt64)]
        rfl
      rw [hseq]
      simp only [List.cons_append, snapshotEvents, ih]

/-- One loop writes the parsable levels of its side, up to the room left in the buffer. -/
theorem decodeLevels_eq (metadata : InstrumentMeta D) (recvTs : Timestamp) (id : InstrumentId)
    (side : Side) (dec : PolymarketMarketDecoder D) (out : List HotEvent) (depthIdx : Nat)
    (levels : List BookLevel) :
    let deltas := (parsedLevels metadata side depthIdx levels).take (outCapacity - out.length)
    decodeLevels metadata recvTs id side dec out depthIdx levels =
      ({ dec with seq := dec.seq + UInt64.ofNat deltas.length },
        out ++ snapshotEvents recvTs id dec.sourceId dec.seq deltas) := by
  induction levels generalizing dec out depthIdx with
  | nil => simp [decodeLevels, parsedLevels, snapshotEvents]
  | cons level levels ih =>
      unfold decodeLevels parsedLevels
      by_cases hfull : outCapacity ≤ out.length
      · rw [if_pos hfull, Nat.sub_eq_zero_of_le hfull]
        simp [snapshotEvents]
      · rw [if_neg hfull]
        cases parsePriceQty level.price level.size metadata with
        | none => exact ih dec out (depthIdx + 1)
        | some parsed =>
            obtain ⟨price, qty⟩ := parsed
            -- the event just written takes one of the places left
            obtain ⟨room, hroom⟩ : ∃ room, outCapacity - out.length = room + 1 :=
              ⟨outCapacity - out.length - 1, by omega⟩
            have hrest : outCapacity - (out.length + 1) = room := by omega
            have hstep := ih { dec with seq := dec.seq + 1 }
              (out ++ [HotEvent.bookDelta recvTs (dec.seq + 1) id dec.sourceId .isSnapshot
                ⟨price, qty, side, .new, UInt8.ofNat depthIdx⟩]) (depthIdx + 1)
            dsimp only at hstep ⊢
            rw [hstep, hroom]
            rw [List.length_append, List.length_singleton, hrest]
            simp [snapshotEvents, UInt64.ofNat_add, UInt64.add_assoc, UInt64.add_comm]

/-- **Framing of a snapshot.** For a known token, `decode_book` writes the first 64
parsable levels of the message, all as snapshot events, and marks the last one. -/
theorem decodeBook_eq {parseJson : List UInt8 → Option PolymarketBookMsg} {buf : List UInt8}
    {msg : PolymarketBookMsg} {dec : PolymarketMarketDecoder D} {id : InstrumentId}
    {metadata : InstrumentMeta D} (hjson : parseJson buf = some msg)
    (hresolve : dec.resolve msg.assetId = some (id, metadata)) (recvTs : Timestamp) :
    let events := snapshotEvents recvTs id dec.sourceId dec.seq
      ((parsedBook metadata msg).take outCapacity)
    (dec.decodeBook parseJson buf recvTs).2 = events.modify (events.length - 1) markLast := by
  unfold decodeBook
  rw [hjson]
  dsimp only
  rw [hresolve]
  dsimp only
  split
  · next hempty =>
      rw [List.isEmpty_iff, List.isEmpty_iff] at hempty
      simp [parsedBook, hempty.1, hempty.2, parsedLevels, snapshotEvents]
  · rw [decodeLevels_eq]
    dsimp only
    rw [decodeLevels_eq]
    dsimp only
    -- the second loop has the room the first one left
    have hroom : outCapacity - ((parsedLevels metadata .bid 0 msg.bids).take outCapacity).length =
        outCapacity - (parsedLevels metadata .bid 0 msg.bids).length := by
      rw [List.length_take]
      omega
    unfold parsedBook
    rw [List.take_append, snapshotEvents_append]
    simp only [List.nil_append, List.length_nil, Nat.sub_zero, snapshotEvents_length, hroom]

theorem modify_last (f : HotEvent → HotEvent) (events : List HotEvent) (event : HotEvent) :
    (events ++ [event]).modify ((events ++ [event]).length - 1) f = events ++ [f event] := by
  rw [List.length_append, List.length_singleton, Nat.add_sub_cancel]
  induction events with
  | nil => rfl
  | cons first events ih =>
      rw [List.cons_append, List.length_cons, List.modify_succ_cons, ih]
      rfl

/-- The last event of a batch carries both flags. -/
theorem decodeBook_concat {parseJson : List UInt8 → Option PolymarketBookMsg} {buf : List UInt8}
    {msg : PolymarketBookMsg} {dec : PolymarketMarketDecoder D} {id : InstrumentId}
    {metadata : InstrumentMeta D} (hjson : parseJson buf = some msg)
    (hresolve : dec.resolve msg.assetId = some (id, metadata)) (recvTs : Timestamp)
    {deltas : List BookDeltaPayload} {delta : BookDeltaPayload}
    (hdeltas : (parsedBook metadata msg).take outCapacity = deltas ++ [delta]) :
    (dec.decodeBook parseJson buf recvTs).2 =
      snapshotEvents recvTs id dec.sourceId dec.seq deltas ++
        [HotEvent.bookDelta recvTs (dec.seq + UInt64.ofNat deltas.length + 1) id dec.sourceId
          (EventFlags.isSnapshot.union .lastInBatch) delta] := by
  rw [decodeBook_eq hjson hresolve, hdeltas, snapshotEvents_append]
  exact modify_last ..

end PolymarketMarketDecoder

/-! ### A decoder with one token -/

theorem cent_pos : 0 < (⟨10000⟩ : FixedI64 6).raw.toInt :=
  InstrumentMeta.toInt_pos_of_isPositive rfl

theorem share_pos : 0 < (⟨1000000⟩ : FixedI64 6).raw.toInt :=
  InstrumentMeta.toInt_pos_of_isPositive rfl

/-- Ticks of one cent, lots of one share. -/
def shareMeta : InstrumentMeta 6 := ⟨⟨10000⟩, ⟨1000000⟩, cent_pos, share_pos⟩

/-- A decoder that knows one token, of instrument 1. -/
def shareDecoder : PolymarketMarketDecoder 6 :=
  .new 1 (Runs.run InstrumentRegistry.step .new
    [.insertPredictionPair .btc .m15 shareMeta none,
      .bindPolymarketCurrent 1 ⟨"token_up_123", "btc-15m-up", 0, 900000000000, none⟩])

end Mantis
