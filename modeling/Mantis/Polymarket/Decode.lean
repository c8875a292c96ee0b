import Mantis.Polymarket.Decoder

/-!
# Mantis.Polymarket.Decode

`PolymarketMarketDecoder::decode` as a whole: the dispatch on the message type, the
single-event messages, and the snapshot written to the output buffer.

`decodeBookInto` is `decode_book` with the buffer and the count of the source;
`decodeBookInto_refines` connects it to the list of events `decodeBook` speaks of.
-/

namespace Mantis

/-- A Polymarket `"price_change"` message. -/
structure PolymarketPriceChangeMsg where
  assetId : String
  price : String
  size : String
  side : String
  deriving DecidableEq, Repr

/-- A Polymarket `"last_trade_price"` message. -/
structure PolymarketTradeMsg where
  assetId : String
  price : String
  size : String
  side : Option String
  deriving DecidableEq, Repr

/-- The JSON parser, at the three message types. -/
structure PolymarketJson where
  priceChange : List UInt8 → Option PolymarketPriceChangeMsg
  trade : List UInt8 → Option PolymarketTradeMsg
  book : List UInt8 → Option PolymarketBookMsg

/-! ### The message type -/

/-- Find the position of `needle` in `haystack`. -/
def memchrFind (haystack needle : List UInt8) : Option Nat :=
  if haystack.length < needle.length then none
  else
    (List.range (haystack.length - needle.length + 1)).find? fun i =>
      (haystack.drop i).take needle.length == needle

/-- Find the position of a single byte. -/
def memchrByte (byte : UInt8) (haystack : List UInt8) : Option Nat :=
  haystack.findIdx? (· == byte)

/-- Scan the raw bytes for the value of the `"type"` field. -/
def peekType (buf : List UInt8) : Option String := do
  let needle := "\"type\":\"".toUTF8.data.toList
  let pos ← memchrFind buf needle
  let remaining := buf.drop (pos + needle.length)
  -- the closing quote
  let stop ← memchrByte 34 remaining
  String.fromUTF8? ⟨(remaining.take stop).toArray⟩

/-- Parse a Polymarket side string. -/
def parseSide (s : String) : Option Side :=
  match s with
  | "BUY" => some .bid
  | "SELL" => some .ask
  | _ => none

/-- Set `LAST_IN_BATCH` on the final event written, if there is one. -/
def Out.markLast (out : Out) : Out :=
  if h : 0 < out.count then
    have hlast : out.count - 1 < outCapacity :=
      Nat.lt_of_lt_of_le (Nat.sub_lt h Nat.one_pos) out.count_le
    { out with
      slots := out.slots.set (out.count - 1)
        (PolymarketMarketDecoder.markLast (out.slots.get ⟨out.count - 1, hlast⟩)) hlast }
  else out

namespace PolymarketMarketDecoder

variable {D : Nat}

/-! ### The three decoders -/

/-- Decode a `"price_change"` message into a single `BookDelta` event. -/
def decodePriceChange (json : PolymarketJson) (dec : PolymarketMarketDecoder D) (frame : Frame)
    (out : OutBuffer) : PolymarketMarketDecoder D × OutBuffer × Nat :=
  match json.priceChange frame.buf with
  | none => (dec, out, 0)
  | some msg =>
      match dec.resolve msg.assetId with
      | none => (dec, out, 0)
      | some (id, metadata) =>
          match parsePriceQty msg.price msg.size metadata with
          | none => (dec, out, 0)
          | some (price, qty) =>
              match parseSide msg.side with
              | none => (dec, out, 0)
              | some side =>
                  let dec := { dec with seq := dec.seq + 1 }
                  let event := HotEvent.bookDelta frame.recvTs dec.seq id dec.sourceId
                    .lastInBatch ⟨price, qty, side, .change, 0⟩
                  (dec, out.set 0 event outCapacity_pos, 1)

/-- Decode a `"last_trade_price"` message into a single `Trade` event. -/
def decodeTrade (json : PolymarketJson) (dec : PolymarketMarketDecoder D) (frame : Frame)
    (out : OutBuffer) : PolymarketMarketDecoder D × OutBuffer × Nat :=
  match json.trade frame.buf with
  | none => (dec, out, 0)
  | some msg =>
      match dec.resolve msg.assetId with
      | none => (dec, out, 0)
      | some (id, metadata) =>
          match parsePriceQty msg.price msg.size metadata with
          | none => (dec, out, 0)
          | some (price, qty) =>
              let aggressor := (msg.side.bind parseSide).getD .bid
              let dec := { dec with seq := dec.seq + 1 }
              let event := HotEvent.trade frame.recvTs dec.seq id dec.sourceId .lastInBatch
                ⟨price, qty, aggressor⟩
              (dec, out.set 0 event outCapacity_pos, 1)

/-- One loop of `decode_book`, writing to the buffer. -/
def decodeLevelsInto (metadata : InstrumentMeta D) (recvTs : Timestamp) (id : InstrumentId)
    (side : Side) (dec : PolymarketMarketDecoder D) (out : Out) (depthIdx : Nat) :
    List BookLevel → PolymarketMarketDecoder D × Out
  | [] => (dec, out)
  | level :: levels =>
      if h : outCapacity ≤ out.count then (dec, out)
      else
        match parsePriceQty level.price level.size metadata with
        | none => decodeLevelsInto metadata recvTs id side dec out (depthIdx + 1) levels
        | some (price, qty) =>
            let dec := { dec with seq := dec.seq + 1 }
            let event := HotEvent.bookDelta recvTs dec.seq id dec.sourceId .isSnapshot
              ⟨price, qty, side, .new, UInt8.ofNat depthIdx⟩
            decodeLevelsInto metadata recvTs id side dec (out.push event (Nat.lt_of_not_le h))
              (depthIdx + 1) levels

/-- Decode a `"book"` snapshot into a batch of `BookDelta` events. -/
def decodeBookInto (json : PolymarketJson) (dec : PolymarketMarketDecoder D) (frame : Frame)
    (out : OutBuffer) : PolymarketMarketDecoder D × OutBuffer × Nat :=
  match json.book frame.buf with
  | none => (dec, out, 0)
  | some msg =>
      match dec.resolve msg.assetId with
      | none => (dec, out, 0)
      | some (id, metadata) =>
          if msg.bids.isEmpty ∧ msg.asks.isEmpty then (dec, out, 0)
          else
            let (dec, written) := decodeLevelsInto metadata frame.recvTs id .bid dec (.start out) 0
              msg.bids
            let (dec, written) := decodeLevelsInto metadata frame.recvTs id .ask dec written 0
              msg.asks
            (dec, written.markLast.slots, written.count)

/-- Decode a WebSocket message, and return the number of events written to `out`. -/
def decode (json : PolymarketJson) (dec : PolymarketMarketDecoder D) (frame : Frame)
    (out : OutBuffer) : PolymarketMarketDecoder D × OutBuffer × Nat :=
  if frame.buf.isEmpty then (dec, out, 0)
  else
    match peekType frame.buf with
    | none => (dec, out, 0)
    | some msgType =>
        match msgType with
        | "price_change" => dec.decodePriceChange json frame out
        | "last_trade_price" => dec.decodeTrade json frame out
        | "book" => dec.decodeBookInto json frame out
        | _ => (dec, out, 0)

/-! ### What is written -/

theorem decode_of_priceChange {json : PolymarketJson} {dec : PolymarketMarketDecoder D}
    {frame : Frame} (hbuf : frame.buf ≠ []) (htype : peekType frame.buf = some "price_change")
    (out : OutBuffer) : dec.decode json frame out = dec.decodePriceChange json frame out := by
  have hempty : ¬ frame.buf.isEmpty = true := fun h => hbuf (List.isEmpty_iff.mp h)
  simp only [decode]
  rw [if_neg hempty, htype]
  rfl

theorem decodePriceChange_eq {json : PolymarketJson} {dec : PolymarketMarketDecoder D}
    {frame : Frame} {msg : PolymarketPriceChangeMsg} {id : InstrumentId}
    {metadata : InstrumentMeta D} {price : Ticks} {qty : Lots} {side : Side}
    (hjson : json.priceChange frame.buf = some msg)
    (hresolve : dec.resolve msg.assetId = some (id, metadata))
    (hparse : parsePriceQty msg.price msg.size metadata = some (price, qty))
    (hside : parseSide msg.side = some side) (out : OutBuffer) :
    dec.decodePriceChange json frame out =
      ({ dec with seq := dec.seq + 1 },
        out.set 0 (HotEvent.bookDelta frame.recvTs (dec.seq + 1) id dec.sourceId .lastInBatch
          ⟨price, qty, side, .change, 0⟩) outCapacity_pos, 1) := by
  simp only [decodePriceChange]
  rw [hjson]
  dsimp only
  rw [hresolve]
  dsimp only
  rw [hparse]
  dsimp only
  rw [hside]

end PolymarketMarketDecoder

@[simp] theorem Out.markLast_count (out : Out) : out.markLast.count = out.count := by
  simp only [Out.markLast]
  split <;> rfl

theorem Out.written_markLast (out : Out) :
    out.markLast.written =
      out.written.modify (out.written.length - 1) PolymarketMarketDecoder.markLast := by
  simp only [Out.markLast]
  split
  · next h =>
      have hlast : out.count - 1 < out.slots.toList.length := by
        have hle := out.count_le
        rw [Vector.length_toList]
        omega
      have hin : out.count - 1 < out.count := Nat.sub_lt h Nat.one_pos
      rw [Out.length_written]
      simp only [Out.written, Vector.toList_set]
      refine List.ext_getElem? fun i => ?_
      rw [List.getElem?_modify, List.getElem?_take, List.getElem?_take, List.getElem?_set]
      by_cases hi : out.count - 1 = i
      · subst hi
        rw [if_pos hin, if_pos hin, if_pos rfl, if_pos hlast, List.getElem?_eq_getElem hlast]
        simp only [if_pos, Option.map_eq_map, Option.map_some]
        rfl
      · rw [if_neg hi]
        simp only [if_neg hi, Option.map_eq_map, Option.map_id']
  · next h =>
      have h0 : out.written = [] := List.length_eq_zero_iff.mp (by rw [Out.length_written]; omega)
      rw [h0]
      rfl

theorem Out.Untouched.markLast {out : Out} {slots : OutBuffer} (h : out.Untouched slots) :
    out.markLast.Untouched slots := by
  simp only [Out.Untouched, Out.markLast_count] at h ⊢
  rw [← h]
  simp only [Out.markLast]
  split
  · next hpos =>
      rw [Vector.toList_set]
      exact List.drop_set_of_lt (Nat.sub_lt hpos Nat.one_pos)
  · rfl

namespace PolymarketMarketDecoder

theorem map_seq_modify_markLast (events : List HotEvent) (i : Nat) :
    (events.modify i markLast).map (·.header.seq) = events.map (·.header.seq) := by
  refine List.ext_getElem? fun j => ?_
  rw [List.getElem?_map, List.getElem?_map, List.getElem?_modify, Option.map_eq_map,
    Option.map_map]
  refine congrArg (Option.map · events[j]?) (funext fun event => ?_)
  show (if i = j then markLast event else event).header.seq = event.header.seq
  split <;> rfl

theorem numbering_markLast {dec dec' : PolymarketMarketDecoder D} {slots : OutBuffer} {out : Out}
    (h : Numbering seq dec slots dec' out) : Numbering seq dec slots dec' out.markLast := by
  refine ⟨h.untouched.markLast, ?_, ?_, ?_⟩
  · rw [Out.written_markLast, map_seq_modify_markLast, Out.markLast_count]
    exact h.numbered
  · rw [Out.markLast_count]
    exact h.seq_eq
  · rw [Out.markLast_count]
    exact h.unchanged

/-- Each loop numbers the events it writes on from where it starts. -/
theorem numbering_decodeLevelsInto {dec : PolymarketMarketDecoder D} {slots : OutBuffer}
    (metadata : InstrumentMeta D) (recvTs : Timestamp) (id : InstrumentId) (side : Side)
    {dec' : PolymarketMarketDecoder D} {out : Out} (h : Numbering seq dec slots dec' out)
    (depthIdx : Nat) (levels : List BookLevel) :
    Numbering seq dec slots
      (decodeLevelsInto metadata recvTs id side dec' out depthIdx levels).1
      (decodeLevelsInto metadata recvTs id side dec' out depthIdx levels).2 := by
  induction levels generalizing dec' out depthIdx with
  | nil => exact h
  | cons level levels ih =>
      unfold decodeLevelsInto
      by_cases hfull : outCapacity ≤ out.count
      · rw [dif_pos hfull]
        exact h
      · rw [dif_neg hfull]
        cases parsePriceQty level.price level.size metadata with
        | none => exact ih h (depthIdx + 1)
        | some parsed => exact ih (h.push rfl rfl (Nat.lt_of_not_le hfull)) (depthIdx + 1)

theorem decodeBookInto_callSpec (json : PolymarketJson) (dec : PolymarketMarketDecoder D)
    (frame : Frame) (out : OutBuffer) :
    CallSpec seq dec out (dec.decodeBookInto json frame out) := by
  simp only [decodeBookInto]
  split
  · exact .zero seq dec out
  · split
    · exact .zero seq dec out
    · next msg _ _ id metadata _ =>
        split
        · exact .zero seq dec out
        · have hbids := numbering_decodeLevelsInto metadata frame.recvTs id .bid
            (Numbering.start seq dec out) 0 msg.bids
          have hasks := numbering_decodeLevelsInto metadata frame.recvTs id .ask hbids 0 msg.asks
          have hspec := (numbering_markLast hasks).callSpec
          rw [Out.markLast_count] at hspec
          exact hspec

theorem decodePriceChange_callSpec (json : PolymarketJson) (dec : PolymarketMarketDecoder D)
    (frame : Frame) (out : OutBuffer) :
    CallSpec seq dec out (dec.decodePriceChange json frame out) := by
  simp only [decodePriceChange]
  split
  · exact .zero seq dec out
  · split
    · exact .zero seq dec out
    · split
      · exact .zero seq dec out
      · split
        · exact .zero seq dec out
        · apply CallSpec.one
          · rfl
          · rfl

theorem decodeTrade_callSpec (json : PolymarketJson) (dec : PolymarketMarketDecoder D)
    (frame : Frame) (out : OutBuffer) :
    CallSpec seq dec out (dec.decodeTrade json frame out) := by
  simp only [decodeTrade]
  split
  · exact .zero seq dec out
  · split
    · exact .zero seq dec out
    · split
      · exact .zero seq dec out
      · apply CallSpec.one
        · rfl
        · rfl

/-- **One call.** Whatever the message, the events written are numbered on from the
counter and counted, and a call that writes none changes nothing. -/
theorem decode_callSpec (json : PolymarketJson) (dec : PolymarketMarketDecoder D) (frame : Frame)
    (out : OutBuffer) : CallSpec seq dec out (dec.decode json frame out) := by
  simp only [decode]
  split
  · exact .zero seq dec out
  · split
    · exact .zero seq dec out
    · split
      · exact decodePriceChange_callSpec json dec frame out
      · exact decodeTrade_callSpec json dec frame out
      · exact decodeBookInto_callSpec json dec frame out
      · exact .zero seq dec out

/-- Each loop writes what the list of events says. -/
theorem decodeLevelsInto_refines (metadata : InstrumentMeta D) (recvTs : Timestamp)
    (id : InstrumentId) (side : Side) (dec : PolymarketMarketDecoder D) (out : Out)
    (depthIdx : Nat) (levels : List BookLevel) :
    ((decodeLevelsInto metadata recvTs id side dec out depthIdx levels).1,
      (decodeLevelsInto metadata recvTs id side dec out depthIdx levels).2.written) =
      decodeLevels metadata recvTs id side dec out.written depthIdx levels := by
  induction levels generalizing dec out depthIdx with
  | nil => rfl
  | cons level levels ih =>
      unfold decodeLevelsInto decodeLevels
      rw [Out.length_written]
      by_cases hfull : outCapacity ≤ out.count
      · rw [dif_pos hfull, if_pos hfull]
      · rw [dif_neg hfull, if_neg hfull]
        cases parsePriceQty level.price level.size metadata with
        | none => exact ih dec out (depthIdx + 1)
        | some parsed =>
            dsimp only
            rw [ih, Out.written_push]

/-- **The buffer refines the list.** The events `decode_book` announces are those of
`decodeBook`, and the decoder it leaves is the same. -/
theorem decodeBookInto_refines (json : PolymarketJson) (dec : PolymarketMarketDecoder D)
    (frame : Frame) (out : OutBuffer) :
    ((dec.decodeBookInto json frame out).1, announced (dec.decodeBookInto json frame out)) =
      dec.decodeBook json.book frame.buf frame.recvTs := by
  simp only [decodeBookInto, decodeBook]
  cases json.book frame.buf with
  | none => rfl
  | some msg =>
      dsimp only
      cases dec.resolve msg.assetId with
      | none => rfl
      | some found =>
          dsimp only
          by_cases hempty : msg.bids.isEmpty ∧ msg.asks.isEmpty
          · rw [if_pos hempty, if_pos hempty]
            rfl
          · rw [if_neg hempty, if_neg hempty]
            have hbids := decodeLevelsInto_refines found.2 frame.recvTs found.1 .bid dec
              (.start out) 0 msg.bids
            rw [Out.written_start] at hbids
            rw [← hbids]
            dsimp only
            rw [← decodeLevelsInto_refines found.2 frame.recvTs found.1 .ask]
            dsimp only
            rw [← Out.written_markLast]
            simp only [announced, Out.written, Out.markLast_count]

end PolymarketMarketDecoder

/-! ### Two messages -/

def updateJson : String :=
  "\x7b\"type\":\"price_change\",\"asset_id\":\"token_up_123\"," ++
  "\"price\":\"0.53\",\"size\":\"100\",\"side\":\"BUY\"\x7d"

def updateMsg : PolymarketPriceChangeMsg := ⟨"token_up_123", "0.53", "100", "BUY"⟩

def updateFrame : Frame := ⟨updateJson.toUTF8.data.toList, 0⟩

def bookJson : String :=
  "\x7b\"type\":\"book\",\"asset_id\":\"token_up_123\"," ++
  "\"bids\":[\x7b\"price\":\"0.50\",\"size\":\"100\"\x7d]," ++
  "\"asks\":[\x7b\"price\":\"0.55\",\"size\":\"150\"\x7d]\x7d"

def bookMsg : PolymarketBookMsg := ⟨"token_up_123", [⟨"0.50", "100"⟩], [⟨"0.55", "150"⟩]⟩

def bookFrame : Frame := ⟨bookJson.toUTF8.data.toList, 0⟩

/-- A JSON parser on these two documents. -/
def sampleParser : PolymarketJson where
  priceChange buf := if buf = updateFrame.buf then some updateMsg else none
  trade _ := none
  book buf := if buf = bookFrame.buf then some bookMsg else none

end Mantis
