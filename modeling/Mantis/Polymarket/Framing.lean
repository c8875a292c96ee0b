import Mantis.Polymarket.Decode
import Mathlib.Data.Finset.Max

/-!
# Mantis.Polymarket.Framing

The batch `decode_book` writes for a snapshot, against the levels of the message.

A message is read as the list of its parsable levels, bids before asks. The batch is the
beginning of that list, as far as the 64 slots of the buffer go (`decodeBook_framed`).
The cut goes by the order of the message and not by price, so which top of book survives
it depends on where the message lists it (`keepsTops_iff`).
-/

namespace Mantis

open PolymarketMarketDecoder

variable {D : Nat}

/-- A side, a price and a quantity. -/
abbrev Quote := Side × Ticks × Lots

/-- What a `BookDelta` event quotes. -/
def HotEvent.quote? (event : HotEvent) : Option Quote :=
  match event.body with
  | .bookDelta delta => some (delta.side, delta.price, delta.qty)
  | _ => none

/-- The parsable levels of one side, in the order of the message. -/
def parsableLevels (metadata : InstrumentMeta D) (side : Side) (levels : List BookLevel) :
    List Quote :=
  levels.filterMap fun level => (parsePriceQty level.price level.size metadata).map (Prod.mk side)

/-- The parsable levels of a message: bids, then asks. -/
def parsableBook (metadata : InstrumentMeta D) (msg : PolymarketBookMsg) : List Quote :=
  parsableLevels metadata .bid msg.bids ++ parsableLevels metadata .ask msg.asks

/-- How the batch of a snapshot is framed. -/
structure Framed (dec : PolymarketMarketDecoder D) (frame : Frame) (msg : PolymarketBookMsg)
    (id : InstrumentId) (metadata : InstrumentMeta D) (events : List HotEvent) : Prop where
  /-- The first 64 parsable levels, in order. -/
  quotes : events.map HotEvent.quote? = ((parsableBook metadata msg).take 64).map some
  header : ∀ event ∈ events, event.header.instrumentId = id ∧
    event.header.recvTs = frame.recvTs ∧ event.header.sourceId = dec.sourceId
  /-- The last event is marked, and no other. -/
  last : ∀ i (h : i < events.length),
    events[i].header.flags.contains .lastInBatch = true ↔ i + 1 = events.length

/-! ### Documents -/

def levelDocument (level : BookLevel) : String :=
  "\x7b\"price\":\"" ++ level.price ++ "\",\"size\":\"" ++ level.size ++ "\"\x7d"

/-- The JSON text of a `"book"` message. -/
def bookDocument (msg : PolymarketBookMsg) : String :=
  "\x7b\"type\":\"book\",\"asset_id\":\"" ++ msg.assetId ++
  "\",\"bids\":[" ++ ",".intercalate (msg.bids.map levelDocument) ++
  "],\"asks\":[" ++ ",".intercalate (msg.asks.map levelDocument) ++ "]\x7d"

def snapshotFrame (msg : PolymarketBookMsg) : Frame := ⟨(bookDocument msg).toUTF8.data.toList, 0⟩

/-- A JSON parser on the text of one message. -/
def parserOf (msg : PolymarketBookMsg) : PolymarketJson where
  priceChange _ := none
  trade _ := none
  book buf := if buf = (snapshotFrame msg).buf then some msg else none

theorem parserOf_book (msg : PolymarketBookMsg) :
    (parserOf msg).book (snapshotFrame msg).buf = some msg := if_pos rfl

/-- A snapshot whose last level is unparsable. -/
def brokenMsg : PolymarketBookMsg :=
  ⟨"token_up_123", [⟨"0.50", "100"⟩], [⟨"0.55", "150"⟩, ⟨"bad", "80"⟩]⟩

/-- A snapshot of 64 bids and one ask. -/
def deepMsg : PolymarketBookMsg :=
  ⟨"token_up_123", (List.range 64).map fun i => ⟨"0." ++ toString (10 + i), "100"⟩,
    [⟨"0.80", "150"⟩]⟩

namespace PolymarketMarketDecoder

/-! ### The events of a batch -/

/-- The deltas a loop writes are the parsable levels. -/
theorem parsedLevels_quotes (metadata : InstrumentMeta D) (side : Side) (depthIdx : Nat)
    (levels : List BookLevel) :
    (parsedLevels metadata side depthIdx levels).map (fun d => (d.side, d.price, d.qty)) =
      parsableLevels metadata side levels := by
  induction levels generalizing depthIdx with
  | nil => rfl
  | cons level levels ih =>
      simp only [parsedLevels, parsableLevels, List.filterMap_cons]
      cases parsePriceQty level.price level.size metadata with
      | none => exact ih (depthIdx + 1)
      | some parsed => exact congrArg ((side, parsed.1, parsed.2) :: ·) (ih (depthIdx + 1))

theorem parsedBook_quotes (metadata : InstrumentMeta D) (msg : PolymarketBookMsg) :
    (parsedBook metadata msg).map (fun d => (d.side, d.price, d.qty)) =
      parsableBook metadata msg := by
  rw [parsedBook, List.map_append, parsedLevels_quotes, parsedLevels_quotes, parsableBook]

/-- What is read off the payload alone is read off the deltas. -/
theorem map_snapshotEvents {β : Type} {f : HotEvent → β} {g : BookDeltaPayload → β}
    (h : ∀ header delta, f ⟨header, .bookDelta delta⟩ = g delta) (recvTs : Timestamp)
    (id : InstrumentId) (sourceId : SourceId) (seq : SeqNum) (deltas : List BookDeltaPayload) :
    (snapshotEvents recvTs id sourceId seq deltas).map f = deltas.map g := by
  induction deltas generalizing seq with
  | nil => rfl
  | cons delta deltas ih =>
      simp only [snapshotEvents, List.map_cons, ih]
      rw [HotEvent.bookDelta, h]

theorem snapshotEvents_quotes (recvTs : Timestamp) (id : InstrumentId) (sourceId : SourceId)
    (seq : SeqNum) (deltas : List BookDeltaPayload) :
    (snapshotEvents recvTs id sourceId seq deltas).map HotEvent.quote? =
      (deltas.map fun d => (d.side, d.price, d.qty)).map some := by
  rw [List.map_map]
  exact map_snapshotEvents (fun _ _ => rfl) recvTs id sourceId seq deltas

/-- All events of a batch have one header, up to their number. -/
theorem snapshotEvents_header (recvTs : Timestamp) (id : InstrumentId) (sourceId : SourceId)
    (seq : SeqNum) (deltas : List BookDeltaPayload) :
    ∀ event ∈ snapshotEvents recvTs id sourceId seq deltas, event.header.instrumentId = id ∧
      event.header.recvTs = recvTs ∧ event.header.sourceId = sourceId ∧
      event.header.flags = .isSnapshot := by
  induction deltas generalizing seq with
  | nil =>
      intro event hevent
      cases hevent
  | cons delta deltas ih =>
      intro event hevent
      rcases List.mem_cons.mp hevent with rfl | hevent
      · exact ⟨rfl, rfl, rfl, rfl⟩
      · exact ih _ event hevent

/-- Marking an event changes its flags alone. -/
theorem mem_modify_markLast {events : List HotEvent} {i : Nat} {event : HotEvent}
    (h : event ∈ events.modify i markLast) :
    ∃ event' ∈ events, event = event' ∨ event = markLast event' := by
  obtain ⟨j, hj⟩ := List.mem_iff_getElem?.mp h
  rw [List.getElem?_modify] at hj
  obtain ⟨event', hget, heq⟩ := Option.map_eq_some_iff.mp hj
  refine ⟨event', List.mem_of_getElem? hget, ?_⟩
  split at heq
  · exact Or.inr heq.symm
  · exact Or.inl heq.symm

theorem map_modify_markLast {β : Type} {f : HotEvent → β}
    (h : ∀ event, f (markLast event) = f event) (events : List HotEvent) (i : Nat) :
    (events.modify i markLast).map f = events.map f := by
  refine List.ext_getElem? fun j => ?_
  rw [List.getElem?_map, List.getElem?_map, List.getElem?_modify, Option.map_eq_map,
    Option.map_map]
  refine congrArg (Option.map · events[j]?) (funext fun event => ?_)
  show f (if i = j then markLast event else event) = f event
  split
  · exact h event
  · rfl

/-- Of snapshot events whose last one is marked, that one alone carries the flag. -/
theorem lastInBatch_iff {events : List HotEvent}
    (h : ∀ event ∈ events, event.header.flags = .isSnapshot) (i : Nat)
    (hi : i < (events.modify (events.length - 1) markLast).length) :
    (events.modify (events.length - 1) markLast)[i].header.flags.contains .lastInBatch = true ↔
      i + 1 = (events.modify (events.length - 1) markLast).length := by
  have hlen := hi
  rw [List.length_modify] at hlen
  have hflags := h _ (List.getElem_mem hlen)
  rw [List.getElem_modify, List.length_modify]
  split
  · next hlast =>
      refine iff_of_true ?_ (by omega)
      show (EventFlags.union _ _).contains .lastInBatch = true
      rw [hflags]
      decide
  · next hlast =>
      refine iff_of_false ?_ (by omega)
      rw [hflags]
      decide

variable {json : PolymarketJson} {frame : Frame} {msg : PolymarketBookMsg}
  {dec : PolymarketMarketDecoder D} {id : InstrumentId} {metadata : InstrumentMeta D}

/-- The batch as a list: snapshot events of the first parsable levels, the last one marked. -/
theorem announced_decodeBookInto (hjson : json.book frame.buf = some msg)
    (hresolve : dec.resolve msg.assetId = some (id, metadata)) (out : OutBuffer) :
    let events := snapshotEvents frame.recvTs id dec.sourceId dec.seq
      ((parsedBook metadata msg).take outCapacity)
    announced (dec.decodeBookInto json frame out) = events.modify (events.length - 1) markLast := by
  have hrefines := congrArg Prod.snd (decodeBookInto_refines json dec frame out)
  exact hrefines.trans (decodeBook_eq hjson hresolve frame.recvTs)

theorem announced_quotes (hjson : json.book frame.buf = some msg)
    (hresolve : dec.resolve msg.assetId = some (id, metadata)) (out : OutBuffer) :
    (announced (dec.decodeBookInto json frame out)).map HotEvent.quote? =
      ((parsableBook metadata msg).take 64).map some := by
  rw [announced_decodeBookInto hjson hresolve, map_modify_markLast fun _ => rfl,
    snapshotEvents_quotes, List.map_take, parsedBook_quotes]
  rfl

/-- **Framing.** For every `"book"` message of a known token, the batch holds the first 64
parsable levels, bids before asks, with one header, and its last event alone carries
`LAST_IN_BATCH`; the number of events is the smaller of 64 and the number of parsable
levels. -/
theorem decodeBook_framed (hjson : json.book frame.buf = some msg)
    (hresolve : dec.resolve msg.assetId = some (id, metadata)) (out : OutBuffer) :
    Framed dec frame msg id metadata (announced (dec.decodeBookInto json frame out)) ∧
      (dec.decodeBookInto json frame out).2.2 = min 64 (parsableBook metadata msg).length := by
  have hquotes := announced_quotes hjson hresolve out
  have hheader := snapshotEvents_header frame.recvTs id dec.sourceId dec.seq
    ((parsedBook metadata msg).take outCapacity)
  refine ⟨⟨hquotes, ?_, ?_⟩, ?_⟩
  · rw [announced_decodeBookInto hjson hresolve]
    intro event hevent
    obtain ⟨event', hmem, rfl | rfl⟩ := mem_modify_markLast hevent
    · obtain ⟨hid, hts, hsource, -⟩ := hheader event hmem
      exact ⟨hid, hts, hsource⟩
    · obtain ⟨hid, hts, hsource, -⟩ := hheader event' hmem
      exact ⟨hid, hts, hsource⟩
  · rw [announced_decodeBookInto hjson hresolve]
    exact lastInBatch_iff fun event hevent => (hheader event hevent).2.2.2
  · have hlength := congrArg List.length hquotes
    rw [List.length_map, List.length_map, List.length_take,
      (decodeBookInto_callSpec json dec frame out).length_announced] at hlength
    exact hlength

/-- Of the three levels two are written. -/
theorem decodeBook_framed_broken :
    (shareDecoder.decodeBookInto (parserOf brokenMsg) (snapshotFrame brokenMsg) makeOut).2.2 = 2 :=
  (decodeBook_framed (parserOf_book brokenMsg)
    (show shareDecoder.resolve brokenMsg.assetId = some (1, shareMeta) by decide) makeOut).2.trans
    (by decide)

end PolymarketMarketDecoder

/-! ### Which tops survive -/

/-- The quote is a best one of its side: no bid is higher, or no ask lower. -/
def IsTop (quotes : List Quote) (quote : Quote) : Prop :=
  quote ∈ quotes ∧ ∀ other ∈ quotes,
    match quote.1 with
    | .bid => other.2.1 ≤ quote.2.1
    | .ask => quote.2.1 ≤ other.2.1

/-- The batch has a best quote of these. -/
def KeepsTop (quotes : List Quote) (events : List HotEvent) : Prop :=
  ∃ event ∈ events, ∃ quote, event.quote? = some quote ∧ IsTop quotes quote

theorem side_of_mem_parsableLevels {metadata : InstrumentMeta D} {side : Side}
    {levels : List BookLevel} {quote : Quote} (h : quote ∈ parsableLevels metadata side levels) :
    quote.1 = side := by
  obtain ⟨level, -, hparse⟩ := List.mem_filterMap.mp h
  obtain ⟨parsed, -, rfl⟩ := Option.map_eq_some_iff.mp hparse
  rfl

/-- A side with a parsable level has a best one. -/
theorem exists_isTop {quotes : List Quote} (side : Side) (hside : ∀ quote ∈ quotes, quote.1 = side)
    (h : quotes ≠ []) : ∃ quote, IsTop quotes quote := by
  have hne : quotes.toFinset.Nonempty := by
    obtain ⟨quote, hquote⟩ := List.exists_mem_of_ne_nil quotes h
    exact ⟨quote, List.mem_toFinset.mpr hquote⟩
  cases side with
  | bid =>
      obtain ⟨quote, hmem, hmax⟩ := quotes.toFinset.exists_max_image (fun q => q.2.1.toInt) hne
      have hmem' := List.mem_toFinset.mp hmem
      refine ⟨quote, hmem', fun other hother => ?_⟩
      rw [hside quote hmem']
      exact Int64.le_iff_toInt_le.mpr (hmax other (List.mem_toFinset.mpr hother))
  | ask =>
      obtain ⟨quote, hmem, hmin⟩ := quotes.toFinset.exists_min_image (fun q => q.2.1.toInt) hne
      have hmem' := List.mem_toFinset.mp hmem
      refine ⟨quote, hmem', fun other hother => ?_⟩
      rw [hside quote hmem']
      exact Int64.le_iff_toInt_le.mpr (hmin other (List.mem_toFinset.mpr hother))

/-- Keeping a top is a matter of the quotes of the batch. -/
theorem keepsTop_iff_quotes {quotes batch : List Quote} {events : List HotEvent}
    (h : events.map HotEvent.quote? = batch.map some) :
    KeepsTop quotes events ↔ ∃ quote ∈ batch, IsTop quotes quote := by
  have hmem : ∀ quote, (∃ event ∈ events, event.quote? = some quote) ↔ quote ∈ batch := by
    intro quote
    rw [← List.mem_map, h]
    simp
  constructor
  · rintro ⟨event, hevent, quote, hquote, htop⟩
    exact ⟨quote, (hmem quote).mp ⟨event, hevent, hquote⟩, htop⟩
  · rintro ⟨quote, hquote, htop⟩
    obtain ⟨event, hevent, heq⟩ := (hmem quote).mpr hquote
    exact ⟨event, hevent, quote, heq, htop⟩

/-- A top of one side is not found among the quotes of the other. -/
theorem top_of_side {quotes batch mine theirs : List Quote} {side : Side}
    (hquotes : ∀ quote ∈ quotes, quote.1 = side) (htheirs : ∀ quote ∈ theirs, quote.1 ≠ side)
    (hbatch : ∀ quote, quote ∈ batch ↔ quote ∈ mine ∨ quote ∈ theirs) :
    (∃ quote ∈ batch, IsTop quotes quote) ↔ ∃ quote ∈ mine, IsTop quotes quote := by
  constructor
  · rintro ⟨quote, hmem, htop⟩
    rcases (hbatch quote).mp hmem with hmem | hmem
    · exact ⟨quote, hmem, htop⟩
    · exact absurd (hquotes quote htop.1) (htheirs quote hmem)
  · rintro ⟨quote, hmem, htop⟩
    exact ⟨quote, (hbatch quote).mpr (Or.inl hmem), htop⟩

section

variable {json : PolymarketJson} {frame : Frame} {msg : PolymarketBookMsg}
  {dec : PolymarketMarketDecoder D} {id : InstrumentId} {metadata : InstrumentMeta D}

/-- **The cut goes by position.** The best bid is in the batch exactly when one of the first
64 parsable bids has its price, and the best ask exactly when an ask within the room the
bids leave has its price. A message of at most 64 parsable levels, some on each side,
keeps both. -/
theorem keepsTops_iff (hjson : json.book frame.buf = some msg)
    (hresolve : dec.resolve msg.assetId = some (id, metadata)) (out : OutBuffer) :
    let bids := parsableLevels metadata .bid msg.bids
    let asks := parsableLevels metadata .ask msg.asks
    let events := announced (dec.decodeBookInto json frame out)
    (KeepsTop bids events ↔ ∃ quote ∈ bids.take 64, IsTop bids quote) ∧
    (KeepsTop asks events ↔ ∃ quote ∈ asks.take (64 - bids.length), IsTop asks quote) ∧
    (bids ≠ [] → asks ≠ [] → bids.length + asks.length ≤ 64 →
      KeepsTop bids events ∧ KeepsTop asks events) := by
  intro bids asks events
  have hbidSide : ∀ quote ∈ bids, quote.1 = .bid := fun _ h => side_of_mem_parsableLevels h
  have haskSide : ∀ quote ∈ asks, quote.1 = .ask := fun _ h => side_of_mem_parsableLevels h
  have hquotes : events.map HotEvent.quote? =
      (bids.take 64 ++ asks.take (64 - bids.length)).map some := by
    rw [← List.take_append]
    exact announced_quotes hjson hresolve out
  have hbid := (keepsTop_iff_quotes hquotes).trans
    (top_of_side hbidSide (fun quote hmem => by
      rw [haskSide quote (List.mem_of_mem_take hmem)]
      decide) fun _ => List.mem_append)
  have hask := (keepsTop_iff_quotes hquotes).trans
    (top_of_side haskSide (fun quote hmem => by
      rw [hbidSide quote (List.mem_of_mem_take hmem)]
      decide) fun _ => List.mem_append.trans or_comm)
  refine ⟨hbid, hask, fun hb ha hroom => ⟨hbid.mpr ?_, hask.mpr ?_⟩⟩
  · obtain ⟨quote, htop⟩ := exists_isTop .bid hbidSide hb
    exact ⟨quote, by rw [List.take_of_length_le (by omega)]; exact htop.1, htop⟩
  · obtain ⟨quote, htop⟩ := exists_isTop .ask haskSide ha
    exact ⟨quote, by rw [List.take_of_length_le (by omega)]; exact htop.1, htop⟩

end

/-- A snapshot within the buffer keeps both tops. -/
theorem keepsTops_broken :
    KeepsTop (parsableLevels shareMeta .bid brokenMsg.bids)
        (announced (shareDecoder.decodeBookInto (parserOf brokenMsg) (snapshotFrame brokenMsg)
          makeOut)) ∧
      KeepsTop (parsableLevels shareMeta .ask brokenMsg.asks)
        (announced (shareDecoder.decodeBookInto (parserOf brokenMsg) (snapshotFrame brokenMsg)
          makeOut)) :=
  (keepsTops_iff (parserOf_book brokenMsg)
    (show shareDecoder.resolve brokenMsg.assetId = some (1, shareMeta) by decide) makeOut).2.2
    (by decide) (by decide) (by decide)

/-- 64 bids take all the room: the only ask, which is the best one, is cut off. -/
theorem deep_snapshot_loses_ask :
    (parserOf deepMsg).book (snapshotFrame deepMsg).buf = some deepMsg ∧
    shareDecoder.resolve deepMsg.assetId = some (1, shareMeta) ∧
    parsableLevels shareMeta .bid deepMsg.bids ≠ [] ∧
    parsableLevels shareMeta .ask deepMsg.asks ≠ [] ∧
    ¬ KeepsTop (parsableLevels shareMeta .ask deepMsg.asks)
      (announced (shareDecoder.decodeBookInto (parserOf deepMsg) (snapshotFrame deepMsg)
        makeOut)) := by
  have hresolve : shareDecoder.resolve deepMsg.assetId = some (1, shareMeta) := by decide
  have hbids : (parsableLevels shareMeta .bid deepMsg.bids).length = 64 := by decide +kernel
  refine ⟨parserOf_book deepMsg, hresolve, ?_, by decide, ?_⟩
  · intro hnil
    rw [hnil] at hbids
    cases hbids
  · have hquotes := PolymarketMarketDecoder.announced_quotes (parserOf_book deepMsg) hresolve
      makeOut
    rw [parsableBook, List.take_append, hbids, Nat.sub_self, List.take_zero, List.append_nil]
      at hquotes
    rw [keepsTop_iff_quotes hquotes]
    rintro ⟨quote, hmem, htop⟩
    have hbid := side_of_mem_parsableLevels (List.mem_of_mem_take hmem)
    rw [side_of_mem_parsableLevels htop.1] at hbid
    cases hbid

end Mantis
