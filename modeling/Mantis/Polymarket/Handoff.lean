import Mantis.MarketState.Snapshot
import Mantis.Polymarket.Decoder

/-!
# Mantis.Polymarket.Handoff

The hand-off of a Polymarket snapshot from the decoder to the market-state engine.

The two sides read `IS_SNAPSHOT` differently. The decoder sets it on every event of the
batch ("the event is part of a snapshot"), and the engine takes it for the first event of
a batch: each one clears the book again. What the batch leaves behind is therefore its
last level alone, and `handedOff_iff` says for which messages that is the whole snapshot.
-/

namespace Mantis

open PolymarketMarketDecoder Runs

variable {D N MAX : Nat}

/-! ### What a message says -/

/-- The level offers a quantity at an index of the tick grid: its price is that many
ticks, its size at least one lot and the quantity its whole lots. -/
structure BookLevel.Denotes (metadata : InstrumentMeta D) (level : BookLevel)
    (offer : Fin N × Lots) : Prop where
  price : ∃ p : FixedI64 D, FixedI64.parseDecimalBytes level.price.toUTF8.data.toList = .ok p ∧
    p.raw.toInt = offer.1.val * metadata.tickSize.raw.toInt
  size : ∃ s : FixedI64 D, FixedI64.parseDecimalBytes level.size.toUTF8.data.toList = .ok s ∧
    metadata.lotSize.raw.toInt ≤ s.raw.toInt ∧
    offer.2.toInt = s.raw.toInt / metadata.lotSize.raw.toInt

/-- The message is the snapshot with these bids and asks: at most 64 levels, with
distinct prices within a side. -/
structure PolymarketBookMsg.Denotes (metadata : InstrumentMeta D) (msg : PolymarketBookMsg)
    (bids asks : List (Fin N × Lots)) : Prop where
  bids_denote : List.Forall₂ (BookLevel.Denotes metadata) msg.bids bids
  asks_denote : List.Forall₂ (BookLevel.Denotes metadata) msg.asks asks
  bids_nodup : (bids.map Prod.fst).Nodup
  asks_nodup : (asks.map Prod.fst).Nodup
  length_le : msg.bids.length + msg.asks.length ≤ 64

/-- The delta writes a positive quantity at an index of one side. -/
structure BookDeltaPayload.Writes (delta : BookDeltaPayload) (offer : Side × Fin N × Lots) :
    Prop where
  side : delta.side = offer.1
  price : ArrayBook.index? N delta.price = some offer.2.1
  qty : delta.qty = offer.2.2
  pos : 0 < offer.2.2

theorem BookLevel.Denotes.parsePriceQty {metadata : InstrumentMeta D} {level : BookLevel}
    {offer : Fin N × Lots} (h : level.Denotes metadata offer) :
    ∃ price, PolymarketMarketDecoder.parsePriceQty level.price level.size metadata =
        some (price, offer.2) ∧
      ArrayBook.index? N price = some offer.1 ∧ 0 < offer.2 := by
  obtain ⟨p, hp, hgrid⟩ := h.price
  obtain ⟨s, hs, hlot, hqty⟩ := h.size
  obtain ⟨t, hticks, ht⟩ := metadata.priceToTicks_eq p
  obtain ⟨l, hlots, hl⟩ := metadata.qtyToLots_eq s
  have htick := metadata.tickSize_pos
  have hlotpos := metadata.lotSize_pos
  have htidx : t.toInt = offer.1.val := by
    rw [ht, hgrid]
    exact Int.mul_tdiv_cancel _ (by omega)
  have hlq : l = offer.2 := by
    refine Int64.toInt_inj.mp ?_
    rw [hl, hqty]
    exact Int.tdiv_eq_ediv_of_nonneg (by omega)
  have hpos : 0 < offer.2 := by
    have hone := Int.le_ediv_of_mul_le hlotpos ((Int.one_mul _).trans_le hlot)
    rw [Int64.lt_iff_toInt_lt, hqty]
    exact hone
  refine ⟨t, ?_, ArrayBook.index?_of_toInt htidx, hpos⟩
  simp only [PolymarketMarketDecoder.parsePriceQty]
  rw [hp, hs]
  simp [Except.toOption, hticks, hlots, hlq]

/-- The parsed levels of a side write what its levels denote. -/
theorem parsedLevels_writes {metadata : InstrumentMeta D} {levels : List BookLevel}
    {offers : List (Fin N × Lots)} (h : List.Forall₂ (BookLevel.Denotes metadata) levels offers)
    (side : Side) (depthIdx : Nat) :
    List.Forall₂ BookDeltaPayload.Writes (parsedLevels metadata side depthIdx levels)
      (offers.map (Prod.mk side)) := by
  induction h generalizing depthIdx with
  | nil => exact .nil
  | cons hlevel _ ih =>
      obtain ⟨price, hparse, hprice, hpos⟩ := hlevel.parsePriceQty
      simp only [parsedLevels]
      rw [hparse]
      exact .cons ⟨rfl, hprice, rfl, hpos⟩ (ih (depthIdx + 1))

/-- A snapshot as one list, in the order of the batch. -/
def offersOf (bids asks : List (Fin N × Lots)) : List (Side × Fin N × Lots) :=
  bids.map (Prod.mk .bid) ++ asks.map (Prod.mk .ask)

theorem PolymarketBookMsg.Denotes.writes {metadata : InstrumentMeta D} {msg : PolymarketBookMsg}
    {bids asks : List (Fin N × Lots)} (h : msg.Denotes metadata bids asks) :
    List.Forall₂ BookDeltaPayload.Writes (parsedBook metadata msg) (offersOf bids asks) :=
  List.rel_append (parsedLevels_writes h.bids_denote .bid 0)
    (parsedLevels_writes h.asks_denote .ask 0)

theorem PolymarketBookMsg.Denotes.length_eq {metadata : InstrumentMeta D}
    {msg : PolymarketBookMsg} {bids asks : List (Fin N × Lots)}
    (h : msg.Denotes metadata bids asks) :
    msg.bids.length = bids.length ∧ msg.asks.length = asks.length ∧
      (parsedBook metadata msg).length = bids.length + asks.length := by
  refine ⟨h.bids_denote.length_eq, h.asks_denote.length_eq, ?_⟩
  rw [h.writes.length_eq]
  simp [offersOf]

/-! ### What the engine makes of one event of the batch -/

namespace InstrumentState

/-- **A snapshot delta starts over.** Whatever the book held, after a delta with
`IS_SNAPSHOT` it holds the level of that delta alone. -/
theorem onBookDelta_shows {header : EventHeader} {delta : BookDeltaPayload}
    {offer : Side × Fin N × Lots} (hsnapshot : header.flags.contains .isSnapshot = true)
    (hwrites : delta.Writes offer) (slot : Nat) (st : InstrumentState (ArrayBook N)) (s : Side) :
    (st.onBookDelta header delta slot).1.book.Shows s (if s = offer.1 then [offer.2] else []) := by
  have hside : (st.onBookDelta header delta slot).1.book.side s =
      if s = offer.1 then (Vector.replicate N 0).set offer.2.1 offer.2.2 offer.2.1.isLt
      else Vector.replicate N 0 := by
    rw [onBookDelta_side, applyBookDelta_of_snapshot hsnapshot]
    show ((ArrayBook.clear _).applyDelta delta.price delta.qty delta.side delta.action).side s = _
    rw [ArrayBook.applyDelta_side hwrites.price, ArrayBook.clear_side, hwrites.side, hwrites.qty]
  split
  · next hs => exact ArrayBook.shows_of_single hwrites.pos (hside.trans (if_pos hs))
  · next hs => exact ArrayBook.shows_of_empty (hside.trans (if_neg hs))

/-- The last delta of a batch that carries `IS_SNAPSHOT` completes the snapshot. -/
theorem onBookDelta_ready {header : EventHeader} (delta : BookDeltaPayload)
    (hsnapshot : header.flags.contains .isSnapshot = true)
    (hlast : header.flags.contains .lastInBatch = true) (slot : Nat)
    (st : InstrumentState (ArrayBook N)) :
    (st.onBookDelta header delta slot).1.snapshotReceived = true := by
  have hend : (st.applyBookDelta header delta).endSnapshot.snapshotReceived = true := by
    rw [applyBookDelta_of_snapshot hsnapshot]
    rfl
  simp only [onBookDelta]
  rw [if_pos hlast, if_pos hend, (checkBboPriceChange_keeps _ slot).2.1, hend]

end InstrumentState

/-! ### The batch -/

/-- What the hand-off promises: the book of the instrument holds exactly the snapshot,
and the instrument is ready. -/
def MarketStateEngine.HandedOff (e : MarketStateEngine (ArrayBook N) MAX) (i : InstrumentId)
    (bids asks : List (Fin N × Lots)) : Prop :=
  ∃ st, e.state? i = some st ∧ st.book.Shows .bid bids ∧ st.book.Shows .ask asks ∧
    e.isReady i = true

/-- The book of the instrument is empty and the instrument is ready. -/
def MarketStateEngine.EmptyAndReady (e : MarketStateEngine (ArrayBook N) MAX)
    (i : InstrumentId) : Prop :=
  ∃ st, e.state? i = some st ∧ ¬ st.book.Populated .bid ∧ ¬ st.book.Populated .ask ∧
    e.isReady i = true

theorem MarketStateEngine.handedOff_nil_iff {e : MarketStateEngine (ArrayBook N) MAX}
    {i : InstrumentId} : e.HandedOff i [] [] ↔ e.EmptyAndReady i := by
  simp only [HandedOff, EmptyAndReady, ArrayBook.shows_nil_iff]

section

variable {parseJson : List UInt8 → Option PolymarketBookMsg} {buf : List UInt8}
  {msg : PolymarketBookMsg} {dec : PolymarketMarketDecoder D} {i : InstrumentId}
  {metadata : InstrumentMeta D} {e : MarketStateEngine (ArrayBook N) MAX}
  {bids asks : List (Fin N × Lots)}

/-- **Only the last level survives.** After a batch with at least one level, the book of
the instrument holds the last level of the message and nothing else. -/
theorem run_decodeBook_last (hjson : parseJson buf = some msg)
    (hresolve : dec.resolve msg.assetId = some (i, metadata)) (hslot : (e.slot? i).isSome)
    (hmsg : msg.Denotes metadata bids asks) (recvTs : Timestamp)
    {offers : List (Side × Fin N × Lots)} {offer : Side × Fin N × Lots}
    (hoffers : offersOf bids asks = offers ++ [offer]) :
    ∃ st, (run MarketStateEngine.process e (dec.decodeBook parseJson buf recvTs).2).state? i =
        some st ∧
      (∀ s, st.book.Shows s (if s = offer.1 then [offer.2] else [])) ∧
      st.snapshotReceived = true := by
  have hwrites := hmsg.writes
  rw [hoffers] at hwrites
  -- the delta of the last level
  obtain ⟨delta, hdelta, hlast⟩ : ∃ delta, delta.Writes offer ∧
      (parsedBook metadata msg).drop offers.length = [delta] := by
    have hdrop := List.forall₂_drop_append _ _ _ hwrites
    obtain ⟨delta, rest, hdelta, hrest, hcons⟩ := List.forall₂_cons_right_iff.mp hdrop
    rw [List.forall₂_nil_right_iff.mp hrest] at hcons
    exact ⟨delta, hdelta, hcons⟩
  have hdeltas : (parsedBook metadata msg).take outCapacity =
      (parsedBook metadata msg).take offers.length ++ [delta] := by
    obtain ⟨hbids, hasks, hlength⟩ := hmsg.length_eq
    have hle := hmsg.length_le
    rw [← hlast, List.take_append_drop]
    exact List.take_of_length_le (by show _ ≤ 64; omega)
  rw [decodeBook_concat hjson hresolve recvTs hdeltas]
  have hflags : (EventFlags.isSnapshot.union .lastInBatch).contains .isSnapshot = true ∧
      (EventFlags.isSnapshot.union .lastInBatch).contains .lastInBatch = true := by decide
  obtain ⟨st, hst⟩ := MarketStateEngine.run_process_concat (e := e)
    (HotEvent.bookDelta recvTs _ i dec.sourceId _ delta) hslot _
  exact ⟨_, hst, fun s => InstrumentState.onBookDelta_shows hflags.1 hdelta _ st s,
    InstrumentState.onBookDelta_ready delta hflags.1 hflags.2 _ st⟩

theorem eq_of_offersOf {offer : Side × Fin N × Lots} (h : offersOf bids asks = [offer]) :
    bids = (if Side.bid = offer.1 then [offer.2] else []) ∧
      asks = if Side.ask = offer.1 then [offer.2] else [] := by
  rcases List.append_eq_singleton_iff.mp h with ⟨hb, ha⟩ | ⟨hb, ha⟩
  · obtain ⟨level, hlevel, rfl⟩ := List.map_eq_singleton_iff.mp ha
    exact ⟨List.map_eq_nil_iff.mp hb, hlevel⟩
  · obtain ⟨level, hlevel, rfl⟩ := List.map_eq_singleton_iff.mp hb
    exact ⟨hlevel, List.map_eq_nil_iff.mp ha⟩

/-- A side that shows two lists of distinct levels shows at most as many as the second. -/
theorem ArrayBook.Shows.length_le {b : ArrayBook N} {s : Side} {levels levels' : List (Fin N × Lots)}
    (h : b.Shows s levels) (h' : b.Shows s levels') (hnodup : (levels.map Prod.fst).Nodup) :
    levels.length ≤ levels'.length := by
  refine (List.subperm_of_subset hnodup.of_map ?_).length_le
  intro level hlevel
  exact (h' level.1 level.2).mp ((h level.1 level.2).mpr hlevel)

/-- A message without levels writes no event, so nothing happens. -/
theorem handedOff_of_empty_iff (hjson : parseJson buf = some msg)
    (hresolve : dec.resolve msg.assetId = some (i, metadata)) (hbids : msg.bids = [])
    (hasks : msg.asks = []) (recvTs : Timestamp) :
    (run MarketStateEngine.process e (dec.decodeBook parseJson buf recvTs).2).HandedOff i [] [] ↔
      e.EmptyAndReady i := by
  have hevents : (dec.decodeBook parseJson buf recvTs).2 = [] := by
    rw [decodeBook_eq hjson hresolve]
    simp [parsedBook, parsedLevels, snapshotEvents, hbids, hasks]
  rw [hevents, run_nil, MarketStateEngine.handedOff_nil_iff]

/-- **The hand-off works for one level.** The engine shows the snapshot that the decoder
was given exactly when the message has a single level, or when it has none and the book
was empty and ready before: a message without levels writes no event. -/
theorem handedOff_iff (hjson : parseJson buf = some msg)
    (hresolve : dec.resolve msg.assetId = some (i, metadata)) (hslot : (e.slot? i).isSome)
    (hmsg : msg.Denotes metadata bids asks) (recvTs : Timestamp) :
    (run MarketStateEngine.process e (dec.decodeBook parseJson buf recvTs).2).HandedOff i
        bids asks ↔
      msg.bids.length + msg.asks.length = 1 ∨
        msg.bids = [] ∧ msg.asks = [] ∧ e.EmptyAndReady i := by
  obtain ⟨hbids, hasks, -⟩ := hmsg.length_eq
  have hlength : (offersOf bids asks).length = bids.length + asks.length := by simp [offersOf]
  rcases List.eq_nil_or_concat' (offersOf bids asks) with hnil | ⟨offers, offer, hconcat⟩
  · -- no level, no event
    rw [hnil, List.length_nil] at hlength
    have hb : bids = [] := List.eq_nil_of_length_eq_zero (by omega)
    have ha : asks = [] := List.eq_nil_of_length_eq_zero (by omega)
    subst hb ha
    have hmb : msg.bids = [] := List.eq_nil_of_length_eq_zero hbids
    have hma : msg.asks = [] := List.eq_nil_of_length_eq_zero hasks
    rw [handedOff_of_empty_iff hjson hresolve hmb hma]
    simp [hmb, hma]
  · obtain ⟨st, hst, hshows, hready⟩ := run_decodeBook_last hjson hresolve hslot hmsg recvTs hconcat
    have hone : 1 ≤ bids.length + asks.length := by
      rw [← hlength, hconcat, List.length_append, List.length_singleton]
      omega
    constructor
    · -- the two sides together show a single level
      intro ⟨st', hst', hshowsBid, hshowsAsk, _⟩
      obtain rfl : st = st' := Option.some.inj (hst.symm.trans hst')
      have hbid := hshowsBid.length_le (hshows .bid) hmsg.bids_nodup
      have hask := hshowsAsk.length_le (hshows .ask) hmsg.asks_nodup
      have hboth : (if Side.bid = offer.1 then [offer.2] else []).length +
          (if Side.ask = offer.1 then [offer.2] else []).length = 1 := by
        cases offer.1 <;> rfl
      exact Or.inl (by omega)
    · intro hcond
      rcases hcond with htotal | ⟨hmb, hma, -⟩
      · have hoffers : offers = [] := by
          rw [hconcat, List.length_append, List.length_singleton] at hlength
          exact List.eq_nil_of_length_eq_zero (by omega)
        rw [hoffers, List.nil_append] at hconcat
        obtain ⟨hb, ha⟩ := eq_of_offersOf hconcat
        refine ⟨st, hst, hb ▸ hshows .bid, ha ▸ hshows .ask, ?_⟩
        simp only [MarketStateEngine.isReady]
        rw [hst]
        exact hready
      · rw [hmb, List.length_nil] at hbids
        rw [hma, List.length_nil] at hasks
        omega

end

/-! ### A snapshot of two levels a side -/

def shareEngine : MarketStateEngine (ArrayBook 100) 2 := .new 2 0 (by decide)

/-- A JSON parser on a single document. -/
def parseOnly (json : String) (msg : PolymarketBookMsg) (buf : List UInt8) :
    Option PolymarketBookMsg := if buf = json.toUTF8.data.toList then some msg else none

def twoSidedJson : String :=
  "\x7b\"type\":\"book\",\"asset_id\":\"token_up_123\"," ++
  "\"bids\":[\x7b\"price\":\"0.50\",\"size\":\"100\"\x7d,\x7b\"price\":\"0.49\",\"size\":\"200\"\x7d]," ++
  "\"asks\":[\x7b\"price\":\"0.55\",\"size\":\"150\"\x7d,\x7b\"price\":\"0.56\",\"size\":\"80\"\x7d]\x7d"

def twoSidedMsg : PolymarketBookMsg :=
  ⟨"token_up_123", [⟨"0.50", "100"⟩, ⟨"0.49", "200"⟩], [⟨"0.55", "150"⟩, ⟨"0.56", "80"⟩]⟩

theorem twoSidedMsg_denotes : twoSidedMsg.Denotes shareMeta
    [((50 : Fin 100), 100), (49, 200)] [(55, 150), (56, 80)] where
  bids_denote :=
    .cons ⟨⟨⟨500000⟩, by decide, by decide⟩, ⟨⟨100000000⟩, by decide, by decide, by decide⟩⟩
      (.cons ⟨⟨⟨490000⟩, by decide, by decide⟩, ⟨⟨200000000⟩, by decide, by decide, by decide⟩⟩
        .nil)
  asks_denote :=
    .cons ⟨⟨⟨550000⟩, by decide, by decide⟩, ⟨⟨150000000⟩, by decide, by decide, by decide⟩⟩
      (.cons ⟨⟨⟨560000⟩, by decide, by decide⟩, ⟨⟨80000000⟩, by decide, by decide, by decide⟩⟩
        .nil)
  bids_nodup := by decide
  asks_nodup := by decide
  length_le := by decide

/-- The batch of the message in a fresh engine: the bids are gone. -/
theorem snapshot_levels_lost :
    twoSidedMsg.Denotes shareMeta [((50 : Fin 100), 100), (49, 200)] [(55, 150), (56, 80)] ∧
    shareDecoder.resolve twoSidedMsg.assetId = some (1, shareMeta) ∧
    (shareEngine.slot? 1).isSome ∧
    ¬ (run MarketStateEngine.process shareEngine
        (shareDecoder.decodeBook (parseOnly twoSidedJson twoSidedMsg)
          twoSidedJson.toUTF8.data.toList 0).2).HandedOff 1
      [(50, 100), (49, 200)] [(55, 150), (56, 80)] := by
  refine ⟨twoSidedMsg_denotes, by decide, by decide, ?_⟩
  intro ⟨st, hst, hbids, _⟩
  have hgone : ((run MarketStateEngine.process shareEngine
        (shareDecoder.decodeBook (parseOnly twoSidedJson twoSidedMsg)
          twoSidedJson.toUTF8.data.toList 0).2).state? 1).map
      (fun st => (st.book.side .bid).get 50) = some 0 := by decide +kernel
  rw [hst] at hgone
  have h50 := ((hbids 50 100).mpr (by decide)).2
  rw [Option.map_some, h50] at hgone
  exact absurd hgone (by decide)

def oneBidJson : String :=
  "\x7b\"type\":\"book\",\"asset_id\":\"token_up_123\"," ++
  "\"bids\":[\x7b\"price\":\"0.50\",\"size\":\"100\"\x7d],\"asks\":[]\x7d"

def oneBidMsg : PolymarketBookMsg := ⟨"token_up_123", [⟨"0.50", "100"⟩], []⟩

theorem oneBidMsg_denotes : oneBidMsg.Denotes shareMeta [((50 : Fin 100), 100)] [] where
  bids_denote :=
    .cons ⟨⟨⟨500000⟩, by decide, by decide⟩, ⟨⟨100000000⟩, by decide, by decide, by decide⟩⟩ .nil
  asks_denote := .nil
  bids_nodup := by decide
  asks_nodup := by decide
  length_le := by decide

/-- A snapshot of one level arrives whole. -/
theorem handedOff_oneBid :
    (run MarketStateEngine.process shareEngine
        (shareDecoder.decodeBook (parseOnly oneBidJson oneBidMsg)
          oneBidJson.toUTF8.data.toList 0).2).HandedOff 1 [(50, 100)] [] :=
  (handedOff_iff (if_pos rfl) (by decide) (by decide) oneBidMsg_denotes 0).mpr (Or.inl rfl)

end Mantis
