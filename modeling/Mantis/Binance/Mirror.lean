import Mantis.Binance.Decoder
import Mantis.MarketState.Replay

/-!
# Mantis.Binance.Mirror

What the market-state engine shows of a Binance feed.

The decoder keeps its symbols in fixed arrays that `new` fills from the mappings;
`findSymbol_eq` says that the arrays are the list: the first mapping of a ticker's symbol
answers for it. With that, a decode call is a function of the frame and the mappings
(`quoteIn`), and so is what the engine shows after a stream of frames: the last ticker of the
instrument among the frames that got through (`binance_mirror`).
-/

namespace Mantis

open Runs

variable {D : Nat}

/-! ### A ticker and the mappings -/

/-- The quote of a ticker on the grid of an instrument, if its four numbers parse. -/
def InstrumentMeta.quote? (metadata : InstrumentMeta D) (ticker : BinanceBookTicker) :
    Option TopOfBookPayload := do
  let bidPriceFixed ← (FixedI64.parseDecimalBytes (D := D) ticker.b.toUTF8.data.toList).toOption
  let askPriceFixed ← (FixedI64.parseDecimalBytes (D := D) ticker.a.toUTF8.data.toList).toOption
  let bidQtyFixed ← (FixedI64.parseDecimalBytes (D := D) ticker.bidQty.toUTF8.data.toList).toOption
  let askQtyFixed ← (FixedI64.parseDecimalBytes (D := D) ticker.askQty.toUTF8.data.toList).toOption
  let bidPrice ← metadata.priceToTicks bidPriceFixed
  let askPrice ← metadata.priceToTicks askPriceFixed
  let bidQty ← metadata.qtyToLots bidQtyFixed
  let askQty ← metadata.qtyToLots askQtyFixed
  pure ⟨bidPrice, bidQty, askPrice, askQty⟩

/-- The first mapping of the ticker's symbol answers for it. -/
def quoteOf (mappings : List (BinanceSymbolMapping D)) (ticker : BinanceBookTicker) :
    Option (InstrumentId × TopOfBookPayload) :=
  (mappings.find? fun m => m.symbol = ticker.s).bind fun m =>
    (m.metadata.quote? ticker).map (Prod.mk m.instrumentId)

/-- What a top of book event says. -/
def HotEvent.tobQuote? (event : HotEvent) : Option (InstrumentId × TopOfBookPayload) :=
  match event.body with
  | .topOfBook tob => some (event.header.instrumentId, tob)
  | _ => none

/-- The ticker in a frame, bare or in a combined stream. -/
def tickerIn (json : BinanceJson) (combined : Bool) (frame : Frame) : Option BinanceBookTicker :=
  if combined then (json.combinedStream frame.buf).map fun combined => combined.data
  else json.bookTicker frame.buf

def quoteIn (json : BinanceJson) (combined : Bool) (mappings : List (BinanceSymbolMapping D))
    (frame : Frame) : Option (InstrumentId × TopOfBookPayload) :=
  (tickerIn json combined frame).bind (quoteOf mappings)

/-! ### The book of a quote -/

namespace TopOfBookPayload

/-- The one level of a side. -/
def level (tob : TopOfBookPayload) : Side → Ticks × Lots
  | .bid => (tob.bidPrice, tob.bidQty)
  | .ask => (tob.askPrice, tob.askQty)

/-- A bid and an ask, in an array of `N` levels. -/
def shown (tob : TopOfBookPayload) (N : Nat) : PriceMaps := fun s p =>
  if InRange N p ∧ p = (tob.level s).1 then (tob.level s).2 else 0

/-- The level of a side, if it is within the array and has a quantity. -/
def best (tob : TopOfBookPayload) (N : Nat) (s : Side) : Option (Ticks × Lots) :=
  if InRange N (tob.level s).1 ∧ 0 < (tob.level s).2 then some (tob.level s) else none

theorem quoted_shown (tob : TopOfBookPayload) (N : Nat) (s : Side) :
    (tob.shown N).quoted s = { p | (tob.best N s).map Prod.fst = some p } := by
  ext p
  simp only [PriceMaps.quoted, shown, best, Set.mem_ofPred_eq]
  by_cases hp : InRange N p ∧ p = (tob.level s).1
  · obtain ⟨hrange, rfl⟩ := hp
    rw [if_pos ⟨hrange, rfl⟩]
    by_cases hqty : 0 < (tob.level s).2
    · simp [hrange, hqty]
    · simp [hqty]
  · rw [if_neg hp]
    refine iff_of_false (by decide) fun h => hp ?_
    split at h
    · next hbest =>
        obtain rfl : (tob.level s).1 = p := Option.some.inj h
        exact ⟨hbest.1, rfl⟩
    · cases h

theorem shown_best {tob : TopOfBookPayload} {N : Nat} {s : Side} {level : Ticks × Lots}
    (h : tob.best N s = some level) : tob.shown N s level.1 = level.2 := by
  simp only [best] at h
  split at h
  · next hbest =>
      obtain rfl : tob.level s = level := Option.some.inj h
      exact if_pos ⟨hbest.1, rfl⟩
  · cases h

theorem isBid_shown (tob : TopOfBookPayload) (N : Nat) :
    (tob.shown N).IsBid (tob.best N .bid) := by
  have hquoted := tob.quoted_shown N .bid
  cases hbest : tob.best N .bid with
  | none => rw [PriceMaps.IsBid, hquoted, hbest]; simp
  | some level =>
      rw [PriceMaps.IsBid, hquoted, hbest]
      exact ⟨⟨rfl, fun _ hp => Int64.le_of_eq (Option.some.inj hp).symm⟩, (shown_best hbest).symm⟩

theorem isAsk_shown (tob : TopOfBookPayload) (N : Nat) :
    (tob.shown N).IsAsk (tob.best N .ask) := by
  have hquoted := tob.quoted_shown N .ask
  cases hbest : tob.best N .ask with
  | none => rw [PriceMaps.IsAsk, hquoted, hbest]; simp
  | some level =>
      rw [PriceMaps.IsAsk, hquoted, hbest]
      exact ⟨⟨rfl, fun _ hp => Int64.le_of_eq (Option.some.inj hp)⟩, (shown_best hbest).symm⟩

end TopOfBookPayload

/-- The newest quote of an instrument. -/
def newestQuote (i : InstrumentId) (quotes : List (InstrumentId × TopOfBookPayload)) :
    Option TopOfBookPayload :=
  (quotes.reverse.find? fun q => q.1 = i).map Prod.snd

/-! ### The symbol table -/

theorem toUTF8_inj {s t : String} : s.toUTF8.data.toList = t.toUTF8.data.toList ↔ s = t := by
  rw [Array.toList_inj, ← ByteArray.ext_iff]
  exact String.toByteArray_inj

namespace BinanceDecoder

/-- Row `k` of the table is the mapping. -/
structure RowIs (dec : BinanceDecoder D) (k : Nat) (m : BinanceSymbolMapping D) : Prop where
  instrumentId : dec.instrumentIds[k]? = some m.instrumentId
  metadata : dec.metas[k]? = some m.metadata
  name : dec.symbolNames[k]? = some
    (Vector.ofFn fun j : Fin maxSymbolLen => m.symbol.toUTF8.data.toList.getD j 0)
  len : dec.symbolLens[k]? = some (UInt8.ofNat m.symbol.toUTF8.data.toList.length)
  short : m.symbol.toUTF8.data.toList.length ≤ maxSymbolLen

/-- The rows in use are the mappings. -/
structure Holds (dec : BinanceDecoder D) (mappings : List (BinanceSymbolMapping D)) : Prop where
  len : dec.len = mappings.length
  row : ∀ k m, mappings[k]? = some m → dec.RowIs k m

/-- Filling from row `i` on writes the rows of the mappings and keeps those before. -/
theorem fill_rows {dec dec' : BinanceDecoder D} {i : Nat}
    {mappings : List (BinanceSymbolMapping D)} (h : dec.fill i mappings = .ok dec')
    (hroom : i + mappings.length ≤ maxBinanceSymbols) :
    dec'.len = dec.len ∧ (∀ k m, k < i → dec.RowIs k m → dec'.RowIs k m) ∧
      ∀ j m, mappings[j]? = some m → dec'.RowIs (i + j) m := by
  induction mappings generalizing dec i with
  | nil =>
      cases h
      exact ⟨rfl, fun _ _ _ h => h, fun j m hj => by cases hj⟩
  | cons first mappings ih =>
      rw [List.length_cons] at hroom
      simp only [fill] at h
      split at h
      · cases h
      · next hshort =>
          obtain ⟨hlen, hbefore, hrows⟩ := ih h (by omega)
          have hi : i < maxBinanceSymbols := by omega
          refine ⟨hlen, fun k m hk hrow => ?_, fun j m hj => ?_⟩
          · -- a row written earlier
            refine hbefore k m (by omega) ⟨?_, ?_, ?_, ?_, hrow.short⟩
            · rw [Vector.getElem?_setIfInBounds_ne (by omega)]
              exact hrow.instrumentId
            · rw [Vector.getElem?_setIfInBounds_ne (by omega)]
              exact hrow.metadata
            · rw [Vector.getElem?_setIfInBounds_ne (by omega)]
              exact hrow.name
            · rw [Vector.getElem?_setIfInBounds_ne (by omega)]
              exact hrow.len
          · cases j with
            | zero =>
                obtain rfl : first = m := Option.some.inj hj
                refine hbefore i first (by omega) ⟨?_, ?_, ?_, ?_, not_lt.mp hshort⟩
                · exact Vector.getElem?_setIfInBounds_self_of_lt hi
                · exact Vector.getElem?_setIfInBounds_self_of_lt hi
                · exact Vector.getElem?_setIfInBounds_self_of_lt hi
                · exact Vector.getElem?_setIfInBounds_self_of_lt hi
            | succ j =>
                have hrow := hrows j m hj
                rwa [Nat.add_right_comm, Nat.add_assoc] at hrow

theorem new_holds {sourceId : SourceId} {mappings : List (BinanceSymbolMapping D)}
    {dec : BinanceDecoder D} (h : new sourceId mappings = .ok dec) : dec.Holds mappings := by
  cases mappings with
  | nil => cases h
  | cons first rest =>
      simp only [new] at h
      split at h
      · next hmany =>
          obtain ⟨hlen, -, hrows⟩ := fill_rows h (by rwa [Nat.zero_add])
          refine ⟨hlen, fun k m hk => ?_⟩
          have hrow := hrows k m hk
          rwa [Nat.zero_add] at hrow
      · cases h

/-- The test of `findSymbol` on a row compares the symbols. -/
theorem RowIs.test {dec : BinanceDecoder D} {m : BinanceSymbolMapping D}
    {k : Fin maxBinanceSymbols} (h : dec.RowIs k m) (s : String) :
    ((dec.symbolLens.get k).toNat == s.toUTF8.data.toList.length &&
        (dec.symbolNames.get k).toList.take (dec.symbolLens.get k).toNat ==
          s.toUTF8.data.toList) = decide (m.symbol = s) := by
  have hlen : (dec.symbolLens.get k).toNat = m.symbol.toUTF8.data.toList.length := by
    have hrow : dec.symbolLens.get k = UInt8.ofNat m.symbol.toUTF8.data.toList.length :=
      Vector.getElem_eq_iff.mpr h.len
    have hshort := h.short
    rw [hrow, UInt8.toNat_ofNat']
    exact Nat.mod_eq_of_lt (lt_of_le_of_lt hshort (by decide))
  have hname : (dec.symbolNames.get k).toList.take (dec.symbolLens.get k).toNat =
      m.symbol.toUTF8.data.toList := by
    have hrow : dec.symbolNames.get k =
        Vector.ofFn fun j : Fin maxSymbolLen => m.symbol.toUTF8.data.toList.getD j 0 :=
      Vector.getElem_eq_iff.mpr h.name
    have hshort := h.short
    rw [hlen, hrow, Vector.toList_ofFn]
    refine List.ext_getElem ?_ fun j hj hj' => ?_
    · rw [List.length_take, List.length_ofFn, min_eq_left hshort]
    · rw [List.getElem_take, List.getElem_ofFn]
      exact List.getD_eq_getElem _ _ hj'
  rw [hlen, ← hlen, hname, hlen, Bool.eq_iff_iff, Bool.and_eq_true, beq_iff_eq, beq_iff_eq,
    decide_eq_true_eq, ← toUTF8_inj]
  exact ⟨fun h => h.2, fun h => ⟨congrArg List.length h, h⟩⟩

/-- **The table is the list.** `findSymbol` finds the row of the first mapping of the
symbol. -/
theorem findSymbol_eq {dec : BinanceDecoder D} {mappings : List (BinanceSymbolMapping D)}
    (h : dec.Holds mappings) (s : String) :
    ∃ k? : Option (Fin mappings.length),
      dec.findSymbol s.toUTF8.data.toList = k?.map (Fin.castLE (h.len ▸ dec.len_le)) ∧
        (mappings.find? fun m => m.symbol = s) = k?.map mappings.get := by
  refine ⟨(List.finRange mappings.length).find? fun k => (mappings.get k).symbol = s, ?_, ?_⟩
  · simp only [findSymbol]
    have hrows : ∀ n (hn : n = mappings.length) (hle : n ≤ maxBinanceSymbols),
        ((List.finRange n).map (Fin.castLE hle)).find? (fun i =>
            (dec.symbolLens.get i).toNat == s.toUTF8.data.toList.length &&
              (dec.symbolNames.get i).toList.take (dec.symbolLens.get i).toNat ==
                s.toUTF8.data.toList) =
          ((List.finRange mappings.length).find? fun k => (mappings.get k).symbol = s).map
            (Fin.castLE (hn ▸ hle)) := by
      rintro n rfl hle
      rw [List.find?_map]
      refine congrArg (Option.map _) (congrArg (List.find? · _) (funext fun k => ?_))
      exact RowIs.test (h.row k _ (List.getElem?_eq_getElem k.isLt)) s
    exact hrows dec.len h.len dec.len_le
  · conv_lhs => rw [← List.ofFn_get mappings, List.ofFn_eq_map, List.find?_map]
    rfl

theorem parseTicker_bind (dec : BinanceDecoder D) (ticker : BinanceBookTicker) :
    dec.parseTicker ticker = (dec.findSymbol ticker.s.toUTF8.data.toList).bind fun idx =>
      ((dec.metas.get idx).quote? ticker).map (Prod.mk idx) := by
  simp only [parseTicker, InstrumentMeta.quote?, Option.bind_eq_bind, Option.map_bind,
    Function.comp_def, Option.pure_def, Option.map_some]

/-- A ticker is read as the mappings say. -/
theorem parseTicker_eq {dec : BinanceDecoder D} {mappings : List (BinanceSymbolMapping D)}
    (h : dec.Holds mappings) (ticker : BinanceBookTicker) :
    (dec.parseTicker ticker).map (fun r => (dec.instrumentIds.get r.1, r.2)) =
      quoteOf mappings ticker := by
  obtain ⟨k?, hfind, hlist⟩ := findSymbol_eq h ticker.s
  rw [parseTicker_bind, quoteOf, hfind, hlist]
  cases k? with
  | none => rfl
  | some k =>
      have hrow := h.row k _ (List.getElem?_eq_getElem k.isLt)
      have hid : dec.instrumentIds.get (Fin.castLE (h.len ▸ dec.len_le) k) =
          (mappings.get k).instrumentId := Vector.getElem_eq_iff.mpr hrow.instrumentId
      have hmeta : dec.metas.get (Fin.castLE (h.len ▸ dec.len_le) k) = (mappings.get k).metadata :=
        Vector.getElem_eq_iff.mpr hrow.metadata
      simp only [Option.map_some, Option.bind_some, Option.map_map, Function.comp_def, hmeta, hid]

/-! ### A stream of frames -/

/-- One decode call: the quote of the frame becomes an event, and the table stays. -/
theorem decode_quote {dec : BinanceDecoder D} {mappings : List (BinanceSymbolMapping D)}
    (h : dec.Holds mappings) (json : BinanceJson) (frame : Frame) (out : OutBuffer) :
    (announced (dec.decode json frame out)).map HotEvent.tobQuote? =
        ((quoteIn json dec.combinedStream mappings frame).map some).toList ∧
      (dec.decode json frame out).1.Holds mappings ∧
      (dec.decode json frame out).1.combinedStream = dec.combinedStream := by
  have hquote : ((tickerIn json dec.combinedStream frame).bind dec.parseTicker).map
      (fun r => (dec.instrumentIds.get r.1, r.2)) =
        quoteIn json dec.combinedStream mappings frame := by
    rw [quoteIn, Option.map_bind]
    exact congrArg (Option.bind _) (funext fun ticker => parseTicker_eq h ticker)
  rw [← hquote]
  simp only [decode, tickerIn]
  split
  · next hnone =>
      rw [hnone]
      exact ⟨rfl, h, rfl⟩
  · next idx payload hsome =>
      rw [hsome]
      refine ⟨?_, ⟨h.len, fun k m hk => ?_⟩, rfl⟩
      · have hfirst : (out.set 0 (HotEvent.topOfBook frame.recvTs (dec.seq + 1)
            (dec.instrumentIds.get idx) dec.sourceId .empty payload) outCapacity_pos).toList.take 1 =
              [HotEvent.topOfBook frame.recvTs (dec.seq + 1) (dec.instrumentIds.get idx)
                dec.sourceId .empty payload] :=
          Out.written_push (.start out) _ outCapacity_pos
        simp only [announced, hfirst]
        rfl
      · obtain ⟨hid, hmeta, hname, hlen, hshort⟩ := h.row k m hk
        exact ⟨hid, hmeta, hname, hlen, hshort⟩

/-- Over a stream, the events are the quotes of the frames. -/
theorem decoded_quotes {mappings : List (BinanceSymbolMapping D)} (json : BinanceJson)
    (dec : BinanceDecoder D) (h : dec.Holds mappings) (out : OutBuffer) (frames : List Frame) :
    (decoded (decode json) dec out frames).map HotEvent.tobQuote? =
      (frames.filterMap (quoteIn json dec.combinedStream mappings)).map some := by
  induction frames generalizing dec out with
  | nil => rfl
  | cons frame frames ih =>
      obtain ⟨hquote, hholds, hcombined⟩ := decode_quote h json frame out
      simp only [decoded, List.map_append]
      rw [hquote, ih _ hholds, hcombined]
      cases hframe : quoteIn json dec.combinedStream mappings frame with
      | none => rw [List.filterMap_cons_none hframe]; rfl
      | some quote => rw [List.filterMap_cons_some hframe]; rfl

end BinanceDecoder

/-! ### The engine -/

theorem HotEvent.tobQuote?_eq_some {event : HotEvent} {q : InstrumentId × TopOfBookPayload} :
    event.tobQuote? = some q ↔
      event.header.instrumentId = q.1 ∧ event.body = .topOfBook q.2 := by
  cases hbody : event.body <;> simp [tobQuote?, hbody, Prod.ext_iff]

/-- A quote of the instrument sets one level on each side and erases the rest. -/
theorem HotEvent.shows?_of_quote {event : HotEvent} {q : InstrumentId × TopOfBookPayload}
    (h : event.tobQuote? = some q) (i : InstrumentId) (s : Side) (p : Ticks) :
    (event.shows? i s p = if q.1 = i ∧ p = (q.2.level s).1 then some (q.2.level s).2 else none) ∧
      event.erases i = decide (q.1 = i) ∧ event.isTobFor i = decide (q.1 = i) := by
  obtain ⟨hid, hbody⟩ := tobQuote?_eq_some.mp h
  have htob : event.isTobFor i = decide (q.1 = i) := by
    simp [isTobFor, hbody, hid, beq_eq_decide]
  refine ⟨?_, ?_, htob⟩
  · by_cases hi : q.1 = i
    · cases s <;> simp [shows?, hbody, hid, hi, TopOfBookPayload.level, eq_comm]
    · simp [shows?, hid, hi]
  · rw [erases, htob]
    simp [isDeltaFor, hbody]

/-- What the newest of some quotes leaves at a price. -/
theorem latestQuote_quotes {events : List HotEvent}
    {quotes : List (InstrumentId × TopOfBookPayload)}
    (h : events.map HotEvent.tobQuote? = quotes.map some) (i : InstrumentId) (s : Side) (p : Ticks) :
    latestQuote i s p events =
      match quotes.find? fun q => q.1 = i with
      | some q => if p = (q.2.level s).1 then (q.2.level s).2 else 0
      | none => 0 := by
  induction quotes generalizing events with
  | nil =>
      obtain rfl : events = [] := List.map_eq_nil_iff.mp h
      rfl
  | cons q quotes ih =>
      obtain ⟨event, older, rfl, hevent, holder⟩ := List.map_eq_cons_iff.mp h
      obtain ⟨hshows, herases, -⟩ := HotEvent.shows?_of_quote hevent i s p
      simp only [latestQuote, hshows, herases]
      by_cases hi : q.1 = i
      · rw [List.find?_cons_of_pos (by simpa using hi)]
        simp only [hi, true_and, decide_true, if_true]
        split <;> rfl
      · rw [List.find?_cons_of_neg (by simpa using hi), ← ih holder]
        simp [hi]

namespace MarketStateEngine

variable {N MAX : Nat}

/-- An instrument is ready once a quote of it has been processed. -/
theorem run_received {activeCount : Nat} {staleTimeoutNs : UInt64} {h : activeCount ≤ MAX}
    {i : InstrumentId} {events : List HotEvent} {quotes : List (InstrumentId × TopOfBookPayload)}
    (hquotes : events.map HotEvent.tobQuote? = quotes.map some) {st : InstrumentState (ArrayBook N)}
    (hst : (run process (new activeCount staleTimeoutNs h) events).state? i = some st) :
    st.snapshotReceived = (newestQuote i quotes).isSome := by
  induction quotes using List.reverseRecOn generalizing events st with
  | nil =>
      obtain rfl : events = [] := List.map_eq_nil_iff.mp hquotes
      rw [new_state? hst]
      rfl
  | append_singleton quotes q ih =>
      rw [List.map_append] at hquotes
      obtain ⟨before, last, rfl, hbefore, hlast⟩ := List.map_eq_append_iff.mp hquotes
      obtain ⟨event, rest, rfl, hevent, hrest⟩ := List.map_eq_cons_iff.mp hlast
      obtain rfl : rest = [] := List.map_eq_nil_iff.mp hrest
      obtain ⟨st, hprev, rfl⟩ := run_process_snoc_state? hst
      obtain ⟨-, -, htob⟩ := HotEvent.shows?_of_quote hevent i .bid 0
      obtain ⟨-, hbody⟩ := HotEvent.tobQuote?_eq_some.mp hevent
      simp only [newestQuote, List.reverse_append, List.reverse_singleton, List.singleton_append]
      by_cases hi : q.1 = i
      · rw [List.find?_cons_of_pos (by simpa using hi)]
        exact (HotEvent.actOn_flags_of_tob (by rw [htob]; simpa using hi) st).2
      · rw [List.find?_cons_of_neg (by simpa using hi)]
        have hdelta : event.isDeltaFor i = false := by simp [HotEvent.isDeltaFor, hbody]
        rw [(HotEvent.actOn_of_other hdelta (by rw [htob]; simpa using hi) st).2.2.1]
        exact ih hbefore hprev

/-- The book of an instrument after some quotes. -/
theorem run_book (hN : N ≤ 65536) {activeCount : Nat} {staleTimeoutNs : UInt64}
    {h : activeCount ≤ MAX} {i : InstrumentId} {events : List HotEvent}
    {quotes : List (InstrumentId × TopOfBookPayload)}
    (hquotes : events.map HotEvent.tobQuote? = quotes.map some) {st : InstrumentState (ArrayBook N)}
    (hst : (run process (new activeCount staleTimeoutNs h) events).state? i = some st) :
    match newestQuote i quotes with
    | some tob => st.book.quotes = tob.shown N ∧ st.book.bestBid.2 = tob.best N .bid ∧
        st.book.bestAsk.2 = tob.best N .ask
    | none => st.book.quotes = .empty := by
  have hnewest : events.reverse.map HotEvent.tobQuote? = quotes.reverse.map some := by
    rw [List.map_reverse, hquotes, List.map_reverse]
  have hbook : st.book.quotes = fun s p => if InRange N p then
      latestQuote i s p events.reverse else 0 := by
    funext s p
    exact run_quotes _ hst s p
  cases hfind : quotes.reverse.find? fun q => q.1 = i with
  | none =>
      rw [newestQuote, hfind]
      show st.book.quotes = .empty
      rw [hbook]
      funext s p
      rw [latestQuote_quotes hnewest, hfind]
      exact ite_self 0
  | some q =>
      rw [newestQuote, hfind]
      have hshown : st.book.quotes = q.2.shown N := by
        rw [hbook]
        funext s p
        rw [latestQuote_quotes hnewest, hfind, TopOfBookPayload.shown]
        by_cases hp : InRange N p <;> simp [hp]
      refine ⟨hshown, ?_, ?_⟩
      · have hbid := ArrayBook.isBid_bestBid hN st.book
        rw [hshown] at hbid
        exact hbid.unique (q.2.isBid_shown N)
      · have hask := ArrayBook.isAsk_bestAsk hN st.book
        rw [hshown] at hask
        exact hask.unique (q.2.isAsk_shown N)

end MarketStateEngine

/-- What the feed of the decoder lets through. -/
theorem BinanceDecoder.accepted_quotes {σ : Type} (json : BinanceJson)
    (push : σ → HotEvent → σ × Bool) (sink : σ) {sourceId : SourceId}
    {mappings : List (BinanceSymbolMapping D)} {dec : BinanceDecoder D}
    (hnew : BinanceDecoder.new sourceId mappings = .ok dec) (combined : Bool)
    (frames : List Frame) :
    let cb := run (FeedCallback.onFrame (decode json) push)
      (.build (dec.setCombinedStream combined) sink) frames
    let quotes := frames.filterMap (quoteIn json combined mappings)
    ∃ (kept : List (InstrumentId × TopOfBookPayload)) (drops : Nat), kept.Sublist quotes ∧
      kept.length + drops = quotes.length ∧ cb.dropCount = UInt64.ofNat drops ∧
      cb.accepted.map HotEvent.tobQuote? = kept.map some := by
  intro cb quotes
  have hholds : (dec.setCombinedStream combined).Holds mappings := by
    obtain ⟨hlen, hrow⟩ := new_holds hnew
    refine ⟨hlen, fun k m hk => ?_⟩
    obtain ⟨hid, hmeta, hname, hslen, hshort⟩ := hrow k m hk
    exact ⟨hid, hmeta, hname, hslen, hshort⟩
  have hdecoded : (decoded (decode json) (dec.setCombinedStream combined) makeOut frames).map
      HotEvent.tobQuote? = quotes.map some :=
    decoded_quotes json _ hholds makeOut frames
  obtain ⟨hsub, drops, hdrops, hcount⟩ :=
    FeedCallback.build_offers (decode json) push (dec.setCombinedStream combined) sink frames
  have hmap := hsub.map HotEvent.tobQuote?
  -- the accepted events are some of those decoded, and so are their quotes
  rw [hdecoded] at hmap
  obtain ⟨kept, hkept, haccepted⟩ := List.sublist_map_iff.mp hmap
  have hlen : cb.accepted.length = kept.length := by
    simpa using congrArg List.length haccepted
  have hall : (decoded (decode json) (dec.setCombinedStream combined) makeOut frames).length =
      quotes.length := by
    simpa using congrArg List.length hdecoded
  refine ⟨kept, drops, hkept, ?_, hdrops, haccepted⟩
  rw [← hlen, ← hall]
  exact hcount

/-- **The mirror.** For every list of symbols, every stream of frames and every pattern of
refusals: the events accepted say the quotes of some of the frames, in order, and the others
are counted as dropped. The engine then shows the newest of them for each instrument, nothing
for an instrument that has none, and is ready for exactly those that have one. -/
theorem binance_mirror {σ : Type} {N MAX activeCount : Nat} (hN : N ≤ 65536)
    (h : activeCount ≤ MAX) (staleTimeoutNs : UInt64) (json : BinanceJson)
    (push : σ → HotEvent → σ × Bool) (sink : σ) (sourceId : SourceId)
    (mappings : List (BinanceSymbolMapping D)) (dec : BinanceDecoder D)
    (hnew : BinanceDecoder.new sourceId mappings = .ok dec) (combined : Bool)
    (frames : List Frame) :
    let cb := run (FeedCallback.onFrame (BinanceDecoder.decode json) push)
      (.build (dec.setCombinedStream combined) sink) frames
    let quotes := frames.filterMap (quoteIn json combined mappings)
    let e : MarketStateEngine (ArrayBook N) MAX :=
      run MarketStateEngine.process (.new activeCount staleTimeoutNs h) cb.accepted
    ∃ kept drops, kept.Sublist quotes ∧ kept.length + drops = quotes.length ∧
      cb.dropCount = UInt64.ofNat drops ∧ cb.accepted.map HotEvent.tobQuote? = kept.map some ∧
      ∀ i st, e.state? i = some st →
        e.isReady i = (newestQuote i kept).isSome ∧
        match newestQuote i kept with
        | some tob => st.book.quotes = tob.shown N ∧ st.book.bestBid.2 = tob.best N .bid ∧
            st.book.bestAsk.2 = tob.best N .ask
        | none => st.book.quotes = .empty := by
  intro cb quotes e
  obtain ⟨kept, drops, hkept, hcount, hdrops, haccepted⟩ :=
    BinanceDecoder.accepted_quotes json push sink hnew combined frames
  refine ⟨kept, drops, hkept, hcount, hdrops, haccepted, fun i st hst => ⟨?_, ?_⟩⟩
  · have hready : e.isReady i = st.snapshotReceived := by
      rw [MarketStateEngine.isReady, hst]
    exact hready.trans (MarketStateEngine.run_received haccepted hst)
  · exact MarketStateEngine.run_book hN haccepted hst

/-- One symbol, at one tick and one lot a unit. -/
def unitMapping : BinanceSymbolMapping 0 := ⟨"X", 1, ⟨⟨1⟩, ⟨1⟩, by decide, by decide⟩⟩

/-- The decoder of the symbol, as `new` makes it. -/
def unitDecoder : BinanceDecoder 0 where
  seq := 0
  sourceId := 2
  instrumentIds := (Vector.replicate maxBinanceSymbols 0).setIfInBounds 0 1
  metas := (Vector.replicate maxBinanceSymbols unitMapping.metadata).setIfInBounds 0
    unitMapping.metadata
  symbolNames := (Vector.replicate maxBinanceSymbols (Vector.replicate maxSymbolLen 0)).setIfInBounds
    0 (Vector.ofFn fun k : Fin maxSymbolLen => "X".toUTF8.data.toList.getD k 0)
  symbolLens := (Vector.replicate maxBinanceSymbols 0).setIfInBounds 0 1
  len := 1
  len_le := by decide
  combinedStream := false

/-- A parser for frames of one byte, the bid. -/
def bidParser : BinanceJson where
  bookTicker
    | [bid] => some ⟨"bookTicker", "X", String.ofList [Char.ofNat bid.toNat], "1", "7", "2"⟩
    | _ => none
  combinedStream _ := none

/-- Of two tickers the second stays: bid 5 for one lot, ask 7 for two. -/
theorem binance_mirror_second :
    let cb := run (FeedCallback.onFrame (BinanceDecoder.decode bidParser)
      fun (sink : Unit) _ => (sink, true)) (.build (unitDecoder.setCombinedStream false) ())
      [⟨[52], 0⟩, ⟨[53], 0⟩]
    let e : MarketStateEngine (ArrayBook 8) 1 :=
      run MarketStateEngine.process (.new 1 0 (Nat.le_refl 1)) cb.accepted
    ∃ st, e.state? 1 = some st ∧ st.book.bestBid.2 = some (5, 1) ∧
      st.book.bestAsk.2 = some (7, 2) := by
  intro cb e
  obtain ⟨kept, drops, -, -, -, haccepted, hshown⟩ :=
    binance_mirror (show 8 ≤ 65536 by decide) (Nat.le_refl 1) 0 bidParser
      (fun (sink : Unit) _ => (sink, true)) () 2 [unitMapping] unitDecoder rfl false
      [⟨[52], 0⟩, ⟨[53], 0⟩]
  have hkept : kept = [(1, ⟨4, 1, 7, 2⟩), (1, ⟨5, 1, 7, 2⟩)] := by
    refine List.map_injective_iff.mpr (Option.some_injective _) (haccepted.symm.trans ?_)
    decide
  obtain ⟨st, hst⟩ := MarketStateEngine.run_process_state?_isSome
    (e := (MarketStateEngine.new 1 0 (Nat.le_refl 1) : MarketStateEngine (ArrayBook 8) 1))
    (i := 1) (by decide) cb.accepted
  obtain ⟨-, hbook⟩ := hshown 1 st hst
  subst hkept
  exact ⟨st, hst, hbook.2.1, hbook.2.2⟩

end Mantis
