import Mantis.MarketState.Checked
import Mantis.MarketState.Depth
import Mathlib.Algebra.Order.BigOperators.Group.List

/-!
# Mantis.MarketState.Overflow

Which events can make the arithmetic of the engine overflow.

The engine is compared with the maps its books stand for, one pair for each instrument
(`Markets`). An event acts on the maps by `HotEvent.writes`, so whether a run of the
engine can overflow is a question about the events alone: `safe_iff` answers it. The
maps must stay `Calm`, and `allSteps_of_lotsAtMost` gives a bound on the quantities that
keeps them so.
-/

namespace Mantis

open Runs

/-! ### What a book must hold

The engine adds up quantities in two places, the depth of a side and the micro price, and
multiplies in one, the micro price again. All else it computes are differences of prices
on the array. So two conditions on the maps of an instrument are enough: the sum of each
side, and the sum and the products at the best prices. -/

namespace PriceMaps

/-- The quantity on the first `N` prices of one side; a level that is not positive counts
nothing. -/
def sideQty (N : Nat) (m : PriceMaps) (s : Side) : Int :=
  ((List.finRange N).map fun i : Fin N => max 0 (m s (Int64.ofNat i)).toInt).sum

/-- If both sides quote, their best quantities sum up to an `i64`, and so do the two
products of the micro price. -/
def TopFits (m : PriceMaps) : Prop :=
  ∀ bp bq ap aq, m.IsBid (some (bp, bq)) → m.IsAsk (some (ap, aq)) →
    bq.toInt + aq.toInt < 2 ^ 63 ∧ bp.toInt * aq.toInt + ap.toInt * bq.toInt < 2 ^ 63

/-- The quantities are small enough for every query. -/
structure Calm (N : Nat) (m : PriceMaps) : Prop where
  depth : ∀ s, m.sideQty N s < 2 ^ 63
  top : m.TopFits

/-- Best prices are unique, so one pair of them decides. -/
theorem topFits_iff {m : PriceMaps} {bp ap : Ticks} {bq aq : Lots}
    (hbid : m.IsBid (some (bp, bq))) (hask : m.IsAsk (some (ap, aq))) :
    m.TopFits ↔
      bq.toInt + aq.toInt < 2 ^ 63 ∧ bp.toInt * aq.toInt + ap.toInt * bq.toInt < 2 ^ 63 := by
  constructor
  · intro h
    exact h bp bq ap aq hbid hask
  · intro hfits bp' bq' ap' aq' hbid' hask'
    cases hbid.unique hbid'
    cases hask.unique hask'
    exact hfits

end PriceMaps

namespace ArrayBook

variable {N : Nat}

theorem quantity_cons (e : Ticks × Lots) (l : List (Ticks × Lots)) :
    quantity (e :: l) = e.2.toInt + quantity l := by
  simp [quantity]

theorem quantity_nonneg {l : List (Ticks × Lots)} (h : ∀ e ∈ l, 0 < e.2) : 0 ≤ quantity l := by
  refine List.sum_nonneg fun n hn => ?_
  obtain ⟨e, he, rfl⟩ := List.mem_map.mp hn
  exact (Int64.lt_iff_toInt_lt.mp (h e he)).le

/-- Quoted quantities are positive, so fewer levels sum up to less. -/
theorem quantity_take_le {l : List (Ticks × Lots)} (h : ∀ e ∈ l, 0 < e.2) (k : Nat) :
    quantity (l.take k) ≤ quantity l := by
  have hsplit : quantity l = quantity (l.take k) + quantity (l.drop k) := by
    rw [quantity, quantity, quantity, ← List.sum_append, ← List.map_append, List.take_append_drop]
  have hrest : 0 ≤ quantity (l.drop k) := quantity_nonneg fun e he => h e (List.mem_of_mem_drop he)
  omega

theorem pos_of_mem_positiveLevels {levels : Vector Lots N} {is : List (Fin N)}
    {e : Ticks × Lots} (h : e ∈ positiveLevels levels is) : 0 < e.2 := by
  obtain ⟨i, hi, rfl⟩ := List.mem_map.mp h
  have hpos : 0 < levels.get i := by simpa using (List.mem_filter.mp hi).2
  exact hpos

/-- What is visited sums up to the positive quantities. -/
theorem quantity_positiveLevels (levels : Vector Lots N) (is : List (Fin N)) :
    quantity (positiveLevels levels is) = (is.map fun i => max 0 (levels.get i).toInt).sum := by
  induction is with
  | nil => rfl
  | cons i is ih =>
      rw [List.map_cons, List.sum_cons]
      by_cases hpos : 0 < levels.get i
      · have hlt : 0 < (levels.get i).toInt := Int64.lt_iff_toInt_lt.mp hpos
        rw [positiveLevels_cons_of_pos hpos, quantity_cons, ih, max_eq_right hlt.le]
        rfl
      · have hle : (levels.get i).toInt ≤ 0 := by
          rw [Int64.lt_iff_toInt_lt, Int64.toInt_zero] at hpos
          omega
        rw [positiveLevels_cons_of_not_pos hpos, ih, max_eq_left hle, zero_add]

/-- A side of the book adds up to the positive quantities of its map, in whatever order the
levels are visited: highest price first for bids, lowest first for asks. -/
theorem quantity_ladder (hN : N ≤ 65536) (b : ArrayBook N) (s : Side) :
    quantity (b.ladder s) = b.quotes.sideQty N s := by
  have horder : (order N s).Perm (List.finRange N) := by
    cases s with
    | bid => exact List.reverse_perm _
    | ask => exact List.Perm.refl _
  have hquotes : (fun i : Fin N => max 0 (b.quotes s (Int64.ofNat i)).toInt) =
      fun i => max 0 ((b.side s).get i).toInt := by
    funext i
    rw [quotes_of_index (index?_ofNat hN i)]
  rw [ladder, quantity_positiveLevels, PriceMaps.sideQty, hquotes]
  exact (horder.map _).sum_eq

/-- The checked loop succeeds when what it adds up to fits: all sums before are smaller. -/
theorem totalLoop?_isSome_iff (levels : Vector Lots N) (limit : Nat) (is : List (Fin N))
    {total : Lots} (htotal : 0 ≤ total.toInt) (count : Nat) :
    (totalLoop? levels limit is total count).isSome ↔
      total.toInt + quantity ((positiveLevels levels is).take (limit - count)) < 2 ^ 63 := by
  have hlt := total.toInt_lt
  induction is generalizing total count with
  | nil => simpa [totalLoop?, positiveLevels, quantity] using hlt
  | cons i is ih =>
      rw [totalLoop?]
      by_cases hfull : limit ≤ count
      · -- enough levels: the loop ends with the sum it has
        rw [if_pos hfull, Nat.sub_eq_zero_of_le hfull]
        simpa [quantity] using hlt
      · rw [if_neg hfull]
        by_cases hpos : 0 < levels.get i
        · have hroom : limit - count = (limit - (count + 1)) + 1 := by omega
          have hi : 0 < (levels.get i).toInt := Int64.lt_iff_toInt_lt.mp hpos
          rw [if_pos hpos, positiveLevels_cons_of_pos hpos, hroom, List.take_succ_cons,
            quantity_cons]
          change _ ↔ total.toInt + ((levels.get i).toInt + _) < 2 ^ 63
          by_cases hfits : I64.Fits (total.toInt + (levels.get i).toInt)
          · have hsum := I64.toInt_add hfits
            rw [I64.checkedAdd_of_fits hfits]
            refine (ih (by omega) (count + 1) (total + levels.get i).toInt_lt).trans ?_
            rw [hsum, Int.add_assoc]
          · -- it has overflowed, and no later level takes anything away again
            have hrest : 0 ≤ quantity ((positiveLevels levels is).take (limit - (count + 1))) :=
              quantity_nonneg fun e he => pos_of_mem_positiveLevels (List.mem_of_mem_take he)
            rw [show I64.checkedAdd total (levels.get i) = none from I64.checked_eq_none.mpr hfits]
            refine iff_of_false (by simp) fun hsmall => hfits ⟨by omega, by omega⟩
        · rw [if_neg hpos, positiveLevels_cons_of_not_pos hpos]
          exact ih htotal count hlt

/-- The depth of a side overflows exactly when the levels it visits sum up to too much. -/
theorem totalDepth?_isSome_iff (b : ArrayBook N) (s : Side) (levels : Nat) :
    (b.totalDepth? s levels).isSome ↔ quantity ((b.ladder s).take levels) < 2 ^ 63 := by
  have hloop := totalLoop?_isSome_iff (b.side s) levels (order N s)
    (show 0 ≤ (0 : Lots).toInt by decide) 0
  rw [Int64.toInt_zero, zero_add, Nat.sub_zero] at hloop
  rw [ladder, ← hloop]
  cases s <;> rfl

/-- A side that sums up to an `i64` has no depth that overflows. -/
theorem totalDepth?_isSome (hN : N ≤ 65536) {b : ArrayBook N} {s : Side}
    (h : b.quotes.sideQty N s < 2 ^ 63) (levels : Nat) : (b.totalDepth? s levels).isSome := by
  rw [totalDepth?_isSome_iff]
  rw [← quantity_ladder hN] at h
  exact lt_of_le_of_lt (quantity_take_le (fun e he => pos_of_mem_positiveLevels he) levels) h

/-- The depth of all levels overflows unless the side sums up to an `i64`. -/
theorem sideQty_lt_of_totalDepth? (hN : N ≤ 65536) {b : ArrayBook N} {s : Side}
    (h : (b.totalDepth? s N).isSome) : b.quotes.sideQty N s < 2 ^ 63 := by
  have hlen : (b.ladder s).length ≤ N := by
    rw [ladder, positiveLevels, List.length_map]
    refine (List.length_filter_le _ _).trans ?_
    cases s <;> simp [order]
  rw [totalDepth?_isSome_iff, List.take_of_length_le hlen, quantity_ladder hN] at h
  exact h

end ArrayBook

/-! ### Calm books do not overflow

Each checked function succeeds when the maps its book stands for are calm. Prices come
from the indices of the array, so they are never negative and below `N`. -/

namespace InstrumentState

/-- Between sides that quote, the products of the micro price fit together or not at all. -/
theorem weighted?_isSome_iff {bp ap : Ticks} {bq aq : Lots} (hbp : 0 ≤ bp.toInt)
    (hap : 0 ≤ ap.toInt) (hbq : 0 < bq.toInt) (haq : 0 < aq.toInt) (total : Lots) :
    (weighted? bp bq ap aq total).isSome ↔
      bp.toInt * aq.toInt + ap.toInt * bq.toInt < 2 ^ 63 := by
  -- neither product is negative, so each is at most their sum
  have hleft := mul_nonneg hbp haq.le
  have hright := mul_nonneg hap hbq.le
  constructor
  · intro h
    obtain ⟨t, ht⟩ := Option.isSome_iff_exists.mp h
    simp only [weighted?, Option.bind_eq_bind, Option.bind_eq_some_iff, I64.checkedMul,
      I64.checkedAdd, I64.checked_eq_some] at ht
    obtain ⟨left, hl, right, hr, sum, hs, -⟩ := ht
    have := sum.toInt_lt
    omega
  · intro h
    have hl : I64.Fits (bp.toInt * aq.toInt) := ⟨by omega, by omega⟩
    have hr : I64.Fits (ap.toInt * bq.toInt) := ⟨by omega, by omega⟩
    have hs : I64.Fits ((bp * aq).toInt + (ap * bq).toInt) := by
      rw [I64.toInt_mul hl, I64.toInt_mul hr]
      exact ⟨by omega, h⟩
    simp [weighted?, I64.checkedMul_of_fits hl, I64.checkedMul_of_fits hr,
      I64.checkedAdd_of_fits hs]

end InstrumentState

namespace ArrayBook

variable {N : Nat}

/-- What is quoted is on the array, so prices are small and never negative. -/
theorem quoted_range {b : ArrayBook N} {s : Side} {p : Ticks} (h : p ∈ b.quotes.quoted s) :
    0 ≤ p.toInt ∧ p.toInt < N ∧ 0 < (b.quotes s p).toInt := by
  obtain ⟨i, hi, -⟩ := mem_quoted.mp h
  have hp := index?_eq_some.mp hi
  have hlt := i.isLt
  exact ⟨by omega, by omega, Int64.lt_iff_toInt_lt.mp h⟩

theorem bid_range {b : ArrayBook N} {p : Ticks} {q : Lots} (h : b.quotes.IsBid (some (p, q))) :
    0 ≤ p.toInt ∧ p.toInt < N ∧ 0 < q.toInt := by
  obtain ⟨hbest, hqty⟩ := h
  rw [hqty]
  exact quoted_range hbest.1

theorem ask_range {b : ArrayBook N} {p : Ticks} {q : Lots} (h : b.quotes.IsAsk (some (p, q))) :
    0 ≤ p.toInt ∧ p.toInt < N ∧ 0 < q.toInt := by
  obtain ⟨hbest, hqty⟩ := h
  rw [hqty]
  exact quoted_range hbest.1

/-- The best bid of the book is the one of its map: the two can be exchanged in a hypothesis. -/
theorem bestBid_eq_iff (hN : N ≤ 65536) (b : ArrayBook N) (a : Option (Ticks × Lots)) :
    (OrderBook.bestBid b).2 = a ↔ b.quotes.IsBid a := by
  constructor
  · rintro rfl
    exact isBid_bestBid hN b
  · exact (isBid_bestBid hN b).unique

theorem bestAsk_eq_iff (hN : N ≤ 65536) (b : ArrayBook N) (a : Option (Ticks × Lots)) :
    (OrderBook.bestAsk b).2 = a ↔ b.quotes.IsAsk a := by
  constructor
  · rintro rfl
    exact isAsk_bestAsk hN b
  · exact (isAsk_bestAsk hN b).unique

/-- Asking for the best bid only refreshes the cache. -/
theorem quotes_bestBid (b : ArrayBook N) : (OrderBook.bestBid b).1.quotes = b.quotes :=
  step_quotes b .bestBid

theorem quotes_bestAsk (b : ArrayBook N) : (OrderBook.bestAsk b).1.quotes = b.quotes :=
  step_quotes b .bestAsk

end ArrayBook

namespace InstrumentState

open ArrayBook

variable {N : Nat}

/-- A calm book can be announced: quantities and products fit, and prices of the array are too
small for the spread to overflow. -/
theorem checkBboPriceChange?_isSome (hN : N ≤ 65536) {st : InstrumentState (ArrayBook N)}
    (h : st.book.quotes.Calm N) (slot : Nat) : (st.checkBboPriceChange? slot).isSome := by
  simp only [checkBboPriceChange?]
  split
  · rfl
  · split
    · next bp bq ap aq hbid hask =>
        rw [bestBid_eq_iff hN] at hbid
        rw [bestAsk_eq_iff hN, quotes_bestBid] at hask
        obtain ⟨hsum, hproducts⟩ := h.top bp bq ap aq hbid hask
        obtain ⟨hbp, hbp', hbq⟩ := bid_range hbid
        obtain ⟨hap, hap', haq⟩ := ask_range hask
        have hspread : I64.Fits (ap.toInt - bp.toInt) := ⟨by omega, by omega⟩
        have hmicro : (microPriceOf? bp bq ap aq).isSome := by
          rw [microPriceOf?, I64.checkedAdd_of_fits ⟨by omega, hsum⟩, Option.bind_eq_bind,
            Option.bind_some]
          split
          · exact (weighted?_isSome_iff hbp hap hbq haq _).mpr hproducts
          · rfl
        obtain ⟨micro, hmicro⟩ := Option.isSome_iff_exists.mp hmicro
        simp [hmicro, I64.checkedSub_of_fits hspread]
    · rfl

end InstrumentState

/-! ### Maps for every instrument -/

/-- What an event writes to the maps of its instrument. -/
def HotEvent.writes (N : Nat) (event : HotEvent) (m : PriceMaps) : PriceMaps :=
  match event.body with
  | .bookDelta delta =>
      -- the snapshot flag drops what was there
      PriceMaps.step N (if event.header.flags.contains .isSnapshot then .empty else m)
        (.applyDelta delta.price delta.qty delta.side delta.action)
  | .topOfBook tob =>
      run (PriceMaps.step N) .empty
        [.applyDelta tob.bidPrice tob.bidQty .bid .new,
          .applyDelta tob.askPrice tob.askQty .ask .new]
  | .trade _ | .orderAck | .fill | .orderReject | .timer _ | .heartbeat _ => m

/-- The maps of all instruments. -/
abbrev Markets := InstrumentId → PriceMaps

namespace Markets

/-- An event writes to the maps of the instrument it names. -/
def step (N : Nat) (ms : Markets) (event : HotEvent) : Markets := fun i =>
  if event.header.instrumentId = i then event.writes N (ms i) else ms i

/-- The engine is configured for the instrument: ids from 1 to `active_count`. -/
def Active (activeCount : Nat) (i : InstrumentId) : Prop := i.toNat ≠ 0 ∧ i.toNat ≤ activeCount

/-- An event for a configured instrument leaves calm maps. -/
def Good (N activeCount : Nat) (ms : Markets) (event : HotEvent) : Prop :=
  Active activeCount event.header.instrumentId →
    (event.writes N (ms event.header.instrumentId)).Calm N

end Markets

namespace HotEvent

open ArrayBook

variable {N : Nat}

/-- A delta on the book is a delta on the map, after the snapshot flag has emptied it. -/
theorem applyBookDelta_quotes (header : EventHeader) (delta : BookDeltaPayload)
    (st : InstrumentState (ArrayBook N)) :
    (st.applyBookDelta header delta).book.quotes =
      writes N ⟨header, .bookDelta delta⟩ st.book.quotes := by
  simp only [InstrumentState.applyBookDelta, InstrumentState.beginSnapshot, writes]
  split
  · exact (step_quotes (ArrayBook.clear st.book) (.applyDelta ..)).trans
      (congrArg (PriceMaps.step N · _) (step_quotes st.book .clear))
  · exact step_quotes st.book (.applyDelta ..)

theorem applyTopOfBook_quotes (header : EventHeader) (tob : TopOfBookPayload)
    (st : InstrumentState (ArrayBook N)) :
    (st.applyTopOfBook header tob).book.quotes =
      writes N ⟨header, .topOfBook tob⟩ st.book.quotes := by
  have hrun := run_quotes st.book [.clear, .applyDelta tob.bidPrice tob.bidQty .bid .new,
    .applyDelta tob.askPrice tob.askQty .ask .new]
  exact hrun

theorem endSnapshot_book (st : InstrumentState (ArrayBook N)) :
    st.endSnapshot.book = st.book := by
  simp only [InstrumentState.endSnapshot]
  split <;> rfl

theorem checkBboPriceChange_quotes (st : InstrumentState (ArrayBook N)) (slot : Nat) :
    (st.checkBboPriceChange slot).1.book.quotes = st.book.quotes := by
  rw [(InstrumentState.checkBboPriceChange_keeps st slot).1, quotes_bestAsk, quotes_bestBid]

/-- The book an event leaves stands for what the event writes. -/
theorem effect_quotes (event : HotEvent) (st : InstrumentState (ArrayBook N)) :
    (event.effect st).1.book.quotes = event.writes N st.book.quotes := by
  obtain ⟨header, body⟩ := event
  cases body with
  | bookDelta delta =>
      rw [← applyBookDelta_quotes]
      simp only [effect, onInstrument, InstrumentState.onBookDelta]
      split
      · split
        · rw [checkBboPriceChange_quotes, endSnapshot_book]
        · rw [endSnapshot_book]
      · rfl
  | topOfBook tob =>
      rw [← applyTopOfBook_quotes]
      exact checkBboPriceChange_quotes (st.applyTopOfBook header tob) _
  | trade _ => rfl
  | orderAck => rfl
  | fill => rfl
  | orderReject => rfl
  | timer _ => rfl
  | heartbeat _ => rfl

/-- An event that leaves a calm book overflows nothing. -/
theorem effect?_isSome (hN : N ≤ 65536) {event : HotEvent} {st : InstrumentState (ArrayBook N)}
    (h : (event.writes N st.book.quotes).Calm N) : (event.effect? st).isSome := by
  obtain ⟨header, body⟩ := event
  cases body with
  | bookDelta delta =>
      rw [← applyBookDelta_quotes] at h
      simp only [effect?, InstrumentState.onBookDelta?]
      split
      · split
        · exact InstrumentState.checkBboPriceChange?_isSome hN (by rw [endSnapshot_book]; exact h) _
        · rfl
      · rfl
  | topOfBook tob =>
      rw [← applyTopOfBook_quotes] at h
      exact InstrumentState.checkBboPriceChange?_isSome hN h _
  | trade _ => rfl
  | orderAck => rfl
  | fill => rfl
  | orderReject => rfl
  | timer _ => rfl
  | heartbeat _ => rfl

end HotEvent

/-! ### The engine and the maps

`Mirrors` forgets the caches, the flags and the sequence numbers of the engine: no answer
that can overflow depends on them. Processing writes to the maps, queries do not. -/

namespace MarketStateEngine

variable {MAX N : Nat}

/-- The books of the engine stand for the maps. -/
structure Mirrors (activeCount : Nat) (e : MarketStateEngine (ArrayBook N) MAX) (ms : Markets) :
    Prop where
  activeCount_eq : e.activeCount = activeCount
  quotes_eq : ∀ i st, e.state? i = some st → st.book.quotes = ms i

/-- Ids from 1 to `active_count` have a state, and no others. -/
theorem state?_isSome_iff (e : MarketStateEngine (ArrayBook N) MAX) (i : InstrumentId) :
    (e.state? i).isSome ↔ Markets.Active e.activeCount i := by
  rw [state?, Option.isSome_map]
  simp only [slot?, Markets.Active]
  split
  · next h => exact iff_of_false (by simp) (by omega)
  · next h => exact iff_of_true rfl (by omega)

/-- New books are empty, as are the maps. -/
theorem Mirrors.new {activeCount : Nat} (h : activeCount ≤ MAX) (staleTimeoutNs : UInt64) :
    Mirrors activeCount (new activeCount staleTimeoutNs h : MarketStateEngine (ArrayBook N) MAX)
      fun _ => .empty := by
  refine ⟨rfl, fun i st hst => ?_⟩
  obtain ⟨slot, -, rfl⟩ := Option.map_eq_some_iff.mp hst
  have hget : (MarketStateEngine.new activeCount staleTimeoutNs h :
      MarketStateEngine (ArrayBook N) MAX).instruments.get slot = .default :=
    Vector.getElem_replicate _
  rw [hget]
  exact ArrayBook.quotes_default

section

variable {activeCount : Nat} {e : MarketStateEngine (ArrayBook N) MAX} {ms : Markets}

/-- Processing an event writes to the maps. -/
theorem Mirrors.process (h : Mirrors activeCount e ms) (event : HotEvent) :
    Mirrors activeCount (e.process event) (ms.step N event) := by
  refine ⟨(process_activeCount e event).trans h.activeCount_eq, fun i st hst => ?_⟩
  rw [process_state?] at hst
  simp only [Markets.step]
  split at hst
  · -- the instrument the event names
    next heq =>
      obtain ⟨st', hst', rfl⟩ := Option.map_eq_some_iff.mp hst
      rw [if_pos heq, event.effect_quotes, h.quotes_eq i st' hst']
  · next hne =>
      rw [if_neg hne]
      exact h.quotes_eq i st hst

/-- A query stores a book with the same levels. -/
theorem Mirrors.setBook (h : Mirrors activeCount e ms) {slot : Fin MAX} {book : ArrayBook N}
    (hbook : book.quotes = (e.instruments.get slot).book.quotes) :
    Mirrors activeCount (e.setBook slot book) ms := by
  refine ⟨h.activeCount_eq, fun i st hst => ?_⟩
  obtain ⟨slot', hslot', rfl⟩ := Option.map_eq_some_iff.mp hst
  have hstate : e.state? i = some (e.instruments.get slot') := by
    rw [state?, show e.slot? i = some slot' from hslot']
    rfl
  rw [← h.quotes_eq i _ hstate]
  show ((e.instruments.set slot _ slot.isLt)[slot'.val]).book.quotes = _
  rw [Vector.getElem_set]
  split
  · next heq =>
      rw [show slot' = slot from (Fin.ext heq).symm]
      exact hbook
  · rfl

/-- Reading the best prices refreshes caches at most, whichever side is missing. -/
theorem Mirrors.bestPrices (h : Mirrors activeCount e ms) (inst : InstrumentId) :
    Mirrors activeCount (e.bestPrices inst).1 ms := by
  simp only [MarketStateEngine.bestPrices]
  split
  · exact h
  · next slot _ =>
      have hbid := ArrayBook.quotes_bestBid (e.instruments.get slot).book
      split
      · next book heq => exact h.setBook (by rw [heq] at hbid; exact hbid)
      · next book bid heq =>
          rw [heq] at hbid
          have hask := ArrayBook.quotes_bestAsk book
          split
          · next book' heq' => exact h.setBook (by rw [heq'] at hask; exact hask.trans hbid)
          · next book' ask heq' => exact h.setBook (by rw [heq'] at hask; exact hask.trans hbid)

/-- The best prices a query reads are those of the maps. -/
theorem Mirrors.bestPrices_eq_some (hN : N ≤ 65536) (h : Mirrors activeCount e ms)
    {inst : InstrumentId} {bid ask : Ticks × Lots} :
    (e.bestPrices inst).2 = some (bid, ask) ↔
      Markets.Active activeCount inst ∧ (ms inst).IsBid (some bid) ∧
        (ms inst).IsAsk (some ask) := by
  have hactive := e.state?_isSome_iff inst
  rw [h.activeCount_eq] at hactive
  rw [← hactive]
  cases hslot : e.slot? inst with
  | none => simp [MarketStateEngine.bestPrices, state?, hslot]
  | some slot =>
      have hstate : e.state? inst = some (e.instruments.get slot) := by
        rw [state?, hslot]
        rfl
      rw [hstate, ← h.quotes_eq inst _ hstate, ← ArrayBook.bestBid_eq_iff hN,
        ← ArrayBook.quotes_bestBid, ← ArrayBook.bestAsk_eq_iff hN]
      simp only [MarketStateEngine.bestPrices, hslot]
      rcases OrderBook.bestBid (e.instruments.get slot).book with ⟨book, _ | bid'⟩
      · simp
      · dsimp only
        rcases OrderBook.bestAsk book with ⟨book', _ | ask'⟩ <;> simp

/-! ### Which calls overflow

With the maps for the engine, a query overflows by a condition on the maps of the instrument
it names; an instrument that is not configured answers without looking at any. -/

/-- The maps of a configured instrument are those of a book. -/
theorem Mirrors.exists_book (h : Mirrors activeCount e ms) {inst : InstrumentId}
    (hactive : Markets.Active activeCount inst) :
    ∃ st, e.state? inst = some st ∧ st.book.quotes = ms inst := by
  rw [← h.activeCount_eq] at hactive
  obtain ⟨st, hst⟩ := Option.isSome_iff_exists.mp ((e.state?_isSome_iff inst).mpr hactive)
  exact ⟨st, hst, h.quotes_eq inst st hst⟩

/-- The micro price overflows exactly when the best prices of the map do not fit. A side that
does not quote ends the query before any arithmetic. -/
theorem microPrice?_isSome_iff (hN : N ≤ 65536) (h : Mirrors activeCount e ms)
    (inst : InstrumentId) :
    (e.microPrice? inst).isSome ↔ (Markets.Active activeCount inst → (ms inst).TopFits) := by
  have hread : ∀ bid ask, (e.bestPrices inst).2 = some (bid, ask) ↔
      Markets.Active activeCount inst ∧ (ms inst).IsBid (some bid) ∧ (ms inst).IsAsk (some ask) :=
    fun bid ask => h.bestPrices_eq_some hN
  simp only [microPrice?]
  split
  · -- nothing is computed, and nothing is asked of maps without two quotes
    next e' heq =>
      rw [heq] at hread
      refine iff_of_true rfl fun hactive bp bq ap aq hbid hask => ?_
      exact absurd ((hread (bp, bq) (ap, aq)).mpr ⟨hactive, hbid, hask⟩) (by simp)
  · next e' bp bq ap aq heq =>
      rw [heq] at hread
      obtain ⟨hactive, hbid, hask⟩ := (hread (bp, bq) (ap, aq)).mp rfl
      obtain ⟨st, -, hquotes⟩ := h.exists_book hactive
      rw [← hquotes] at hbid hask ⊢
      obtain ⟨hbp, -, hbq⟩ := ArrayBook.bid_range hbid
      obtain ⟨hap, -, haq⟩ := ArrayBook.ask_range hask
      rw [PriceMaps.topFits_iff hbid hask]
      by_cases hsum : I64.Fits (bq.toInt + aq.toInt)
      · have hne : bq + aq ≠ 0 := by
          rw [ne_eq, ← I64.toInt_eq_zero, I64.toInt_add hsum]
          omega
        have hweighted := InstrumentState.weighted?_isSome_iff hbp hap hbq haq (bq + aq)
        rw [I64.checkedAdd_of_fits hsum, Option.bind_eq_bind, Option.bind_some, if_neg hne,
          Option.isSome_bind]
        simp only [Option.pure_def, Option.isSome_some, Option.any_true, hweighted]
        exact ⟨fun hlt _ => ⟨hsum.2, hlt⟩, fun hlt => (hlt hactive).2⟩
      · -- the sum is added up before the products are looked at
        rw [show I64.checkedAdd bq aq = none from I64.checked_eq_none.mpr hsum]
        exact iff_of_false (by simp) fun hfits => hsum ⟨by omega, (hfits hactive).1⟩

/-- Prices are too small for their difference to overflow. -/
theorem spread?_isSome (hN : N ≤ 65536) (h : Mirrors activeCount e ms) (inst : InstrumentId) :
    (e.spread? inst).isSome := by
  simp only [spread?]
  split
  · rfl
  · next e' bp bq ap aq heq =>
      obtain ⟨hactive, hbid, hask⟩ := (h.bestPrices_eq_some hN).mp (congrArg Prod.snd heq)
      obtain ⟨st, -, hquotes⟩ := h.exists_book hactive
      rw [← hquotes] at hbid hask
      obtain ⟨hbp, hbp', -⟩ := ArrayBook.bid_range hbid
      obtain ⟨hap, hap', -⟩ := ArrayBook.ask_range hask
      have hspread : I64.Fits (ap.toInt - bp.toInt) := ⟨by omega, by omega⟩
      rw [I64.checkedSub_of_fits hspread]
      rfl

/-- Sides that sum up to an `i64` have an imbalance at any depth. -/
theorem bookImbalance?_isSome (hN : N ≤ 65536) (h : Mirrors activeCount e ms)
    {inst : InstrumentId}
    (hdepth : Markets.Active activeCount inst → ∀ s, (ms inst).sideQty N s < 2 ^ 63)
    (levels : Nat) : (e.bookImbalance? inst levels).isSome := by
  simp only [bookImbalance?]
  split
  · rfl
  · next slot hslot =>
      have hstate : e.state? inst = some (e.instruments.get slot) := by
        rw [state?, hslot]
        rfl
      have hactive : Markets.Active activeCount inst := by
        rw [← h.activeCount_eq, ← state?_isSome_iff, hstate]
        rfl
      have hsome : ∀ s, ((e.instruments.get slot).book.totalDepth? s levels).isSome := by
        intro s
        refine ArrayBook.totalDepth?_isSome hN ?_ levels
        rw [h.quotes_eq inst _ hstate]
        exact hdepth hactive s
      obtain ⟨bd, hbd⟩ := Option.isSome_iff_exists.mp (hsome .bid)
      obtain ⟨ad, had⟩ := Option.isSome_iff_exists.mp (hsome .ask)
      simp [hbd, had]

/-- Asking for the imbalance of all levels finds out a side that does not sum up. -/
theorem sideQty_lt_of_bookImbalance? (hN : N ≤ 65536) (h : Mirrors activeCount e ms)
    {inst : InstrumentId} (hactive : Markets.Active activeCount inst)
    (hsome : (e.bookImbalance? inst N).isSome) (s : Side) : (ms inst).sideQty N s < 2 ^ 63 := by
  obtain ⟨st, hstate, hquotes⟩ := h.exists_book hactive
  obtain ⟨slot, hslot, rfl⟩ := Option.map_eq_some_iff.mp hstate
  rw [← hquotes]
  refine ArrayBook.sideQty_lt_of_totalDepth? hN ?_
  obtain ⟨r, hr⟩ := Option.isSome_iff_exists.mp hsome
  simp only [bookImbalance?, hslot, Option.bind_eq_bind, Option.bind_eq_some_iff] at hr
  obtain ⟨bd, hbd, ad, had, -⟩ := hr
  cases s with
  | bid => exact Option.isSome_iff_exists.mpr ⟨bd, hbd⟩
  | ask => exact Option.isSome_iff_exists.mpr ⟨ad, had⟩

/-! ### Runs

In one direction good events keep all maps calm, so nothing that is asked overflows. In
the other every event can be followed by the two queries that find out whether its maps are
calm, and a safe run answers them. -/

/-- The maps of the configured instruments are calm. -/
def AllCalm (N activeCount : Nat) (ms : Markets) : Prop :=
  ∀ i, Markets.Active activeCount i → (ms i).Calm N

/-- Good events keep the configured instruments calm. -/
theorem AllCalm.step (h : AllCalm N activeCount ms) {event : HotEvent}
    (hgood : ms.Good N activeCount event) : AllCalm N activeCount (ms.step N event) := by
  intro i hactive
  simp only [Markets.step]
  split
  · next heq =>
      subst heq
      exact hgood hactive
  · exact h i hactive

/-- A good event is processed. -/
theorem process?_eq_some (hN : N ≤ 65536) (h : Mirrors activeCount e ms) {event : HotEvent}
    (hgood : ms.Good N activeCount event) : e.process? event = some (e.process event) := by
  have hsome : (e.process? event).isSome := by
    refine process?_isSome fun st hst => HotEvent.effect?_isSome hN ?_
    rw [h.quotes_eq _ st hst]
    refine hgood ?_
    rw [← h.activeCount_eq, ← state?_isSome_iff, hst]
    rfl
  rcases e.process?_cases event with hnone | hproc
  · rw [hnone] at hsome
    cases hsome
  · exact hproc

/-- A query leaves the engine that reading the best prices leaves. -/
theorem microPrice?_engine {inst : InstrumentId}
    {r : MarketStateEngine (ArrayBook N) MAX × Option Ticks} (h : e.microPrice? inst = some r) :
    r.1 = (e.bestPrices inst).1 := by
  simp only [microPrice?] at h
  split at h
  · next e' heq =>
      cases h
      rw [heq]
  · next e' bp bq ap aq heq =>
      rw [heq]
      obtain ⟨total, -, h⟩ := Option.bind_eq_some_iff.mp h
      split at h
      · cases h
        rfl
      · obtain ⟨price, -, h⟩ := Option.bind_eq_some_iff.mp h
        cases h
        rfl

theorem spread?_engine {inst : InstrumentId}
    {r : MarketStateEngine (ArrayBook N) MAX × Option Ticks} (h : e.spread? inst = some r) :
    r.1 = (e.bestPrices inst).1 := by
  simp only [spread?] at h
  split at h
  · next e' heq =>
      cases h
      rw [heq]
  · next e' bp bq ap aq heq =>
      rw [heq]
      obtain ⟨spread, -, h⟩ := Option.bind_eq_some_iff.mp h
      cases h
      rfl

/-- A query of calm books succeeds and leaves the levels alone. -/
theorem query?_eq_some (hN : N ≤ 65536) (h : Mirrors activeCount e ms)
    (hcalm : AllCalm N activeCount ms) {call : Call} (hquery : call.event? = none) :
    ∃ e', e.call? call = some e' ∧ Mirrors activeCount e' ms := by
  cases call with
  | process event => cases hquery
  | microPrice inst =>
      obtain ⟨r, hr⟩ := Option.isSome_iff_exists.mp ((microPrice?_isSome_iff hN h inst).mpr
        fun hactive => (hcalm inst hactive).top)
      refine ⟨r.1, by rw [call?, hr]; rfl, ?_⟩
      rw [microPrice?_engine hr]
      exact h.bestPrices inst
  | spread inst =>
      obtain ⟨r, hr⟩ := Option.isSome_iff_exists.mp (spread?_isSome hN h inst)
      refine ⟨r.1, by rw [call?, hr]; rfl, ?_⟩
      rw [spread?_engine hr]
      exact h.bestPrices inst
  | bookImbalance inst levels =>
      obtain ⟨r, hr⟩ := Option.isSome_iff_exists.mp (bookImbalance?_isSome hN h
        (fun hactive => (hcalm inst hactive).depth) levels)
      exact ⟨e, by rw [call?, hr]; rfl, h⟩

/-- Good events never overflow, whatever is asked in between. -/
theorem safe_of_allSteps (hN : N ≤ 65536) {events : List HotEvent} (h : Mirrors activeCount e ms)
    (hcalm : AllCalm N activeCount ms)
    (hgood : AllSteps (Markets.step N) (Markets.Good N activeCount) ms events) : e.Safe events := by
  intro calls hcalls
  induction calls generalizing e ms events with
  | nil => rfl
  | cons call calls ih =>
      rw [List.foldlM_cons]
      cases hevent : call.event? with
      | none =>
          -- a query: the maps stay, and so do the events to come
          rw [List.filterMap_cons_none hevent] at hcalls
          obtain ⟨e', he', h'⟩ := query?_eq_some hN h hcalm hevent
          rw [he']
          exact ih h' hcalm hgood hcalls
      | some event =>
          rw [List.filterMap_cons_some hevent] at hcalls
          subst hcalls
          have hcall : call = .process event := by
            cases call with
            | process _ =>
                cases hevent
                rfl
            | microPrice _ => cases hevent
            | spread _ => cases hevent
            | bookImbalance _ _ => cases hevent
          obtain ⟨hfirst, hrest⟩ := hgood
          rw [hcall, show e.call? (.process event) = some (e.process event) from
            process?_eq_some hN h hfirst]
          exact ih (h.process event) (hcalm.step hfirst) hrest rfl

/-- A run that overflows nowhere does not overflow at its first call. -/
theorem isSome_of_foldlM_cons {call : Call} {calls : List Call}
    (h : ((call :: calls).foldlM call? e).isSome) :
    ∃ e', e.call? call = some e' ∧ (calls.foldlM call? e').isSome := by
  rw [List.foldlM_cons] at h
  cases hcall : e.call? call with
  | none =>
      rw [hcall] at h
      cases h
  | some e' =>
      rw [hcall] at h
      exact ⟨e', rfl, h⟩

/-- An event that is not good is found out by asking for the micro price and the full depth
right after it. -/
theorem allSteps_of_safe (hN : N ≤ 65536) {events : List HotEvent} (h : Mirrors activeCount e ms)
    (hsafe : e.Safe events) :
    AllSteps (Markets.step N) (Markets.Good N activeCount) ms events := by
  induction events generalizing e ms with
  | nil => trivial
  | cons event events ih =>
      -- what is asked after the event is asked of the engine it leaves
      have hafter : ∀ calls : List Call, calls.filterMap Call.event? = events →
          (calls.foldlM call? (e.process event)).isSome := by
        intro calls hcalls
        have hrun := hsafe (.process event :: calls)
          (by rw [List.filterMap_cons_some
            (show Call.event? (.process event) = some event from rfl), hcalls])
        obtain ⟨e', he', hrun⟩ := isSome_of_foldlM_cons hrun
        have hprocess : e.process? event = some e' := he'
        rcases e.process?_cases event with hnone | hsome
        · rw [hnone] at hprocess
          cases hprocess
        · rw [hsome] at hprocess
          cases hprocess
          exact hrun
      have h' := h.process event
      refine ⟨fun hactive => ?_, ih h' hafter⟩
      have hstep : event.writes N (ms event.header.instrumentId) =
          ms.step N event event.header.instrumentId := (if_pos rfl).symm
      have hevents : (events.map Call.process).filterMap Call.event? = events := by
        rw [List.filterMap_map]
        exact List.filterMap_some
      rw [hstep]
      constructor
      · -- the full depth is asked for, then the rest of the events goes on
        refine sideQty_lt_of_bookImbalance? hN h' hactive ?_
        obtain ⟨e', he', -⟩ := isSome_of_foldlM_cons
          (hafter (.bookImbalance event.header.instrumentId N :: events.map .process) hevents)
        obtain ⟨r, hr, -⟩ := Option.map_eq_some_iff.mp he'
        exact Option.isSome_iff_exists.mpr ⟨r, hr⟩
      · -- the micro price is asked for instead
        refine (microPrice?_isSome_iff hN h' event.header.instrumentId).mp ?_ hactive
        obtain ⟨e', he', -⟩ := isSome_of_foldlM_cons
          (hafter (.microPrice event.header.instrumentId :: events.map .process) hevents)
        obtain ⟨r, hr, -⟩ := Option.map_eq_some_iff.mp he'
        exact Option.isSome_iff_exists.mpr ⟨r, hr⟩

end

end MarketStateEngine

/-! ### A bound on the quantities

Whether maps stay calm depends on all events before. A bound on each quantity does not, and
with the longest array there is it leaves 46 bits for one level. -/

/-- No quantity of the event exceeds the limit. -/
def HotEvent.LotsAtMost (limit : Int) (event : HotEvent) : Prop :=
  match event.body with
  | .bookDelta delta => delta.qty.toInt ≤ limit
  | .topOfBook tob => tob.bidQty.toInt ≤ limit ∧ tob.askQty.toInt ≤ limit
  | .trade _ | .orderAck | .fill | .orderReject | .timer _ | .heartbeat _ => True

instance (limit : Int) (event : HotEvent) : Decidable (event.LotsAtMost limit) :=
  match event with
  | ⟨_, .bookDelta delta⟩ => inferInstanceAs (Decidable (delta.qty.toInt ≤ limit))
  | ⟨_, .topOfBook tob⟩ =>
      inferInstanceAs (Decidable (tob.bidQty.toInt ≤ limit ∧ tob.askQty.toInt ≤ limit))
  | ⟨_, .trade _⟩ | ⟨_, .orderAck⟩ | ⟨_, .fill⟩ | ⟨_, .orderReject⟩ | ⟨_, .timer _⟩
  | ⟨_, .heartbeat _⟩ => inferInstanceAs (Decidable True)

namespace PriceMaps

variable {N : Nat} {limit : Int} {m : PriceMaps}

/-- Quotes are within the array and at most the limit. -/
def Bounded (N : Nat) (limit : Int) (m : PriceMaps) : Prop :=
  ∀ s p, p ∈ m.quoted s → InRange N p ∧ (m s p).toInt ≤ limit

theorem bounded_empty (N : Nat) (limit : Int) : Bounded N limit .empty := by
  intro s p hp
  exact absurd hp (by simp [quoted, empty])

/-- A delta adds at most one quote, on the array and within the limit. -/
theorem Bounded.applyDelta (h : Bounded N limit m) {qty : Lots} (hqty : qty.toInt ≤ limit)
    (price : Ticks) (side : Side) (action : UpdateAction) :
    Bounded N limit (m.step N (.applyDelta price qty side action)) := by
  simp only [step]
  split
  · next hrange =>
      intro s p hp
      change 0 < write m price qty side s p at hp
      simp only [write] at hp ⊢
      split at hp
      · next heq =>
          rw [if_pos heq, heq.2]
          exact ⟨hrange, hqty⟩
      · next hne =>
          rw [if_neg hne]
          exact h s p hp
  · exact h

/-- Up to 65536 levels of at most `2 ^ 46` lots are calm: the prices of the micro price
take 16 bits, its two products together 63. -/
theorem Bounded.calm (hN : N ≤ 65536) (h : Bounded N (2 ^ 46) m) : m.Calm N := by
  constructor
  · -- `2 ^ 16` levels of `2 ^ 46` lots stay below `2 ^ 63`
    intro s
    have hlevel : ∀ n ∈ (List.finRange N).map fun i : Fin N =>
        max 0 (m s (Int64.ofNat i)).toInt, n ≤ 2 ^ 46 := by
      intro n hn
      obtain ⟨i, -, rfl⟩ := List.mem_map.mp hn
      refine max_le (by norm_num) ?_
      by_cases hpos : 0 < m s (Int64.ofNat i)
      · exact (h s _ hpos).2
      · rw [Int64.lt_iff_toInt_lt, Int64.toInt_zero] at hpos
        omega
    have hsum := List.sum_le_card_nsmul _ _ hlevel
    rw [List.length_map, List.length_finRange, nsmul_eq_mul] at hsum
    have hcount : (N : Int) * 2 ^ 46 ≤ 65536 * 2 ^ 46 :=
      mul_le_mul_of_nonneg_right (by exact_mod_cast hN) (by norm_num)
    rw [sideQty]
    omega
  · -- as does a price below `2 ^ 16` times `2 ^ 46` lots, twice
    intro bp bq ap aq hbid hask
    obtain ⟨⟨hbp, hbp'⟩, hbq⟩ := h .bid bp hbid.1.1
    obtain ⟨⟨hap, hap'⟩, haq⟩ := h .ask ap hask.1.1
    have hbq' : 0 < bq.toInt := by
      rw [hbid.2]
      exact Int64.lt_iff_toInt_lt.mp hbid.1.1
    have haq' : 0 < aq.toInt := by
      rw [hask.2]
      exact Int64.lt_iff_toInt_lt.mp hask.1.1
    rw [← hbid.2] at hbq
    rw [← hask.2] at haq
    have hleft : bp.toInt * aq.toInt ≤ 65535 * 2 ^ 46 :=
      mul_le_mul (by omega) haq haq'.le (by norm_num)
    have hright : ap.toInt * bq.toInt ≤ 65535 * 2 ^ 46 :=
      mul_le_mul (by omega) hbq hbq'.le (by norm_num)
    omega

end PriceMaps

namespace HotEvent

variable {N : Nat} {limit : Int} {m : PriceMaps}

/-- Events within the limit keep the maps within it, a snapshot being an empty map. -/
theorem bounded_writes (h : m.Bounded N limit) {event : HotEvent} (hlots : event.LotsAtMost limit) :
    (event.writes N m).Bounded N limit := by
  obtain ⟨header, body⟩ := event
  cases body with
  | bookDelta delta =>
      have hstart : (if header.flags.contains .isSnapshot then PriceMaps.empty else m).Bounded N
          limit := by
        split
        · exact PriceMaps.bounded_empty N limit
        · exact h
      exact hstart.applyDelta hlots delta.price delta.side delta.action
  | topOfBook tob =>
      have hbid := (PriceMaps.bounded_empty N limit).applyDelta hlots.1 tob.bidPrice .bid .new
      exact hbid.applyDelta hlots.2 tob.askPrice .ask .new
  | trade _ => exact h
  | orderAck => exact h
  | fill => exact h
  | orderReject => exact h
  | timer _ => exact h
  | heartbeat _ => exact h

end HotEvent

namespace Markets

/-- Events of bounded quantities are good. -/
theorem allSteps_of_lotsAtMost {N activeCount : Nat} (hN : N ≤ 65536) {events : List HotEvent}
    (h : ∀ event ∈ events, event.LotsAtMost (2 ^ 46)) {ms : Markets}
    (hms : ∀ i, (ms i).Bounded N (2 ^ 46)) :
    AllSteps (step N) (Good N activeCount) ms events := by
  have hkeep : ∀ (ms : Markets) (event : HotEvent), (∀ i, (ms i).Bounded N (2 ^ 46)) →
      event.LotsAtMost (2 ^ 46) → ∀ i, (ms.step N event i).Bounded N (2 ^ 46) := by
    intro ms event hms hlots i
    simp only [step]
    split
    · exact event.bounded_writes (hms i) hlots
    · exact hms i
  have hgood : ∀ (ms : Markets) (event : HotEvent), (∀ i, (ms i).Bounded N (2 ^ 46)) →
      event.LotsAtMost (2 ^ 46) → ms.Good N activeCount event := by
    intro ms event hms hlots _
    exact (event.bounded_writes (hms _) hlots).calm hN
  exact allSteps_of_invariant hkeep hgood hms (allSteps_of_forall h ms)

end Markets

/-- **Which events are safe.** No call of a new engine overflows, whatever is asked between
the events, exactly when each of them leaves calm quantities at its instrument. -/
theorem MarketStateEngine.safe_iff {MAX N activeCount : Nat} (hN : N ≤ 65536)
    (h : activeCount ≤ MAX) (staleTimeoutNs : UInt64) (events : List HotEvent) :
    (new activeCount staleTimeoutNs h : MarketStateEngine (ArrayBook N) MAX).Safe events ↔
      AllSteps (Markets.step N) (Markets.Good N activeCount) (fun _ => .empty) events := by
  have hmirrors := Mirrors.new (N := N) h staleTimeoutNs
  refine ⟨allSteps_of_safe hN hmirrors, safe_of_allSteps hN hmirrors ?_⟩
  intro i _
  exact (PriceMaps.bounded_empty N _).calm hN

end Mantis
