import Mantis.Lib.Rounding
import Mantis.MarketState.Overflow
import Mantis.MarketState.Polling

/-!
# Mantis.MarketState.FairValue

The micro price as a fair value (`micro_price`, `spread` and `check_bbo_price_change` in
`crates/market-state/src/engine.rs`).

A book with both sides populated has a touch: its best bid and ask, with nonnegative
prices and positive quantities. The exact micro price is the mean of the two prices, each
weighted with the quantity of the other side; it lies between them and moves toward the
ask as the bid grows. Truncation keeps both, and the engine computes the truncated mean
exactly when neither the numerator nor the total quantity overflows.
-/

namespace Mantis

open Rounding

/-! ### The queries -/

namespace MarketStateEngine

section

variable {B : Type} [OrderBook B] {MAX : Nat}

/-- Micro price: volume-weighted fair value between best bid and ask. -/
def microPrice (e : MarketStateEngine B MAX) (inst : InstrumentId) :
    MarketStateEngine B MAX × Option Ticks :=
  match e.bestPrices inst with
  | (e, none) => (e, none)
  | (e, some ((bp, bq), (ap, aq))) =>
      let total := bq + aq
      if total = 0 then (e, none) else (e, some ((bp * aq + ap * bq) / total))

/-- Spread in ticks. -/
def spread (e : MarketStateEngine B MAX) (inst : InstrumentId) :
    MarketStateEngine B MAX × Option Ticks :=
  match e.bestPrices inst with
  | (e, none) => (e, none)
  | (e, some ((bp, _), (ap, _))) => (e, some (ap - bp))

end

/-- `micro_price` returns `price`, with and without overflow checks. -/
def ReturnsMicroPrice {B : Type} [OrderBook B] {MAX : Nat} (e : MarketStateEngine B MAX)
    (inst : InstrumentId) (price : Ticks) : Prop :=
  (e.microPrice? inst).map Prod.snd = some (some price) ∧ (e.microPrice inst).2 = some price

/-- `spread` returns `ticks`, with and without overflow checks. -/
def ReturnsSpread {B : Type} [OrderBook B] {MAX : Nat} (e : MarketStateEngine B MAX)
    (inst : InstrumentId) (ticks : Ticks) : Prop :=
  (e.spread? inst).map Prod.snd = some (some ticks) ∧ (e.spread inst).2 = some ticks

end MarketStateEngine

/-! ### The touch -/

/-- Best bid and best ask of a book with both sides populated. -/
structure Touch where
  bp : Ticks
  bq : Lots
  ap : Ticks
  aq : Lots
  bp_range : 0 ≤ bp.toInt ∧ bp.toInt < 65536
  ap_range : 0 ≤ ap.toInt ∧ ap.toInt < 65536
  bq_pos : 0 < bq.toInt
  aq_pos : 0 < aq.toInt

namespace Touch

/-- The two products of the micro price fit in an `i64`. -/
def ProductsFit (t : Touch) : Prop :=
  I64.Fits (t.bp.toInt * t.aq.toInt) ∧ I64.Fits (t.ap.toInt * t.bq.toInt)

/-- Their sum and the sum of the quantities fit as well. -/
def SumsFit (t : Touch) : Prop :=
  I64.Fits (t.bp.toInt * t.aq.toInt + t.ap.toInt * t.bq.toInt) ∧
    I64.Fits (t.bq.toInt + t.aq.toInt)

/-- The exact micro price. -/
def mean (t : Touch) : ℚ :=
  (t.bp.toInt * t.aq.toInt + t.ap.toInt * t.bq.toInt) / (t.bq.toInt + t.aq.toInt)

theorem total_pos (t : Touch) : (0 : ℚ) < t.bq.toInt + t.aq.toInt := by
  have hbq : (0 : ℚ) < t.bq.toInt := Int.cast_pos.mpr t.bq_pos
  have haq : (0 : ℚ) < t.aq.toInt := Int.cast_pos.mpr t.aq_pos
  linarith

/-- The mean lies between the prices, in whichever order they are. -/
theorem mean_between (t : Touch) :
    ((min t.bp.toInt t.ap.toInt : ℤ) : ℚ) ≤ t.mean ∧
      t.mean ≤ ((max t.bp.toInt t.ap.toInt : ℤ) : ℚ) := by
  have hbq : (0 : ℚ) ≤ t.bq.toInt := Int.cast_nonneg t.bq_pos.le
  have haq : (0 : ℚ) ≤ t.aq.toInt := Int.cast_nonneg t.aq_pos.le
  have htotal := t.total_pos
  rw [mean, le_div_iff₀ htotal, div_le_iff₀ htotal, Int.cast_min, Int.cast_max]
  constructor
  · have h₁ := mul_le_mul_of_nonneg_right (min_le_left (t.bp.toInt : ℚ) t.ap.toInt) haq
    have h₂ := mul_le_mul_of_nonneg_right (min_le_right (t.bp.toInt : ℚ) t.ap.toInt) hbq
    linarith
  · have h₁ := mul_le_mul_of_nonneg_right (le_max_left (t.bp.toInt : ℚ) t.ap.toInt) haq
    have h₂ := mul_le_mul_of_nonneg_right (le_max_right (t.bp.toInt : ℚ) t.ap.toInt) hbq
    linarith

/-- `t'` is `t` with a larger bid quantity. -/
structure RaisesBid (t t' : Touch) : Prop where
  bp : t'.bp = t.bp
  ap : t'.ap = t.ap
  aq : t'.aq = t.aq
  bq : t.bq.toInt ≤ t'.bq.toInt

/-- What a larger bid adds to the cross-multiplied mean has the sign of `ap - bp`. -/
theorem RaisesBid.cross {t t' : Touch} (h : RaisesBid t t') :
    (t'.bp.toInt * t'.aq.toInt + t'.ap.toInt * t'.bq.toInt : ℚ) * (t.bq.toInt + t.aq.toInt) -
        (t.bp.toInt * t.aq.toInt + t.ap.toInt * t.bq.toInt) * (t'.bq.toInt + t'.aq.toInt) =
      (t.ap.toInt - t.bp.toInt) * (t.aq.toInt * (t'.bq.toInt - t.bq.toInt)) := by
  rw [h.bp, h.ap, h.aq]
  ring

/-- A larger bid moves the mean toward the ask. -/
theorem RaisesBid.mean {t t' : Touch} (h : RaisesBid t t') :
    (t.bp.toInt ≤ t.ap.toInt → t.mean ≤ t'.mean) ∧
      (t.ap.toInt ≤ t.bp.toInt → t'.mean ≤ t.mean) := by
  have haq : (0 : ℚ) ≤ t.aq.toInt := Int.cast_nonneg t.aq_pos.le
  have hbq : (0 : ℚ) ≤ t'.bq.toInt - t.bq.toInt := by
    have : (t.bq.toInt : ℚ) ≤ t'.bq.toInt := Int.cast_le.mpr h.bq
    linarith
  have hcross := h.cross
  simp only [Touch.mean]
  rw [div_le_div_iff₀ t.total_pos t'.total_pos, div_le_div_iff₀ t'.total_pos t.total_pos]
  constructor
  · intro hle
    have hle' : (0 : ℚ) ≤ t.ap.toInt - t.bp.toInt := by
      have : (t.bp.toInt : ℚ) ≤ t.ap.toInt := Int.cast_le.mpr hle
      linarith
    have hgain := mul_nonneg hle' (mul_nonneg haq hbq)
    linarith
  · intro hle
    have hle' : (0 : ℚ) ≤ t.bp.toInt - t.ap.toInt := by
      have : (t.ap.toInt : ℚ) ≤ t.bp.toInt := Int.cast_le.mpr hle
      linarith
    have hloss := mul_nonneg hle' (mul_nonneg haq hbq)
    linarith

/-- The truncated mean. -/
def fair (t : Touch) : ℤ := truncate t.mean

theorem fair_between (t : Touch) :
    min t.bp.toInt t.ap.toInt ≤ t.fair ∧ t.fair ≤ max t.bp.toInt t.ap.toInt := by
  obtain ⟨hmin, hmax⟩ := t.mean_between
  constructor
  · exact (truncate_intCast _).symm.trans_le (truncate_mono hmin)
  · exact (truncate_mono hmax).trans_eq (truncate_intCast _)

/-- **A larger bid never moves the fair value away from the ask.** -/
theorem RaisesBid.fair {t t' : Touch} (h : RaisesBid t t') :
    |t.ap.toInt - t'.fair| ≤ |t.ap.toInt - t.fair| := by
  obtain ⟨hup, hdown⟩ := h.mean
  have hbounds := t.fair_between
  have hbounds' := t'.fair_between
  rw [h.bp, h.ap] at hbounds'
  rcases le_total t.bp.toInt t.ap.toInt with hle | hle
  · have hmono : t.fair ≤ t'.fair := truncate_mono (hup hle)
    rw [abs_of_nonneg (by omega), abs_of_nonneg (by omega)]
    omega
  · have hmono : t'.fair ≤ t.fair := truncate_mono (hdown hle)
    rw [abs_of_nonpos (by omega), abs_of_nonpos (by omega)]
    omega

/-! ### What the machine computes -/

/-- The quotient, in wrapping arithmetic. -/
def price (t : Touch) : Ticks := (t.bp * t.aq + t.ap * t.bq) / (t.bq + t.aq)

theorem products_nonneg (t : Touch) :
    0 ≤ t.bp.toInt * t.aq.toInt ∧ 0 ≤ t.ap.toInt * t.bq.toInt :=
  ⟨mul_nonneg t.bp_range.1 t.aq_pos.le, mul_nonneg t.ap_range.1 t.bq_pos.le⟩

/-- Nonnegative products fit if their sum does. -/
theorem SumsFit.productsFit {t : Touch} (h : t.SumsFit) : t.ProductsFit := by
  obtain ⟨hleft, hright⟩ := t.products_nonneg
  obtain ⟨⟨-, hlt⟩, -⟩ := h
  exact ⟨⟨by omega, by omega⟩, by omega, by omega⟩

theorem SumsFit.toInt_total {t : Touch} (h : t.SumsFit) :
    (t.bq + t.aq).toInt = t.bq.toInt + t.aq.toInt := I64.toInt_add h.2

theorem SumsFit.total_pos {t : Touch} (h : t.SumsFit) : 0 < (t.bq + t.aq).toInt := by
  have hbq := t.bq_pos
  have haq := t.aq_pos
  rw [h.toInt_total]
  omega

/-- Without overflow the quotient is the truncated mean. -/
theorem SumsFit.toInt_price {t : Touch} (h : t.SumsFit) : t.price.toInt = t.fair := by
  obtain ⟨hleft, hright⟩ := h.productsFit
  have hpos := h.total_pos
  have hsum : (t.bp * t.aq + t.ap * t.bq).toInt =
      t.bp.toInt * t.aq.toInt + t.ap.toInt * t.bq.toInt := by
    rw [I64.toInt_add (by rw [I64.toInt_mul hleft, I64.toInt_mul hright]; exact h.1),
      I64.toInt_mul hleft, I64.toInt_mul hright]
  rw [price, I64.toInt_div_of_pos hpos, hsum, h.toInt_total, Touch.fair,
    ← truncate_div (by rw [← h.toInt_total]; omega), Touch.mean]
  push_cast
  rfl

theorem SumsFit.weighted? {t : Touch} (h : t.SumsFit) :
    InstrumentState.weighted? t.bp t.bq t.ap t.aq (t.bq + t.aq) = some t.price := by
  have hsome := (InstrumentState.weighted?_isSome_iff t.bp_range.1 t.ap_range.1 t.bq_pos t.aq_pos
    (t.bq + t.aq)).mpr h.1.2
  rcases InstrumentState.weighted?_cases t.bp t.bq t.ap t.aq (t.bq + t.aq) with hnone | hprice
  · rw [hnone] at hsome
    cases hsome
  · exact hprice

/-- The emission path computes the same quotient. -/
theorem SumsFit.microPriceOf {t : Touch} (h : t.SumsFit) :
    InstrumentState.microPriceOf t.bp t.bq t.ap t.aq = t.price := by
  have hpos : 0 < t.bq + t.aq := Int64.lt_iff_toInt_lt.mpr h.total_pos
  exact if_pos hpos

end Touch

/-! ### The queries of a touched book -/

namespace MarketStateEngine

open OrderBook

variable {N MAX : Nat} {e : MarketStateEngine (ArrayBook N) MAX} {inst : InstrumentId} {t : Touch}

/-- The best prices of an instrument. -/
def HasTouch (e : MarketStateEngine (ArrayBook N) MAX) (inst : InstrumentId) (t : Touch) : Prop :=
  ∃ st, e.state? inst = some st ∧ bid st.book = some (t.bp, t.bq) ∧
    ask st.book = some (t.ap, t.aq)

/-- A book with both sides populated has a touch, its true best prices. -/
theorem exists_touch (hN : N ≤ 65536) {book : ArrayBook N} (h : ∀ s, book.Populated s) :
    ∃ t : Touch, bid book = some (t.bp, t.bq) ∧ ask book = some (t.ap, t.aq) ∧
      book.IsBestBid t.bp t.bq ∧ book.IsBestAsk t.ap t.aq := by
  obtain ⟨⟨bp, bq⟩, hbid⟩ :=
    Option.isSome_iff_exists.mp ((ArrayBook.bid_isSome_iff book).mpr (h .bid))
  obtain ⟨⟨ap, aq⟩, hask⟩ :=
    Option.isSome_iff_exists.mp ((ArrayBook.ask_isSome_iff book).mpr (h .ask))
  have hbest := ArrayBook.isBestBid_of_bid hN hbid
  have hbest' := ArrayBook.isBestAsk_of_ask hN hask
  obtain ⟨-, -, -, hbq, -⟩ := hbest
  obtain ⟨-, -, -, haq, -⟩ := hbest'
  exact ⟨⟨bp, bq, ap, aq, ArrayBook.bid_price hbid, ArrayBook.ask_price hask,
    Int64.lt_iff_toInt_lt.mp hbq, Int64.lt_iff_toInt_lt.mp haq⟩, hbid, hask,
    ArrayBook.isBestBid_of_bid hN hbid, ArrayBook.isBestAsk_of_ask hN hask⟩

/-- Both queries read the touch. -/
theorem HasTouch.bestPrices (h : e.HasTouch inst t) :
    ∃ e', e.bestPrices inst = (e', some ((t.bp, t.bq), (t.ap, t.aq))) := by
  obtain ⟨st, hst, hbid, hask⟩ := h
  obtain ⟨slot, hslot, rfl⟩ := Option.map_eq_some_iff.mp hst
  -- asking for the bid first does not change the ask
  rw [← LawfulOrderBook.ask_bestBid] at hask
  simp only [MarketStateEngine.bestPrices, hslot]
  rw [OrderBook.bid] at hbid
  rw [OrderBook.ask] at hask
  rcases hfirst : OrderBook.bestBid (e.instruments.get slot).book with ⟨book, found⟩
  rw [hfirst] at hbid hask
  rcases hsecond : OrderBook.bestAsk book with ⟨book', found'⟩
  rw [hsecond] at hask
  subst hbid hask
  simp only [hsecond]
  exact ⟨_, rfl⟩

/-- **`micro_price` is exact or overflows**: it returns the quotient when both sums fit. -/
theorem HasTouch.returnsMicroPrice (h : e.HasTouch inst t) (hfit : t.SumsFit) :
    e.ReturnsMicroPrice inst t.price := by
  obtain ⟨e', hprices⟩ := h.bestPrices
  have hne : t.bq + t.aq ≠ 0 := by
    rw [Ne, ← I64.toInt_eq_zero]
    exact hfit.total_pos.ne'
  constructor
  · simp only [microPrice?]
    rw [hprices]
    dsimp only
    rw [I64.checkedAdd_of_fits hfit.2, Option.bind_eq_bind, Option.bind_some, if_neg hne,
      hfit.weighted?]
    rfl
  · simp only [microPrice]
    rw [hprices]
    dsimp only
    rw [if_neg hne]
    rfl

/-- It overflows when one of them does not. -/
theorem HasTouch.sumsFit (h : e.HasTouch inst t) (hsome : (e.microPrice? inst).isSome) :
    t.SumsFit := by
  obtain ⟨e', hprices⟩ := h.bestPrices
  obtain ⟨hleft, hright⟩ := t.products_nonneg
  obtain ⟨r, hr⟩ := Option.isSome_iff_exists.mp hsome
  simp only [microPrice?] at hr
  rw [hprices] at hr
  dsimp only at hr
  rw [Option.bind_eq_bind, Option.bind_eq_some_iff] at hr
  obtain ⟨total, htotal, hr⟩ := hr
  have hfits : I64.Fits (t.bq.toInt + t.aq.toInt) := by
    rw [← I64.checked_eq_some.mp htotal]
    exact I64.fits_toInt total
  have hne : total ≠ 0 := by
    have hbq := t.bq_pos
    have haq := t.aq_pos
    rw [Ne, ← I64.toInt_eq_zero, I64.checked_eq_some.mp htotal]
    omega
  rw [if_neg hne, Option.bind_eq_some_iff] at hr
  obtain ⟨price, hprice, -⟩ := hr
  have hlt := (InstrumentState.weighted?_isSome_iff t.bp_range.1 t.ap_range.1 t.bq_pos t.aq_pos
    total).mp (by rw [hprice]; rfl)
  exact ⟨⟨by omega, hlt⟩, hfits⟩

/-- The spread cannot overflow. -/
theorem HasTouch.returnsSpread (h : e.HasTouch inst t) : e.ReturnsSpread inst (t.ap - t.bp) := by
  obtain ⟨e', hprices⟩ := h.bestPrices
  have hbp := t.bp_range
  have hap := t.ap_range
  have hfits : I64.Fits (t.ap.toInt - t.bp.toInt) := ⟨by omega, by omega⟩
  constructor
  · simp only [spread?]
    rw [hprices]
    dsimp only
    rw [I64.checkedSub_of_fits hfits]
    rfl
  · simp only [spread]
    rw [hprices]

/-! ### Fair value -/

/-- `price` is the fair value of an instrument with touch `t`. -/
structure FairValue (e : MarketStateEngine (ArrayBook N) MAX) (inst : InstrumentId) (t : Touch)
    (price : Ticks) : Prop where
  returned : e.ReturnsMicroPrice inst price
  /-- The weighted mean, truncated. -/
  mean : price.toInt = truncate t.mean
  between : min t.bp.toInt t.ap.toInt ≤ price.toInt ∧ price.toInt ≤ max t.bp.toInt t.ap.toInt

theorem HasTouch.fairValue (h : e.HasTouch inst t) (hfit : t.SumsFit) :
    e.FairValue inst t t.price where
  returned := h.returnsMicroPrice hfit
  mean := hfit.toInt_price
  between := by
    rw [hfit.toInt_price]
    exact t.fair_between

theorem HasTouch.fairValue_iff (h : e.HasTouch inst t) :
    (∃ price, e.FairValue inst t price) ↔ t.SumsFit := by
  constructor
  · rintro ⟨price, hfair⟩
    refine h.sumsFit ?_
    rw [← Option.isSome_map, hfair.returned.1]
    rfl
  · intro hfit
    exact ⟨t.price, h.fairValue hfit⟩

/-- An event that emits a top of book leaves the touch it describes. -/
theorem touch_of_emitted (hN : N ≤ 65536) {event : HotEvent} {tob : TopOfBook}
    (h : (e.takeTob.1.process event).takeTob.2 = some tob) :
    ∃ t : Touch, (e.process event).HasTouch tob.instrumentId t ∧
      tob.microPrice = InstrumentState.microPriceOf t.bp t.bq t.ap t.aq ∧
      tob.spread = t.ap - t.bp := by
  rw [takeTob_process (takeTob_tobChanged e), takeTob_state?, Option.bind_eq_some_iff] at h
  obtain ⟨st, hst, hout⟩ := h
  obtain ⟨hdescribes, -, -⟩ := (event.effect_spec st).announced tob hout
  obtain ⟨slot, hslot, -⟩ := Option.map_eq_some_iff.mp hst
  have hstate : (e.process event).state? event.header.instrumentId = some (event.effect st).1 := by
    rw [process_state?, if_pos rfl, hst]
    rfl
  have hpop : ∀ s, (event.effect st).1.book.Populated s := by
    intro s
    cases s with
    | bid => exact (ArrayBook.bid_isSome_iff _).mp (by rw [hdescribes.bid]; rfl)
    | ask => exact (ArrayBook.ask_isSome_iff _).mp (by rw [hdescribes.ask]; rfl)
  obtain ⟨t, hbid, hask, -, -⟩ := exists_touch hN hpop
  have htob := hbid.symm.trans hdescribes.bid
  have htob' := hask.symm.trans hdescribes.ask
  rw [Option.some.injEq, Prod.mk.injEq] at htob htob'
  refine ⟨t, ?_, ?_, ?_⟩
  · rw [HotEvent.effect_instrumentId (slot?_eq_some hslot).2 hout]
    exact ⟨_, hstate, hbid, hask⟩
  · rw [HotEvent.effect_microPrice hout, htob.1, htob.2, htob'.1, htob'.2]
  · rw [hdescribes.spread, htob.1, htob'.1]

/-- **The micro price is a fair value exactly where its sums fit.** In every state of the
engine, an instrument with both sides populated has its micro price at the truncated
weighted mean of its best prices, between them, if and only if neither the sum of the
products nor the total quantity overflows. More bid quantity alone never moves it away from
the ask, and what an event emits is what both queries return right after it. -/
theorem micro_price_fair_iff (hN : N ≤ 65536) :
    (∀ (e : MarketStateEngine (ArrayBook N) MAX) inst st, e.state? inst = some st →
      (∀ s, st.book.Populated s) → ∃ t : Touch, e.HasTouch inst t ∧
        st.book.IsBestBid t.bp t.bq ∧ st.book.IsBestAsk t.ap t.aq ∧
        ((∃ price, e.FairValue inst t price) ↔ t.SumsFit)) ∧
    (∀ (e e' : MarketStateEngine (ArrayBook N) MAX) inst t t' price price',
      Touch.RaisesBid t t' → e.FairValue inst t price → e'.FairValue inst t' price' →
      |t.ap.toInt - price'.toInt| ≤ |t.ap.toInt - price.toInt|) ∧
    ∀ (e : MarketStateEngine (ArrayBook N) MAX) event tob,
      (e.takeTob.1.process event).takeTob.2 = some tob →
      ∃ t : Touch, (e.process event).HasTouch tob.instrumentId t ∧
        (e.process event).ReturnsSpread tob.instrumentId tob.spread ∧
        (t.SumsFit → (e.process event).FairValue tob.instrumentId t tob.microPrice) := by
  refine ⟨?_, ?_, ?_⟩
  · intro e inst st hst hpop
    obtain ⟨t, hbid, hask, hbest, hbest'⟩ := exists_touch hN hpop
    have htouch : e.HasTouch inst t := ⟨st, hst, hbid, hask⟩
    exact ⟨t, htouch, hbest, hbest', htouch.fairValue_iff⟩
  · intro e e' inst t t' price price' hraise hfair hfair'
    rw [hfair.mean, hfair'.mean]
    exact hraise.fair
  · intro e event tob hout
    obtain ⟨t, htouch, hmicro, hspread⟩ := touch_of_emitted hN hout
    refine ⟨t, htouch, ?_, fun hfit => ?_⟩
    · rw [hspread]
      exact htouch.returnsSpread
    · rw [hmicro, hfit.microPriceOf]
      exact htouch.fairValue hfit

/-- One lot offered at `2`, the last delta of a batch. -/
def lastOffer : HotEvent := HotEvent.bookDelta 0 2 1 0 .lastInBatch ⟨2, 1, .ask, .new, 0⟩

/-- With three lots bid at `1`, the last delta of the snapshot emits the micro price `1`, the
truncation of `7/4`, and the queries return it. -/
theorem micro_price_fair_snapshot :
    ∃ e : MarketStateEngine (ArrayBook 4) 1, ∃ tob t, 4 ≤ 65536 ∧
      (e.takeTob.1.process lastOffer).takeTob.2 = some tob ∧ tob.microPrice = 1 ∧ t.SumsFit ∧
      (e.process lastOffer).FairValue tob.instrumentId t tob.microPrice := by
  have hemits : ((process (new 1 0 (by decide) : MarketStateEngine (ArrayBook 4) 1)
      (HotEvent.bookDelta 0 1 1 0 .isSnapshot ⟨1, 3, .bid, .new, 0⟩)).takeTob.1.process
      lastOffer).takeTob.2 = some ⟨1, 3, 2, 1, 1, 1, 1, 0⟩ := by decide
  obtain ⟨t, ⟨st, hst, hbid, hask⟩, -, hfair⟩ :=
    (micro_price_fair_iff (by decide)).2.2 _ _ _ hemits
  cases hst
  have hbid' := (show OrderBook.bid _ = some ((1 : Ticks), (3 : Lots)) by decide).symm.trans hbid
  have hask' := (show OrderBook.ask _ = some ((2 : Ticks), (1 : Lots)) by decide).symm.trans hask
  rw [Option.some.injEq, Prod.mk.injEq] at hbid' hask'
  have hfit : t.SumsFit := by
    rw [Touch.SumsFit, ← hbid'.1, ← hbid'.2, ← hask'.1, ← hask'.2]
    decide
  exact ⟨_, _, t, by decide, hemits, rfl, hfit, hfair hfit⟩

/-- A bid at `0` and an ask at `1`, each of the largest quantity, in an unfinished batch. -/
def hugeLevels : List HotEvent :=
  [HotEvent.bookDelta 0 1 1 0 .empty ⟨0, Int64.maxValue, .bid, .new, 0⟩,
    HotEvent.bookDelta 0 2 1 0 .empty ⟨1, Int64.maxValue, .ask, .new, 0⟩]

/-- The engine that processed them, without overflow. -/
def hugeEngine : MarketStateEngine (ArrayBook 2) 2 :=
  Runs.run process (new 1 0 (by decide)) hugeLevels

def hugeTouch : Touch where
  bp := 0
  bq := Int64.maxValue
  ap := 1
  aq := Int64.maxValue
  bp_range := by decide
  ap_range := by decide
  bq_pos := by decide
  aq_pos := by decide

/-- Both products fit, yet the total quantity does not: with overflow checks `micro_price`
panics, without it returns a price far below the bid. -/
theorem huge_touch_overflows :
    hugeLevels.foldlM process? (new 1 0 (by decide)) = some hugeEngine ∧
    hugeEngine.HasTouch 1 hugeTouch ∧ hugeTouch.ProductsFit ∧
    truncate hugeTouch.mean = 0 ∧
    hugeEngine.microPrice? 1 = none ∧
    (hugeEngine.microPrice 1).2 = some (-4611686018427387903) ∧
    ¬ ∃ price, hugeEngine.FairValue 1 hugeTouch price := by
  have htouch : hugeEngine.HasTouch 1 hugeTouch := ⟨_, rfl, by decide, by decide⟩
  refine ⟨by decide, htouch, ⟨by decide, by decide⟩, ?_, by decide, by decide, ?_⟩
  · have hmean : hugeTouch.mean = ((0 : ℤ) * (2 ^ 63 - 1 : ℤ) + (1 : ℤ) * (2 ^ 63 - 1 : ℤ)) /
        ((2 ^ 63 - 1 : ℤ) + (2 ^ 63 - 1 : ℤ)) := rfl
    rw [hmean]
    norm_num [truncate]
  · rw [htouch.fairValue_iff]
    rintro ⟨-, htotal⟩
    exact absurd htotal (by decide)

end MarketStateEngine

end Mantis
