import Mantis.Lib.Rounding
import Mantis.Strategy.Exposure

/-!
# Mantis.Strategy.Valuation

What the strategy's money figures are worth at the ends of the `i64` range: the entry
price of `Position::on_fill` and the exposure of `Position::notional` and
`ExposureView::total_notional_at_risk`.

All three form products of a price and a quantity with checked multiplications and
replace a product that overflows by zero. Nothing is rounded before the one division of
the entry price, so the figures are exact as long as the products fit, and the zeros
show in the result as soon as one does not.
-/

namespace Mantis

open I64 (Fits orZero)

namespace Position

/-! ### The entry price -/

/-- The fill adds `qty > 0` lots to the position, from flat or in its direction, and the
position it makes is representable. Prices are not negative. -/
structure AddsTo (p : Position) (side : Side) (qty : Lots) (price : FixedI64 6) : Prop where
  avgEntry_nonneg : 0 ≤ p.avgEntry.raw.toInt
  price_nonneg : 0 ≤ price.raw.toInt
  qty_pos : 0 < qty.toInt
  direction :
    match side with
    | .bid => 0 ≤ p.qty.toInt
    | .ask => p.qty.toInt ≤ 0
  room : Fits (|p.qty.toInt| + qty.toInt)

/-- What the lots of the position and of the fill cost together. -/
def entryCost (p : Position) (qty : Lots) (price : FixedI64 6) : Int :=
  p.avgEntry.raw.toInt * |p.qty.toInt| + price.raw.toInt * qty.toInt

/-- The weighted mean of the old entry price and the fill price, in raw units. -/
def entryMean (p : Position) (qty : Lots) (price : FixedI64 6) : ℚ :=
  (p.entryCost qty price : ℚ) / (|p.qty.toInt| + qty.toInt : ℤ)

/-- The fill leaves the weighted mean, truncated to a raw unit, as the entry price: a
price between the two, and the fill price itself when the fill opens the position. -/
structure EntryIsMean (p : Position) (side : Side) (qty : Lots) (price : FixedI64 6) : Prop where
  mean : (p.onFill side qty price).avgEntry.raw.toInt =
    Rounding.truncate (p.entryMean qty price)
  lower : min p.avgEntry.raw.toInt price.raw.toInt ≤
    (p.onFill side qty price).avgEntry.raw.toInt
  upper : (p.onFill side qty price).avgEntry.raw.toInt ≤
    max p.avgEntry.raw.toInt price.raw.toInt
  flat : p.qty = 0 → (p.onFill side qty price).avgEntry = price

/-- A total that loses a part for not fitting loses more than any divisor: the quotient
is off unless everything fits. -/
theorem orZero_tdiv_iff {a b n : Int} (ha : 0 ≤ a) (hb : 0 ≤ b) (hn : 0 < n) (hfits : Fits n) :
    (orZero (orZero a + orZero b)).tdiv n = (a + b).tdiv n ↔ a + b < 2 ^ 63 := by
  constructor
  · intro heq
    by_contra hlarge
    have hnonneg : 0 ≤ orZero (orZero a + orZero b) :=
      I64.orZero_nonneg (add_nonneg (I64.orZero_nonneg ha) (I64.orZero_nonneg hb))
    have hlost : orZero (orZero a + orZero b) + n ≤ a + b := by
      obtain ⟨-, hn'⟩ := hfits
      unfold orZero Fits
      split_ifs <;> omega
    have hstep : (orZero (orZero a + orZero b) + n) / n ≤ (a + b) / n :=
      Int.ediv_le_ediv hn hlost
    rw [Int.tdiv_eq_ediv_of_nonneg hnonneg, Int.tdiv_eq_ediv_of_nonneg (add_nonneg ha hb)] at heq
    rw [Int.add_ediv_of_dvd_right (dvd_refl n), Int.ediv_self hn.ne'] at hstep
    omega
  · intro hsmall
    rw [I64.orZero_of_fits (n := a) ⟨by omega, by omega⟩,
      I64.orZero_of_fits (n := b) ⟨by omega, by omega⟩,
      I64.orZero_of_fits (n := a + b) ⟨by omega, by omega⟩]

section

variable {p : Position} {side : Side} {qty : Lots} {price : FixedI64 6}

namespace AddsTo

theorem entryCost_nonneg (h : AddsTo p side qty price) : 0 ≤ p.entryCost qty price :=
  add_nonneg (mul_nonneg h.avgEntry_nonneg (abs_nonneg _)) (mul_nonneg h.price_nonneg h.qty_pos.le)

theorem total_pos (h : AddsTo p side qty price) : 0 < |p.qty.toInt| + qty.toInt :=
  add_pos_of_nonneg_of_pos (abs_nonneg _) h.qty_pos

theorem abs_exactDelta (h : AddsTo p side qty price) : |exactDelta side qty| = qty.toInt := by
  cases side with
  | bid => exact abs_of_pos h.qty_pos
  | ask => rw [exactDelta, abs_neg, abs_of_pos h.qty_pos]

theorem fits_exactDelta (h : AddsTo p side qty price) : Fits (exactDelta side qty) := by
  obtain ⟨hlow, hhigh⟩ := I64.fits_toInt qty
  have hpos := h.qty_pos
  cases side with
  | bid => exact ⟨hlow, hhigh⟩
  | ask =>
      constructor
      · show -2 ^ 63 ≤ -qty.toInt
        omega
      · show -qty.toInt < 2 ^ 63
        omega

/-- The lots add up. -/
theorem abs_newQty (h : AddsTo p side qty price) :
    |p.qty.toInt + exactDelta side qty| = |p.qty.toInt| + qty.toInt := by
  have hpos := h.qty_pos
  have hdir := h.direction
  cases side with
  | bid =>
      show |p.qty.toInt + qty.toInt| = _
      rw [abs_of_nonneg hdir, abs_of_pos (add_pos_of_nonneg_of_pos hdir hpos)]
  | ask =>
      show |p.qty.toInt + -qty.toInt| = _
      have hneg : p.qty.toInt + -qty.toInt < 0 := by
        have : p.qty.toInt ≤ 0 := hdir
        omega
      rw [abs_of_nonpos hdir, abs_of_neg hneg]
      omega

theorem toInt_newQty (h : AddsTo p side qty price) :
    (p.qty + signedDelta side qty).toInt = p.qty.toInt + exactDelta side qty := by
  have hd := toInt_signedDelta h.fits_exactDelta
  have habs := h.abs_newQty
  obtain ⟨-, hroom⟩ := h.room
  rw [I64.toInt_add, hd]
  rw [hd]
  constructor
  · have := neg_abs_le (p.qty.toInt + exactDelta side qty)
    omega
  · have := le_abs_self (p.qty.toInt + exactDelta side qty)
    omega

theorem isIncreasing (h : AddsTo p side qty price) :
    isIncreasing p.qty (signedDelta side qty) = true := by
  rw [isIncreasing_iff, toInt_signedDelta h.fits_exactDelta]
  have hpos := h.qty_pos
  have hdir := h.direction
  cases side with
  | bid =>
      have : 0 ≤ p.qty.toInt := hdir
      show _ ∨ (_ ∧ 0 < qty.toInt) ∨ _ ∧ qty.toInt < 0
      omega
  | ask =>
      have : p.qty.toInt ≤ 0 := hdir
      show _ ∨ (_ ∧ 0 < -qty.toInt) ∨ _ ∧ -qty.toInt < 0
      omega

/-- The entry price after the fill, with a zero for each cost that does not fit. -/
theorem avgEntry_onFill (h : AddsTo p side qty price) :
    (p.onFill side qty price).avgEntry.raw.toInt =
      (orZero (orZero (p.avgEntry.raw.toInt * |p.qty.toInt|) +
        orZero (price.raw.toInt * qty.toInt))).tdiv (|p.qty.toInt| + qty.toInt) := by
  have hd := toInt_signedDelta h.fits_exactDelta
  have hn := h.toInt_newQty
  obtain ⟨-, hroom⟩ := h.room
  have hold := abs_nonneg p.qty.toInt
  have hpos := h.qty_pos
  have hne : p.qty + signedDelta side qty ≠ 0 := by
    intro h0
    have habs := h.abs_newQty
    rw [← hn, h0, Int64.toInt_zero, abs_zero] at habs
    omega
  have havg : (p.onFill side qty price).avgEntry =
      vwapEntry p.avgEntry price p.qty (signedDelta side qty) (p.qty + signedDelta side qty) := by
    simp only [onFill, h.isIncreasing, if_true, if_neg hne]
  rw [havg, raw_vwapEntry _ _ ⟨by omega, by omega⟩ _ _ hne, hd, hn, h.abs_exactDelta, h.abs_newQty]
  · rw [hd, h.abs_exactDelta]
    exact I64.fits_toInt qty
  · rw [hn, h.abs_newQty]
    exact h.room

theorem truncate_entryMean (h : AddsTo p side qty price) :
    Rounding.truncate (p.entryMean qty price) =
      (p.entryCost qty price).tdiv (|p.qty.toInt| + qty.toInt) :=
  Rounding.truncate_div h.total_pos.ne'

/-- The weighted mean lies between the two prices. -/
theorem entryMean_between (h : AddsTo p side qty price) :
    min p.avgEntry.raw.toInt price.raw.toInt ≤ Rounding.truncate (p.entryMean qty price) ∧
    Rounding.truncate (p.entryMean qty price) ≤ max p.avgEntry.raw.toInt price.raw.toInt := by
  rw [h.truncate_entryMean, Int.tdiv_eq_ediv_of_nonneg h.entryCost_nonneg]
  have hold := abs_nonneg p.qty.toInt
  constructor
  · rw [Int.le_ediv_iff_mul_le h.total_pos, mul_add]
    exact add_le_add (mul_le_mul_of_nonneg_right (min_le_left _ _) hold)
      (mul_le_mul_of_nonneg_right (min_le_right _ _) h.qty_pos.le)
  · refine Int.ediv_le_of_le_mul h.total_pos ?_
    rw [mul_add]
    exact add_le_add (mul_le_mul_of_nonneg_right (le_max_left _ _) hold)
      (mul_le_mul_of_nonneg_right (le_max_right _ _) h.qty_pos.le)

/-- From flat the weighted mean is the fill price. -/
theorem entryMean_flat (h : AddsTo p side qty price) (hflat : p.qty = 0) :
    Rounding.truncate (p.entryMean qty price) = price.raw.toInt := by
  rw [h.truncate_entryMean, entryCost, hflat, Int64.toInt_zero, abs_zero, mul_zero, zero_add,
    zero_add, Int.mul_tdiv_cancel _ h.qty_pos.ne']

end AddsTo

/-- **When the entry price is the weighted mean.** An increasing fill leaves the exact
mean as the entry price exactly when the cost of all lots together is an `i64`. -/
theorem entryIsMean_iff (h : AddsTo p side qty price) :
    EntryIsMean p side qty price ↔ p.entryCost qty price < 2 ^ 63 := by
  have hcosts := orZero_tdiv_iff (mul_nonneg h.avgEntry_nonneg (abs_nonneg p.qty.toInt))
    (mul_nonneg h.price_nonneg h.qty_pos.le) h.total_pos h.room
  constructor
  · intro hmean
    have heq := hmean.mean
    rw [h.avgEntry_onFill, h.truncate_entryMean] at heq
    exact hcosts.mp heq
  · intro hfits
    have heq : (p.onFill side qty price).avgEntry.raw.toInt =
        Rounding.truncate (p.entryMean qty price) := by
      rw [h.avgEntry_onFill, h.truncate_entryMean]
      exact hcosts.mpr hfits
    refine ⟨heq, ?_, ?_, fun hflat => ?_⟩
    · rw [heq]
      exact h.entryMean_between.1
    · rw [heq]
      exact h.entryMean_between.2
    · rw [h.entryMean_flat hflat, Int64.toInt_inj] at heq
      exact congrArg FixedI64.mk heq

end

/-- Five lots at 3.0 on top of ten at 2.0: the mean, 2.333333, is truncated. -/
theorem entryIsMean_long :
    AddsTo ⟨1, 10, ⟨2000000⟩, .zero, 1⟩ .bid 5 ⟨3000000⟩ ∧
    EntryIsMean ⟨1, 10, ⟨2000000⟩, .zero, 1⟩ .bid 5 ⟨3000000⟩ ∧
    (onFill ⟨1, 10, ⟨2000000⟩, .zero, 1⟩ .bid 5 ⟨3000000⟩).avgEntry = ⟨2333333⟩ := by
  have hadds : AddsTo ⟨1, 10, ⟨2000000⟩, .zero, 1⟩ .bid 5 ⟨3000000⟩ :=
    ⟨by decide, by decide, by decide, show (0 : Int) ≤ Int64.toInt 10 by decide, by decide⟩
  exact ⟨hadds, (entryIsMean_iff hadds).mpr (by decide), by decide⟩

/-- Ten million lots bought at 1,000,000.0 cost more than an `i64` of raw units: the
position opens at an entry price of zero. -/
theorem entry_lost_on_large_fill :
    AddsTo (new 1) .bid 10000000 ⟨1000000000000⟩ ∧
    ((new 1).onFill .bid 10000000 ⟨1000000000000⟩).avgEntry = .zero ∧
    ¬ EntryIsMean (new 1) .bid 10000000 ⟨1000000000000⟩ := by
  have hzero : ((new 1).onFill .bid 10000000 ⟨1000000000000⟩).avgEntry = .zero := by decide
  refine ⟨⟨by decide, by decide, by decide, show (0 : Int) ≤ Int64.toInt 0 by decide,
    by decide⟩, hzero, fun hmean => ?_⟩
  have hflat := hmean.flat rfl
  rw [hzero] at hflat
  exact absurd hflat (by decide)

/-! ### The notional of one position -/

/-- `|qty| * mid`, in raw units. -/
def exactNotional (p : Position) (mid : FixedI64 6) : Int := mid.raw.toInt * |p.qty.toInt|

theorem exactNotional_nonneg (p : Position) {mid : FixedI64 6} (h : 0 ≤ mid.raw.toInt) :
    0 ≤ p.exactNotional mid :=
  mul_nonneg h (abs_nonneg _)

/-- Only `i64::MIN` has no absolute value. -/
theorem fits_abs {q : SignedLots} (h : q ≠ Int64.minValue) : Fits |q.toInt| := by
  obtain ⟨hlow, hhigh⟩ := I64.fits_toInt q
  have hne : q.toInt ≠ -2 ^ 63 := fun heq => h (Int64.toInt_inj.mp heq)
  constructor
  · have := abs_nonneg q.toInt
    omega
  · rw [abs_lt]
    omega

theorem raw_notional {p : Position} (h : p.qty ≠ Int64.minValue) (mid : FixedI64 6) :
    (p.notional mid).raw.toInt = orZero (p.exactNotional mid) := by
  rw [exactNotional, ← I64.toInt_abs (fits_abs h)]
  exact FixedI64.raw_getD_zero _

/-- The notional grows with the quantity and the price, except from a product that counts
to one that overflows. -/
theorem notional_mono_iff {p p' : Position} {mid mid' : FixedI64 6}
    (hp : p.qty ≠ Int64.minValue) (hp' : p'.qty ≠ Int64.minValue) (hmid : 0 ≤ mid.raw.toInt)
    (hqty : |p.qty.toInt| ≤ |p'.qty.toInt|) (hle : mid.raw.toInt ≤ mid'.raw.toInt) :
    (p.notional mid).raw ≤ (p'.notional mid').raw ↔
      p'.exactNotional mid' < 2 ^ 63 ∨ p.exactNotional mid = 0 ∨ 2 ^ 63 ≤ p.exactNotional mid := by
  have hnonneg := p.exactNotional_nonneg hmid
  have hgrow : p.exactNotional mid ≤ p'.exactNotional mid' :=
    mul_le_mul hle hqty (abs_nonneg _) (by omega)
  rw [Int64.le_iff_toInt_le, raw_notional hp, raw_notional hp']
  unfold orZero Fits
  split_ifs <;> omega

end Position

/-! ### The notional of a view -/

namespace ExposureView

open Position

/-- What the risk figure is computed from: mid prices that are not negative and name each
instrument at most once, and quantities that have an absolute value. -/
structure RiskInput (positions : List Position) (midPrices : List (InstrumentId × FixedI64 6)) :
    Prop where
  qty_ne_min : ∀ p ∈ positions, p.qty ≠ Int64.minValue
  mid_nonneg : ∀ entry ∈ midPrices, 0 ≤ entry.2.raw.toInt
  nodup : (midPrices.map Prod.fst).Nodup

/-- The exact notionals of the positions whose instrument is listed. -/
def exactNotionals (positions : List Position) (midPrices : List (InstrumentId × FixedI64 6)) :
    List Int :=
  positions.filterMap fun p => (midPrices.lookup p.instrumentId).map p.exactNotional

/-- The same notionals in the order of the two loops. -/
def visited (positions : List Position) (midPrices : List (InstrumentId × FixedI64 6)) :
    List Int :=
  midPrices.flatMap fun entry =>
    (positions.filter fun p => p.instrumentId = entry.1).map fun p => p.exactNotional entry.2

theorem visited_cons (positions : List Position) (entry : InstrumentId × FixedI64 6)
    (rest : List (InstrumentId × FixedI64 6)) :
    visited positions (entry :: rest) =
      (positions.filter fun p => p.instrumentId = entry.1).map (fun p => p.exactNotional entry.2) ++
        visited positions rest := rfl

/-- Splitting off the positions of one instrument. -/
theorem filterMap_split {α β : Type*} (f : α → Bool) (g : α → β) (h : α → Option β)
    (hnone : ∀ a, f a = true → h a = none) (as : List α) :
    (as.filterMap fun a => if f a then some (g a) else h a).Perm
      ((as.filter f).map g ++ as.filterMap h) := by
  induction as with
  | nil => exact List.Perm.nil
  | cons a as ih =>
      by_cases hf : f a = true
      · simp only [List.filterMap_cons, List.filter_cons, if_pos hf, hnone a hf, List.map_cons]
        exact ih.cons _
      · cases ha : h a with
        | none =>
            simp only [List.filterMap_cons, List.filter_cons, if_neg hf, ha]
            exact ih
        | some b =>
            simp only [List.filterMap_cons, List.filter_cons, if_neg hf, ha]
            exact (ih.cons b).trans List.perm_middle.symm

/-- The loops visit each listed position once. -/
theorem exactNotionals_perm_visited (positions : List Position)
    {midPrices : List (InstrumentId × FixedI64 6)} (h : (midPrices.map Prod.fst).Nodup) :
    (exactNotionals positions midPrices).Perm (visited positions midPrices) := by
  induction midPrices with
  | nil => simp [exactNotionals, visited]
  | cons entry rest ih =>
      obtain ⟨i, mid⟩ := entry
      rw [List.map_cons, List.nodup_cons] at h
      have hlookup : (fun p : Position =>
          (((i, mid) :: rest).lookup p.instrumentId).map p.exactNotional) =
          fun p => if decide (p.instrumentId = i) = true then some (p.exactNotional mid)
            else (rest.lookup p.instrumentId).map p.exactNotional := by
        funext p
        rw [List.lookup_cons]
        by_cases hp : p.instrumentId = i
        · rw [if_pos (decide_eq_true hp), beq_iff_eq.mpr hp]
          rfl
        · rw [if_neg (by simpa using hp), beq_eq_false_iff_ne.mpr hp]
      have habsent : ∀ p : Position, decide (p.instrumentId = i) = true →
          (rest.lookup p.instrumentId).map p.exactNotional = none := by
        intro p hp
        rw [of_decide_eq_true hp, List.lookup_eq_none_iff.mpr, Option.map_none]
        intro other hother
        exact bne_iff_ne.mpr fun heq => h.1 (List.mem_map.mpr ⟨other, hother, heq.symm⟩)
      rw [exactNotionals, hlookup]
      refine (filterMap_split _ _ _ habsent positions).trans ?_
      exact (ih h.2).append_left _

/-- What the figure is made of: the notionals that fit. -/
def counted (notionals : List Int) : Int := (notionals.map orZero).sum

theorem counted_append (ns ms : List Int) : counted (ns ++ ms) = counted ns + counted ms := by
  simp [counted]

theorem counted_nonneg {ns : List Int} (h : ∀ n ∈ ns, 0 ≤ n) : 0 ≤ counted ns := by
  refine List.sum_nonneg fun m hm => ?_
  obtain ⟨n, hn, rfl⟩ := List.mem_map.mp hm
  exact I64.orZero_nonneg (h n hn)

theorem counted_instrument_nonneg (positions : List Position) (i : InstrumentId) {mid : FixedI64 6}
    (hmid : 0 ≤ mid.raw.toInt) :
    0 ≤ counted ((positions.filter fun p => p.instrumentId = i).map fun p =>
      p.exactNotional mid) := by
  refine counted_nonneg fun n hn => ?_
  obtain ⟨p, -, rfl⟩ := List.mem_map.mp hn
  exact p.exactNotional_nonneg hmid

/-- The inner loop: the positions of one instrument. -/
theorem raw_foldl_positions {positions : List Position} (i : InstrumentId) {mid : FixedI64 6}
    (hqty : ∀ p ∈ positions, p.qty ≠ Int64.minValue) (hmid : 0 ≤ mid.raw.toInt)
    {total : FixedI64 6} (htotal : 0 ≤ total.raw.toInt) :
    (positions.foldl (fun total pos =>
        if pos.instrumentId = i then (pos.notional mid).saturatingAdd total else total)
      total).raw.toInt =
      min (2 ^ 63 - 1) (total.raw.toInt + counted
        ((positions.filter fun p => p.instrumentId = i).map fun p => p.exactNotional mid)) := by
  induction positions generalizing total with
  | nil =>
      have := total.raw.toInt_lt
      simp only [List.foldl_nil, counted, List.filter_nil, List.map_nil, List.sum_nil]
      omega
  | cons p ps ih =>
      have hps : ∀ q ∈ ps, q.qty ≠ Int64.minValue := fun q hq => hqty q (List.mem_cons_of_mem _ hq)
      rw [List.foldl_cons]
      by_cases hp : p.instrumentId = i
      · have hadd : ((p.notional mid).saturatingAdd total).raw.toInt =
            min (2 ^ 63 - 1) (orZero (p.exactNotional mid) + total.raw.toInt) := by
          have hnonneg := I64.orZero_nonneg (p.exactNotional_nonneg hmid)
          show (I64.saturatingAdd _ _).toInt = _
          rw [I64.toInt_saturatingAdd, raw_notional (hqty p List.mem_cons_self), I64.clamp]
          omega
        have hrest := counted_instrument_nonneg ps i hmid
        have hnonneg := I64.orZero_nonneg (p.exactNotional_nonneg hmid)
        rw [if_pos hp, ih hps (by rw [hadd]; omega), hadd, List.filter_cons_of_pos (by simpa using hp),
          List.map_cons, ← List.singleton_append, counted_append]
        simp only [counted, List.map_cons, List.map_nil, List.sum_cons, List.sum_nil] at hrest ⊢
        omega
      · rw [if_neg hp, ih hps htotal, List.filter_cons_of_neg (by simpa using hp)]

/-- The figure is the saturating sum of the notionals that fit. -/
theorem raw_totalNotionalAtRisk (v : ExposureView) {midPrices : List (InstrumentId × FixedI64 6)}
    (hqty : ∀ p ∈ v.positions, p.qty ≠ Int64.minValue)
    (hmid : ∀ entry ∈ midPrices, 0 ≤ entry.2.raw.toInt) :
    (v.totalNotionalAtRisk midPrices).raw.toInt =
      min (2 ^ 63 - 1) (counted (visited v.positions midPrices)) := by
  have hloop : ∀ total : FixedI64 6, 0 ≤ total.raw.toInt →
      (midPrices.foldl (fun total entry => v.positions.foldl (fun total pos =>
          if pos.instrumentId = entry.1 then (pos.notional entry.2).saturatingAdd total else total)
        total) total).raw.toInt =
      min (2 ^ 63 - 1) (total.raw.toInt + counted (visited v.positions midPrices)) := by
    induction midPrices with
    | nil =>
        intro total _
        have := total.raw.toInt_lt
        simp only [List.foldl_nil, visited, List.flatMap_nil, counted, List.map_nil, List.sum_nil]
        omega
    | cons entry rest ih =>
        intro total htotal
        have hrest : ∀ e ∈ rest, 0 ≤ e.2.raw.toInt := fun e he => hmid e (List.mem_cons_of_mem _ he)
        have hone := raw_foldl_positions entry.1 hqty (hmid entry List.mem_cons_self) htotal
        have hpart := counted_instrument_nonneg v.positions entry.1 (hmid entry List.mem_cons_self)
        have hothers : 0 ≤ counted (visited v.positions rest) := by
          refine counted_nonneg fun n hn => ?_
          obtain ⟨e, he, hn⟩ := List.mem_flatMap.mp hn
          obtain ⟨q, -, rfl⟩ := List.mem_map.mp hn
          exact q.exactNotional_nonneg (hrest e he)
        rw [List.foldl_cons, ih hrest _ (by rw [hone]; omega), hone, visited_cons, counted_append]
        omega
  have hzero := hloop .zero (by decide)
  rw [show (FixedI64.zero : FixedI64 6).raw.toInt = 0 from rfl, zero_add] at hzero
  exact hzero

/-- The notionals that fit are those below the limit. -/
theorem counted_eq_sum_filter {ns : List Int} (h : ∀ n ∈ ns, 0 ≤ n) :
    counted ns = (ns.filter fun n => n < 2 ^ 63).sum := by
  induction ns with
  | nil => rfl
  | cons n ns ih =>
      have hn := h n List.mem_cons_self
      have hcons : counted (n :: ns) = orZero n + counted ns := List.sum_cons
      rw [hcons, ih fun m hm => h m (List.mem_cons_of_mem _ hm)]
      by_cases hlt : n < 2 ^ 63
      · rw [I64.orZero_of_fits ⟨by omega, hlt⟩, List.filter_cons_of_pos (by simpa using hlt),
          List.sum_cons]
      · rw [I64.orZero_of_not_fits fun hfits => hlt hfits.2,
          List.filter_cons_of_neg (by simpa using hlt), zero_add]

/-- Leaving out what does not fit understates the sum, up to the limit, unless nothing is
left out or the rest reaches the limit alone. -/
theorem min_sum_le_counted_iff {ns : List Int} (h : ∀ n ∈ ns, 0 ≤ n) :
    min (2 ^ 63 - 1) ns.sum ≤ min (2 ^ 63 - 1) (counted ns) ↔
      (∀ n ∈ ns, n < 2 ^ 63) ∨ 2 ^ 63 - 1 ≤ (ns.filter fun n => n < 2 ^ 63).sum := by
  rw [← counted_eq_sum_filter h]
  by_cases hall : ∀ n ∈ ns, n < 2 ^ 63
  · have heq : counted ns = ns.sum := by
      rw [counted_eq_sum_filter h, List.filter_eq_self.mpr fun n hn => by simpa using hall n hn]
    rw [heq]
    exact iff_of_true (le_refl _) (Or.inl hall)
  · have hlarge : 2 ^ 63 ≤ ns.sum := by
      push Not at hall
      obtain ⟨n, hn, hge⟩ := hall
      exact hge.trans (List.single_le_sum h n hn)
    rw [min_eq_left (by omega), le_min_iff]
    exact ⟨fun hle => Or.inr hle.2, fun hor => ⟨le_refl _, hor.resolve_left hall⟩⟩

/-- **When risk is not understated.** The figure covers the exact sum, up to `i64::MAX`,
exactly when every notional of a listed position is an `i64` or the ones that are sum up
to the limit on their own; and the notional of one position grows with its quantity and
with the price exactly when the larger product is an `i64`, or the smaller one counts
nothing. -/
theorem totalNotionalAtRisk_covers_iff (v : ExposureView)
    {midPrices : List (InstrumentId × FixedI64 6)} (h : RiskInput v.positions midPrices) :
    (min (2 ^ 63 - 1) (exactNotionals v.positions midPrices).sum ≤
        (v.totalNotionalAtRisk midPrices).raw.toInt ↔
      (∀ n ∈ exactNotionals v.positions midPrices, n < 2 ^ 63) ∨
        2 ^ 63 - 1 ≤ ((exactNotionals v.positions midPrices).filter fun n => n < 2 ^ 63).sum) ∧
    (∀ (p p' : Position) (mid mid' : FixedI64 6), p.qty ≠ Int64.minValue →
      p'.qty ≠ Int64.minValue → 0 ≤ mid.raw.toInt → |p.qty.toInt| ≤ |p'.qty.toInt| →
      mid.raw.toInt ≤ mid'.raw.toInt →
      ((p.notional mid).raw ≤ (p'.notional mid').raw ↔
        p'.exactNotional mid' < 2 ^ 63 ∨ p.exactNotional mid = 0 ∨
          2 ^ 63 ≤ p.exactNotional mid)) := by
  have hperm := exactNotionals_perm_visited v.positions h.nodup
  have hnonneg : ∀ n ∈ exactNotionals v.positions midPrices, 0 ≤ n := by
    intro n hn
    obtain ⟨entry, hentry, hn⟩ := List.mem_flatMap.mp (hperm.mem_iff.mp hn)
    obtain ⟨p, -, rfl⟩ := List.mem_map.mp hn
    exact p.exactNotional_nonneg (h.mid_nonneg entry hentry)
  have hcounted : counted (visited v.positions midPrices) =
      counted (exactNotionals v.positions midPrices) := (hperm.map orZero).sum_eq.symm
  refine ⟨?_, fun p p' mid mid' hp hp' hmid hqty hle => notional_mono_iff hp hp' hmid hqty hle⟩
  rw [raw_totalNotionalAtRisk v h.qty_ne_min h.mid_nonneg, hcounted]
  exact min_sum_le_counted_iff hnonneg

/-- A long and a short position, and one whose instrument is not listed. -/
def smallView : ExposureView :=
  ⟨[⟨1, 10, ⟨2000000⟩, .zero, 1⟩, ⟨2, -5, ⟨3000000⟩, .zero, 1⟩, ⟨3, 7, ⟨1000000⟩, .zero, 1⟩],
    OrderTracker.new⟩

/-- Ten lots at 2.0 and five at 4.0: 40.0 is at risk. -/
theorem totalNotionalAtRisk_covers_small :
    min (2 ^ 63 - 1)
        (exactNotionals smallView.positions [(2, ⟨4000000⟩), (1, ⟨2000000⟩)]).sum ≤
      (smallView.totalNotionalAtRisk [(2, ⟨4000000⟩), (1, ⟨2000000⟩)]).raw.toInt ∧
    smallView.totalNotionalAtRisk [(2, ⟨4000000⟩), (1, ⟨2000000⟩)] = ⟨40000000⟩ :=
  ⟨(totalNotionalAtRisk_covers_iff smallView ⟨by decide, by decide, by decide⟩).1.mpr
    (Or.inl (by decide)), by decide⟩

/-- Ten million lots at 1,000,000.0 are reported as no risk at all, and one lot as more. -/
theorem risk_lost_on_large_position :
    RiskInput [⟨1, 10000000, .zero, .zero, 1⟩] [(1, ⟨1000000000000⟩)] ∧
    totalNotionalAtRisk ⟨[⟨1, 10000000, .zero, .zero, 1⟩], OrderTracker.new⟩
      [(1, ⟨1000000000000⟩)] = .zero ∧
    ¬ min (2 ^ 63 - 1)
        (exactNotionals [⟨1, 10000000, .zero, .zero, 1⟩] [(1, ⟨1000000000000⟩)]).sum ≤
      (totalNotionalAtRisk ⟨[⟨1, 10000000, .zero, .zero, 1⟩], OrderTracker.new⟩
        [(1, ⟨1000000000000⟩)]).raw.toInt ∧
    ¬ (notional ⟨1, 1, .zero, .zero, 1⟩ ⟨1000000000000⟩).raw ≤
      (notional ⟨1, 10000000, .zero, .zero, 1⟩ ⟨1000000000000⟩).raw :=
  ⟨⟨by decide, by decide, by decide⟩, by decide, by decide, by decide⟩

end ExposureView

end Mantis
