import Mantis.Polymarket.Decoder
import Mantis.Fixed.Fmt
import Mantis.Lib.TextSearch

/-!
# Mantis.Polymarket.Grid

The price and quantity grids of an instrument (`InstrumentMeta` in
`crates/types/src/instrument.rs`) and the texts that denote their points.

Counting is a truncating division by the step, going back a checked multiplication. Prices
and quantities are two grids of one kind, so the laws are proved once (`gridLaws`).
-/

namespace Mantis

variable {D : Nat}

/-! ### Grids -/

/-- Counting steps of a grid and going back. -/
structure GridLaws (size : FixedI64 D) (toCount : FixedI64 D → Option Int64)
    (ofCount : Int64 → Option (FixedI64 D)) : Prop where
  /-- A point of the grid is counted as it was made. -/
  count_of_point : ∀ {n : Int64} {p : FixedI64 D}, ofCount n = some p → toCount p = some n
  /-- Every amount is counted, and the division neither panics nor overflows. -/
  total : ∀ p : FixedI64 D, ∃ n, toCount p = some n ∧ I64.div? p.raw size.raw = some n
  /-- Going back never overflows and gives the point next to the amount, toward zero. -/
  back : ∀ {p : FixedI64 D} {n : Int64}, toCount p = some n → ∃ p', ofCount n = some p' ∧
    min 0 p.raw.toInt ≤ p'.raw.toInt ∧ p'.raw.toInt ≤ max 0 p.raw.toInt ∧
    |p.raw.toInt - p'.raw.toInt| < size.raw.toInt
  mono : ∀ {p q : FixedI64 D} {m n : Int64}, p.raw ≤ q.raw → toCount p = some m →
    toCount q = some n → m ≤ n
  /-- Counting loses nothing exactly on the multiples of the size. -/
  exact_iff : ∀ {p : FixedI64 D} {n : Int64}, toCount p = some n →
    (ofCount n = some p ↔ size.raw.toInt ∣ p.raw.toInt)

/-- The multiple of `s` next to `p`, toward zero. -/
theorem mul_tdiv_bounds {s : Int} (hs : 0 < s) (p : Int) :
    min 0 p ≤ s * p.tdiv s ∧ s * p.tdiv s ≤ max 0 p ∧ |p - s * p.tdiv s| < s := by
  have hsplit := Int.mul_tdiv_add_tmod p s
  have hlt := Int.tmod_lt_of_pos p hs
  have hgt := Int.lt_tmod_of_pos p hs
  rw [abs_lt]
  rcases le_total 0 p with hp | hp
  · have hquot := mul_nonneg hs.le (Int.tdiv_nonneg hp hs.le)
    have hrem := Int.tmod_nonneg s hp
    omega
  · have hquot := mul_nonneg hs.le (Int.tdiv_nonneg (neg_nonneg.mpr hp) hs.le)
    have hrem := Int.tmod_nonneg s (neg_nonneg.mpr hp)
    rw [Int.neg_tdiv, mul_neg] at hquot
    rw [Int.neg_tmod] at hrem
    omega

namespace FixedI64

/-- A checked multiple, through exact integers. -/
theorem checkedMulInt_eq_some {size p : FixedI64 D} {n : Int64} :
    size.checkedMulInt n = some p ↔ p.raw.toInt = size.raw.toInt * n.toInt := by
  rw [checkedMulInt, I64.checkedMul, Option.map_eq_some_iff]
  constructor
  · rintro ⟨raw, hraw, rfl⟩
    exact I64.checked_eq_some.mp hraw
  · intro h
    exact ⟨p.raw, I64.checked_eq_some.mpr h, rfl⟩

/-- **The laws of a grid**: counting divides by a positive size. -/
theorem gridLaws {size : FixedI64 D} (hpos : 0 < size.raw.toInt)
    {toCount : FixedI64 D → Option Int64}
    (hcount : ∀ p, ∃ n, toCount p = some n ∧ n.toInt = p.raw.toInt.tdiv size.raw.toInt) :
    GridLaws size toCount size.checkedMulInt := by
  -- the count, as an exact quotient
  have hquot : ∀ {p : FixedI64 D} {n : Int64}, toCount p = some n →
      n.toInt = p.raw.toInt.tdiv size.raw.toInt := by
    intro p n h
    obtain ⟨m, hm, hval⟩ := hcount p
    rw [hm, Option.some.injEq] at h
    rw [← h, hval]
  refine ⟨?_, ?_, ?_, ?_, ?_⟩
  · intro n p h
    obtain ⟨m, hm, hval⟩ := hcount p
    rw [checkedMulInt_eq_some.mp h, Int.mul_tdiv_cancel_left _ hpos.ne', Int64.toInt_inj] at hval
    rw [hm, hval]
  · intro p
    obtain ⟨n, hn, hval⟩ := hcount p
    refine ⟨n, hn, ?_⟩
    have hne : size.raw ≠ 0 := by
      rw [Ne, ← I64.toInt_eq_zero]
      exact hpos.ne'
    rw [I64.div?, if_neg hne, I64.checked_eq_some]
    exact hval
  · intro p n h
    obtain ⟨hmin, hmax, hnear⟩ := mul_tdiv_bounds hpos p.raw.toInt
    have hfits : I64.Fits (size.raw.toInt * p.raw.toInt.tdiv size.raw.toInt) := by
      obtain ⟨hlo, hhi⟩ := I64.fits_toInt p.raw
      constructor <;> omega
    refine ⟨⟨Int64.ofInt (size.raw.toInt * n.toInt)⟩, ?_, ?_⟩
    · rw [checkedMulInt_eq_some, hquot h]
      exact I64.toInt_ofInt hfits
    · rw [hquot h]
      dsimp only
      rw [I64.toInt_ofInt hfits]
      exact ⟨hmin, hmax, hnear⟩
  · intro p q m n hle hm hn
    rw [Int64.le_iff_toInt_le, hquot hm, hquot hn]
    exact Int.tdiv_le_tdiv hpos (Int64.le_iff_toInt_le.mp hle)
  · intro p n h
    rw [checkedMulInt_eq_some, hquot h]
    constructor
    · intro hp
      exact ⟨_, hp⟩
    · intro hdvd
      exact (Int.mul_tdiv_cancel' hdvd).symm

end FixedI64

namespace InstrumentMeta

theorem ticks_gridLaws (m : InstrumentMeta D) :
    GridLaws m.tickSize m.priceToTicks m.ticksToPrice :=
  FixedI64.gridLaws m.tickSize_pos m.priceToTicks_eq

theorem lots_gridLaws (m : InstrumentMeta D) : GridLaws m.lotSize m.qtyToLots m.lotsToQty :=
  FixedI64.gridLaws m.lotSize_pos m.qtyToLots_eq

/-- `new` stores the sizes it is given. -/
theorem sizes_of_new {tickSize lotSize : FixedI64 D} {m : InstrumentMeta D}
    (h : new tickSize lotSize = .ok m) : m.tickSize = tickSize ∧ m.lotSize = lotSize := by
  simp only [new] at h
  split at h
  · split at h
    · cases h
      exact ⟨rfl, rfl⟩
    · cases h
  · cases h

end InstrumentMeta

/-! ### Texts -/

namespace FixedI64

/-- What `Display` writes is ASCII. -/
theorem display_ascii (x : FixedI64 D) : ∀ b ∈ x.display, b.toNat < 128 := by
  have hdigit : ∀ {b : UInt8}, Decimal.IsDigit b → b.toNat < 128 := by
    intro b hb
    have hle : b.toNat ≤ 57 := hb.2
    omega
  have hwhole : ∀ n b, b ∈ Decimal.render n → b.toNat < 128 := fun n b hb =>
    hdigit (Decimal.isDigit_render n b hb)
  have hfrac : ∀ d n b, b ∈ Decimal.renderPadded d n → b.toNat < 128 := fun d n b hb =>
    hdigit (Decimal.isDigit_renderPadded d n b hb)
  intro b hb
  simp only [display, displayI64] at hb
  split at hb
  · split at hb
    · rcases List.mem_cons.mp hb with rfl | hb
      · decide
      · exact hwhole _ b hb
    · exact hwhole _ b hb
  · have hunsigned : ∀ {w d n}, b ∈ Decimal.render w ++ 46 :: Decimal.renderPadded d n →
        b.toNat < 128 := by
      intro w d n hb
      rcases List.mem_append.mp hb with hb | hb
      · exact hwhole _ b hb
      · rcases List.mem_cons.mp hb with rfl | hb
        · decide
        · exact hfrac _ _ b hb
    split at hb
    · rcases List.mem_cons.mp hb with rfl | hb
      · decide
      · exact hunsigned hb
    · exact hunsigned hb

/-- The text `Display` writes. -/
def displayText (x : FixedI64 D) : String :=
  String.ofList (x.display.map fun b => Char.ofNat b.toNat)

theorem toUTF8_displayText (x : FixedI64 D) : x.displayText.toUTF8.data.toList = x.display := by
  rw [← TextSearch.bytes_toList, displayText, String.toList_ofList,
    TextSearch.bytes_map_ofNat x.display_ascii]

end FixedI64

/-- Texts of any price and quantity are read as their counts. -/
theorem parsePriceQty_displayText (hD : D ≤ 18) (m : InstrumentMeta D) {price qty : FixedI64 D}
    {t : Ticks} {l : Lots} (ht : m.priceToTicks price = some t) (hl : m.qtyToLots qty = some l) :
    PolymarketMarketDecoder.parsePriceQty price.displayText qty.displayText m = some (t, l) := by
  simp only [PolymarketMarketDecoder.parsePriceQty]
  rw [FixedI64.toUTF8_displayText, FixedI64.toUTF8_displayText, FixedI64.parse_display hD,
    FixedI64.parse_display hD]
  simp [Except.toOption, ht, hl]

/-- **Ticks and lots survive the way through prices, quantities and texts.** Both grids obey
the laws of a grid, and the texts of a price and a quantity on them are parsed back to the
ticks and lots they were made of. -/
theorem grid_round_trip (hD : D ≤ 18) {tickSize lotSize : FixedI64 D} {m : InstrumentMeta D}
    (hnew : InstrumentMeta.new tickSize lotSize = .ok m) :
    GridLaws tickSize m.priceToTicks m.ticksToPrice ∧
    GridLaws lotSize m.qtyToLots m.lotsToQty ∧
    ∀ {t : Ticks} {l : Lots} {price qty : FixedI64 D}, m.ticksToPrice t = some price →
      m.lotsToQty l = some qty →
      PolymarketMarketDecoder.parsePriceQty price.displayText qty.displayText m = some (t, l) := by
  obtain ⟨rfl, rfl⟩ := InstrumentMeta.sizes_of_new hnew
  refine ⟨m.ticks_gridLaws, m.lots_gridLaws, ?_⟩
  intro t l price qty hprice hqty
  exact parsePriceQty_displayText hD m (m.ticks_gridLaws.count_of_point hprice)
    (m.lots_gridLaws.count_of_point hqty)

/-- Ticks of a cent and lots of one: `-0.07` is `-7` ticks, and `-0.079999` truncates to it. -/
theorem grid_round_trip_cents :
    ∃ m, InstrumentMeta.new (⟨10000⟩ : FixedI64 6) ⟨1000000⟩ = .ok m ∧
      m.ticksToPrice (-7) = some ⟨-70000⟩ ∧ m.lotsToQty 3 = some ⟨3000000⟩ ∧
      m.priceToTicks ⟨-79999⟩ = some (-7) ∧
      m.priceToTicks ⟨Int64.minValue⟩ = some (-922337203685477) ∧
      PolymarketMarketDecoder.parsePriceQty (FixedI64.displayText (D := 6) ⟨-70000⟩)
        (FixedI64.displayText (D := 6) ⟨3000000⟩) m = some (-7, 3) := by
  let m : InstrumentMeta 6 := ⟨⟨10000⟩, ⟨1000000⟩, by decide, by decide⟩
  have hnew : InstrumentMeta.new (⟨10000⟩ : FixedI64 6) ⟨1000000⟩ = .ok m := rfl
  refine ⟨m, hnew, by decide, by decide, by decide, by decide, ?_⟩
  exact (grid_round_trip (by decide) hnew).2.2 (by decide) (by decide)

end Mantis
