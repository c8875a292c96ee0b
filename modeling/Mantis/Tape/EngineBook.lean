import Mantis.MarketState.ArrayBook
import Mantis.Tape.Capture
import Mathlib.Data.Finset.Max
import Mathlib.Data.Fintype.Basic

/-!
# The books of the engine thread

For every share the engine thread keeps two sides, each with one size per thousandth and the
best price as of the last scan (`engine_book.nim`). A write only sets a flag, and the next
question scans again. A side that nothing has happened to is not flagged and has best price
zero, where no size is: `EngineBookSide.UpToDate` is what holds throughout.

Sizes are doubles on bits, and the operations on them a parameter; all a book relies on is
that the thousandths are ordered as their numbers (`EngineOps.Ordered`).
-/

namespace Mantis

namespace Tape

open FloatOps (thousand)

/-- The floating-point operations of the engine thread. -/
structure EngineOps extends FloatOps where
  le : Float64 → Float64 → Bool
  eq : Float64 → Float64 → Bool
  abs : Float64 → Float64
  ofInt : Int → Float64

namespace EngineOps

/-- The price of a level. -/
def price (ops : EngineOps) (p : Nat) : Float64 := ops.div (ops.ofInt p) thousand

/-- Level prices are ordered like the levels, and the first is zero. -/
structure Ordered (ops : EngineOps) : Prop where
  price_zero : ops.price 0 = 0
  lt_price : ∀ p q : Fin 1001, ops.lt (ops.price p) (ops.price q) = decide (p < q)
  eq_price : ∀ p q : Fin 1001, ops.eq (ops.price p) (ops.price q) = decide (p = q)

theorem Ordered.price_pos {ops : EngineOps} (h : ops.Ordered) (p : Fin 1001) :
    ops.lt 0 (ops.price p) = decide (0 < p) := by
  have hlt := h.lt_price 0 p
  rwa [show ((0 : Fin 1001) : Nat) = 0 from rfl, h.price_zero] at hlt

theorem Ordered.not_pos_zero {ops : EngineOps} (h : ops.Ordered) : ops.lt 0 0 = false := by
  have hlt := h.price_pos 0
  rwa [show ((0 : Fin 1001) : Nat) = 0 from rfl, h.price_zero] at hlt

end EngineOps

/-! ### One side -/

abbrev PriceMilli := Int16

structure EngineBookSide where
  levels : Vector Float64 1001
  bestPrice : PriceMilli
  dirty : Bool
  best_le : bestPrice.toInt ≤ 1000

/-- A side is zero before the first event. -/
def initEngineBookSide : EngineBookSide := ⟨Vector.replicate 1001 0, 0, false, by decide⟩

namespace EngineBookSide

def clearSide (_ : EngineBookSide) : EngineBookSide :=
  ⟨Vector.replicate 1001 0, -1, true, by decide⟩

/-- A price outside the levels is ignored. -/
def applyLevel (side : EngineBookSide) (pm : PriceMilli) (size : Float64) : EngineBookSide :=
  if h : pm.toInt < 0 ∨ 1000 < pm.toInt then side
  else { side with levels := side.levels.set pm.toInt.toNat size (by omega), dirty := true }

/-- The levels from the best on. -/
def scanOrder (isBid : Bool) : List (Fin 1001) :=
  if isBid then (List.finRange 1001).reverse else List.finRange 1001

theorem toInt_level (p : Fin 1001) : (Int16.ofNat p).toInt = p.val := by
  have hlt := p.isLt
  exact Int16.toInt_ofNat_of_lt (by omega)

def recalcBest (ops : EngineOps) (side : EngineBookSide) (isBid : Bool) : EngineBookSide :=
  match (scanOrder isBid).find? fun p => ops.lt 0 (side.levels.get p) with
  | some p =>
      { side with
        bestPrice := Int16.ofNat p
        dirty := false
        best_le := by rw [toInt_level]; omega }
  | none => { side with bestPrice := -1, dirty := false, best_le := by decide }

/-- The price of the best level as of the last scan, and its size. -/
def scanned (ops : EngineOps) (side : EngineBookSide) : Float64 × Float64 :=
  if side.bestPrice.toInt < 0 then (0, 0)
  else
    (ops.price side.bestPrice.toInt.toNat,
      side.levels.get ⟨side.bestPrice.toInt.toNat, by have := side.best_le; omega⟩)

/-- The best price and its size, zero and zero if there is none. -/
def bestPriceF (ops : EngineOps) (side : EngineBookSide) (isBid : Bool) :
    EngineBookSide × Float64 × Float64 :=
  let side := if side.dirty then side.recalcBest ops isBid else side
  (side, side.scanned ops)

end EngineBookSide

/-! ### What a side is for -/

/-- A size at every level. -/
abbrev Sizes := Fin 1001 → Float64

namespace Sizes

variable (ops : EngineOps)

/-- The levels with a positive size. -/
def quoted (sizes : Sizes) : Finset (Fin 1001) := {p | ops.lt 0 (sizes p)}

/-- The highest level of the bids, the lowest of the asks. -/
def best? (sizes : Sizes) (isBid : Bool) : Option (Fin 1001) :=
  if h : (sizes.quoted ops).Nonempty then
    some (if isBid then (sizes.quoted ops).max' h else (sizes.quoted ops).min' h)
  else none

/-- Its price and size. -/
def top (sizes : Sizes) (isBid : Bool) : Float64 × Float64 :=
  (sizes.best? ops isBid).elim (0, 0) fun p => (ops.price p, sizes p)

variable {ops}

theorem top_of_some {sizes : Sizes} {isBid : Bool} {p : Fin 1001}
    (h : sizes.best? ops isBid = some p) : sizes.top ops isBid = (ops.price p, sizes p) :=
  congrArg (Option.elim · (0, 0) fun p : Fin 1001 => (ops.price p, sizes p)) h

theorem best?_mem {sizes : Sizes} {isBid : Bool} {p : Fin 1001}
    (h : sizes.best? ops isBid = some p) : p ∈ sizes.quoted ops := by
  rw [best?] at h
  split at h
  · obtain rfl := Option.some.inj h
    split
    · exact Finset.max'_mem ..
    · exact Finset.min'_mem ..
  · cases h

theorem top_of_none {sizes : Sizes} {isBid : Bool} (h : sizes.best? ops isBid = none) :
    sizes.top ops isBid = (0, 0) :=
  congrArg (Option.elim · (0, 0) fun p : Fin 1001 => (ops.price p, sizes p)) h

end Sizes

/-! ### The cache of a side -/

namespace EngineBookSide

variable {ops : EngineOps} {isBid : Bool}

/-- The sizes a side stands for. -/
def sizes (side : EngineBookSide) : Sizes := side.levels.get

/-- The best price is that of the sizes. -/
structure Scanned (ops : EngineOps) (isBid : Bool) (side : EngineBookSide) : Prop where
  level : ∀ p, side.sizes.best? ops isBid = some p → side.bestPrice.toInt = p.val
  empty : side.sizes.best? ops isBid = none → side.bestPrice.toInt < 0

/-- A best price that is not flagged is that of the sizes, or the side is untouched. -/
def UpToDate (ops : EngineOps) (isBid : Bool) (side : EngineBookSide) : Prop :=
  side.dirty = false →
    side.Scanned ops isBid ∨ side.bestPrice = 0 ∧ ∀ p, side.sizes p = 0

/-- The first hit from above is the greatest. -/
theorem find?_reverse_finRange {n : Nat} (q : Fin n → Bool) :
    (List.finRange n).reverse.find? q =
      if h : ({p | q p} : Finset (Fin n)).Nonempty then some (Finset.max' _ h) else none := by
  cases hfind : (List.finRange n).reverse.find? q with
  | none =>
      rw [dif_neg]
      rintro ⟨p, hp⟩
      exact List.find?_eq_none.mp hfind p (by simp) (by simpa using hp)
  | some p =>
      have hsorted : (List.finRange n).reverse.Pairwise (· > ·) :=
        List.pairwise_reverse.mpr (List.pairwise_lt_finRange n)
      obtain ⟨hq, hbest⟩ := ArrayBook.find?_sorted hsorted (fun _ _ => lt_asymm) hfind
      have hp : p ∈ ({p | q p} : Finset (Fin n)) := by simpa using hq
      rw [dif_pos ⟨p, hp⟩]
      refine congrArg some (le_antisymm (Finset.le_max' _ p hp) ?_)
      refine Finset.max'_le _ _ _ fun p' hp' => not_lt.mp fun hlt => ?_
      simp [hbest p' (by simp) hlt] at hp'

/-- The first hit from below is the least. -/
theorem find?_finRange {n : Nat} (q : Fin n → Bool) :
    (List.finRange n).find? q =
      if h : ({p | q p} : Finset (Fin n)).Nonempty then some (Finset.min' _ h) else none := by
  cases hfind : (List.finRange n).find? q with
  | none =>
      rw [dif_neg]
      rintro ⟨p, hp⟩
      exact List.find?_eq_none.mp hfind p (by simp) (by simpa using hp)
  | some p =>
      obtain ⟨hq, hbest⟩ :=
        ArrayBook.find?_sorted (List.pairwise_lt_finRange n) (fun _ _ => lt_asymm) hfind
      have hp : p ∈ ({p | q p} : Finset (Fin n)) := by simpa using hq
      rw [dif_pos ⟨p, hp⟩]
      refine congrArg some (le_antisymm ?_ (Finset.min'_le _ p hp))
      refine Finset.le_min' _ _ _ fun p' hp' => not_lt.mp fun hlt => ?_
      simp [hbest p' (by simp) hlt] at hp'

theorem countP_finRange {n : Nat} (q : Fin n → Bool) :
    (List.finRange n).countP q = ({p | q p} : Finset (Fin n)).card := by
  rw [← List.toFinset_finRange, List.Nodup.card_eq_countP (List.nodup_finRange n)]
  simp

/-- The scan finds the best level. -/
theorem find?_scanOrder (sizes : Sizes) :
    (scanOrder isBid).find? (fun p => ops.lt 0 (sizes p)) = sizes.best? ops isBid := by
  cases isBid with
  | true => simp only [scanOrder, if_true, find?_reverse_finRange, Sizes.best?, Sizes.quoted]
  | false =>
      simp only [scanOrder, Bool.false_eq_true, if_false, find?_finRange, Sizes.best?, Sizes.quoted]

theorem sizes_recalcBest (side : EngineBookSide) :
    (side.recalcBest ops isBid).sizes = side.sizes := by
  simp only [recalcBest]
  split <;> rfl

/-- A scan leaves the side up to date. -/
theorem recalcBest_scanned (side : EngineBookSide) :
    (side.recalcBest ops isBid).Scanned ops isBid ∧
      (side.recalcBest ops isBid).dirty = false := by
  have hfind : (scanOrder isBid).find? (fun p => ops.lt 0 (side.levels.get p)) =
      side.sizes.best? ops isBid := find?_scanOrder side.sizes
  refine ⟨⟨?_, ?_⟩, ?_⟩
  · intro p hp
    rw [sizes_recalcBest, ← hfind] at hp
    rw [recalcBest, hp]
    exact toInt_level p
  · intro hnone
    rw [sizes_recalcBest, ← hfind] at hnone
    rw [recalcBest, hnone]
    exact (show (-1 : Int16).toInt < 0 by decide)
  · rw [recalcBest]
    cases (scanOrder isBid).find? fun p => ops.lt 0 (side.levels.get p) <;> rfl

theorem init_sizes (p : Fin 1001) : initEngineBookSide.sizes p = 0 := Vector.getElem_replicate ..

theorem init_upToDate : initEngineBookSide.UpToDate ops isBid :=
  fun _ => Or.inr ⟨rfl, init_sizes⟩

theorem clearSide_sizes (side : EngineBookSide) (p : Fin 1001) : side.clearSide.sizes p = 0 :=
  Vector.getElem_replicate ..

theorem clearSide_upToDate (side : EngineBookSide) : side.clearSide.UpToDate ops isBid :=
  fun h => by cases h

/-- A write to a level; one outside the levels changes nothing. -/
theorem applyLevel_sizes (side : EngineBookSide) (pm : PriceMilli) (size : Float64)
    (p : Fin 1001) :
    (side.applyLevel pm size).sizes p = if pm.toInt = p.val then size else side.sizes p := by
  have hlt := p.isLt
  simp only [applyLevel]
  split
  · next hout => rw [if_neg (by omega)]
  · next hin =>
      have hset : (side.levels.set pm.toInt.toNat size (by omega)).get p =
          if pm.toInt.toNat = p.val then size else side.levels.get p := Vector.getElem_set _ _
      refine hset.trans (if_congr ?_ rfl rfl)
      omega

theorem applyLevel_upToDate {side : EngineBookSide} (h : side.UpToDate ops isBid)
    (pm : PriceMilli) (size : Float64) : (side.applyLevel pm size).UpToDate ops isBid := by
  simp only [applyLevel]
  split
  · exact h
  · exact fun hdirty => by cases hdirty

theorem scanned_of_level {side : EngineBookSide} {p : Fin 1001}
    (h : side.bestPrice.toInt = p.val) : side.scanned ops = (ops.price p, side.sizes p) := by
  have hnat : side.bestPrice.toInt.toNat = p.val := by omega
  rw [scanned, if_neg (by omega)]
  simp only [hnat, sizes]

/-- The last scan answers for the sizes. -/
theorem scanned_eq_top (hops : ops.Ordered) {side : EngineBookSide}
    (h : side.UpToDate ops isBid) (hclean : side.dirty = false) :
    side.scanned ops = side.sizes.top ops isBid := by
  rcases h hclean with hscanned | ⟨hzero, hempty⟩
  · cases hlevel : side.sizes.best? ops isBid with
    | none => exact (if_pos (hscanned.empty hlevel)).trans (Sizes.top_of_none hlevel).symm
    | some p =>
        exact (scanned_of_level (hscanned.level p hlevel)).trans (Sizes.top_of_some hlevel).symm
  · -- nothing has happened yet: best price zero, at which no size is
    have hnone : side.sizes.best? ops isBid = none := by
      apply dif_neg
      rintro ⟨p, hp⟩
      simp [Sizes.quoted, hempty, hops.not_pos_zero] at hp
    have hfirst : side.bestPrice.toInt = ((⟨0, by decide⟩ : Fin 1001) : Nat) := by
      rw [hzero]
      rfl
    refine (scanned_of_level hfirst).trans (Eq.trans ?_ (Sizes.top_of_none hnone).symm)
    exact Prod.ext hops.price_zero (hempty _)

/-- **One question.** The answer is the top of the sizes, and they stay what they were. -/
theorem bestPriceF_spec (hops : ops.Ordered) {side : EngineBookSide}
    (h : side.UpToDate ops isBid) :
    (side.bestPriceF ops isBid).2 = side.sizes.top ops isBid ∧
      (side.bestPriceF ops isBid).1.sizes = side.sizes ∧
      (side.bestPriceF ops isBid).1.UpToDate ops isBid := by
  simp only [bestPriceF]
  cases hdirty : side.dirty with
  | false => exact ⟨scanned_eq_top hops h hdirty, rfl, h⟩
  | true =>
      have hscan : (side.recalcBest ops isBid).Scanned ops isBid ∧
          (side.recalcBest ops isBid).dirty = false := recalcBest_scanned side
      obtain ⟨hscanned, hclean⟩ := hscan
      have hcached : (side.recalcBest ops isBid).UpToDate ops isBid := fun _ => Or.inl hscanned
      have hsizes : (side.recalcBest ops isBid).sizes = side.sizes := sizes_recalcBest side
      refine ⟨?_, hsizes, hcached⟩
      rw [← hsizes]
      exact scanned_eq_top hops hcached hclean

end EngineBookSide

-- From here on a side is known by `bestPriceF_spec` alone.
attribute [irreducible] EngineBookSide.bestPriceF Sizes.top

/-! ### The book of a share -/

namespace EngineOps

variable (ops : EngineOps)

def two : Float64 := 0x4000000000000000

def midOf (bp ap : Float64) : Float64 :=
  if ops.lt 0 bp && ops.lt 0 ap then ops.div (ops.add bp ap) two else 0

def spreadOf (bp ap : Float64) : Float64 :=
  if ops.lt 0 bp && ops.lt 0 ap then ops.sub ap bp else 0

def weightedMidOf (bid ask : Float64 × Float64) : Float64 :=
  if ops.lt 0 bid.1 && ops.lt 0 ask.1 && ops.lt 0 (ops.add bid.2 ask.2) then
    ops.div (ops.add (ops.mul bid.1 ask.2) (ops.mul ask.1 bid.2)) (ops.add bid.2 ask.2)
  else 0

end EngineOps

/-- What a telemetry event shows of a book. -/
structure View where
  bidPrice : Float64
  bidSize : Float64
  askPrice : Float64
  askSize : Float64
  spread : Float64
  weightedMid : Float64
  bidLevels : Int32
  askLevels : Int32
  deriving DecidableEq

structure EngineBook where
  bids : EngineBookSide
  asks : EngineBookSide

def initEngineBook : EngineBook := ⟨initEngineBookSide, initEngineBookSide⟩

namespace EngineBook

variable (ops : EngineOps)

/-- `bestPriceF` of both sides. -/
def bestPrices (b : EngineBook) : EngineBook × (Float64 × Float64) × (Float64 × Float64) :=
  let bids := b.bids.bestPriceF ops true
  let asks := b.asks.bestPriceF ops false
  (⟨bids.1, asks.1⟩, bids.2, asks.2)

def weightedMid (b : EngineBook) : EngineBook × Float64 :=
  let bests := b.bestPrices ops
  (bests.1, ops.weightedMidOf bests.2.1 bests.2.2)

def levelCount (side : EngineBookSide) : Nat :=
  (List.finRange 1001).countP fun p => ops.lt 0 (side.levels.get p)

/-- The branch of `emitTelemetry` for a share. -/
def view (b : EngineBook) : EngineBook × View :=
  let bests := b.bestPrices ops
  let mid := bests.1.weightedMid ops
  (mid.1,
    { bidPrice := bests.2.1.1
      bidSize := bests.2.1.2
      askPrice := bests.2.2.1
      askSize := bests.2.2.2
      spread := ops.spreadOf bests.2.1.1 bests.2.2.1
      weightedMid := mid.2
      bidLevels := Int32.ofNat (levelCount ops mid.1.bids)
      askLevels := Int32.ofNat (levelCount ops mid.1.asks) })

/-- The sizes of the two sides are these. -/
structure Shows (b : EngineBook) (bids asks : Sizes) : Prop where
  bids : b.bids.sizes = bids
  asks : b.asks.sizes = asks
  bidsUpToDate : b.bids.UpToDate ops true
  asksUpToDate : b.asks.UpToDate ops false

variable {ops} {b : EngineBook} {bids asks : Sizes}

theorem shows_init : initEngineBook.Shows ops (fun _ => 0) fun _ => 0 :=
  ⟨funext EngineBookSide.init_sizes, funext EngineBookSide.init_sizes,
    EngineBookSide.init_upToDate, EngineBookSide.init_upToDate⟩

theorem Shows.bestPrices (hops : ops.Ordered) (h : b.Shows ops bids asks) :
    (b.bestPrices ops).2 = (bids.top ops true, asks.top ops false) ∧
      (b.bestPrices ops).1.Shows ops bids asks := by
  obtain ⟨hbid, hbids, hbidsCached⟩ := EngineBookSide.bestPriceF_spec hops h.bidsUpToDate
  obtain ⟨hask, hasks, hasksCached⟩ := EngineBookSide.bestPriceF_spec hops h.asksUpToDate
  have hbidTop : b.bids.sizes.top ops true = bids.top ops true := by rw [h.bids]
  have haskTop : b.asks.sizes.top ops false = asks.top ops false := by rw [h.asks]
  exact ⟨Prod.ext (hbid.trans hbidTop) (hask.trans haskTop), hbids.trans h.bids,
    hasks.trans h.asks, hbidsCached, hasksCached⟩

theorem Shows.weightedMid (hops : ops.Ordered) (h : b.Shows ops bids asks) :
    (b.weightedMid ops).2 = ops.weightedMidOf (bids.top ops true) (asks.top ops false) ∧
      (b.weightedMid ops).1.Shows ops bids asks := by
  obtain ⟨hanswer, hshows⟩ := h.bestPrices hops
  have hmid : (b.weightedMid ops).2 =
      ops.weightedMidOf (b.bestPrices ops).2.1 (b.bestPrices ops).2.2 := rfl
  rw [hmid, hanswer]
  exact ⟨rfl, hshows⟩

theorem levelCount_eq (side : EngineBookSide) :
    levelCount ops side = (side.sizes.quoted ops).card :=
  EngineBookSide.countP_finRange fun p => ops.lt 0 (side.levels.get p)

/-- What is shown of two sides, from their sizes alone. -/
def viewOf (ops : EngineOps) (bids asks : Sizes) : View where
  bidPrice := (bids.top ops true).1
  bidSize := (bids.top ops true).2
  askPrice := (asks.top ops false).1
  askSize := (asks.top ops false).2
  spread := ops.spreadOf (bids.top ops true).1 (asks.top ops false).1
  weightedMid := ops.weightedMidOf (bids.top ops true) (asks.top ops false)
  bidLevels := Int32.ofNat (bids.quoted ops).card
  askLevels := Int32.ofNat (asks.quoted ops).card

theorem Shows.view (hops : ops.Ordered) (h : b.Shows ops bids asks) :
    (b.view ops).2 = viewOf ops bids asks ∧ (b.view ops).1.Shows ops bids asks := by
  obtain ⟨htops, hbests⟩ := h.bestPrices hops
  obtain ⟨hmid, hshows⟩ := hbests.weightedMid hops
  refine ⟨?_, hshows⟩
  simp only [EngineBook.view, viewOf, htops, hmid, levelCount_eq, hshows.bids, hshows.asks]

/-- `clearSide` of both sides. -/
def clear (b : EngineBook) : EngineBook := ⟨b.bids.clearSide, b.asks.clearSide⟩

def applyLevel (b : EngineBook) (isBid : Bool) (pm : PriceMilli) (size : Float64) : EngineBook :=
  if isBid then { b with bids := b.bids.applyLevel pm size }
  else { b with asks := b.asks.applyLevel pm size }

/-- A size at one price. -/
def write (sizes : Sizes) (pm : PriceMilli) (size : Float64) : Sizes := fun p =>
  if pm.toInt = p.val then size else sizes p

theorem Shows.clear (_ : b.Shows ops bids asks) : b.clear.Shows ops (fun _ => 0) fun _ => 0 :=
  ⟨funext b.bids.clearSide_sizes, funext b.asks.clearSide_sizes,
    b.bids.clearSide_upToDate, b.asks.clearSide_upToDate⟩

theorem Shows.applyLevel (h : b.Shows ops bids asks) (isBid : Bool) (pm : PriceMilli)
    (size : Float64) :
    (b.applyLevel isBid pm size).Shows ops (if isBid then write bids pm size else bids)
      (if isBid then asks else write asks pm size) := by
  obtain ⟨rfl, rfl, hbids, hasks⟩ := h
  cases isBid with
  | true =>
      exact ⟨funext (b.bids.applyLevel_sizes pm size), rfl,
        EngineBookSide.applyLevel_upToDate hbids pm size, hasks⟩
  | false =>
      exact ⟨rfl, funext (b.asks.applyLevel_sizes pm size), hbids,
        EngineBookSide.applyLevel_upToDate hasks pm size⟩

end EngineBook

/-! ### The book of a reference -/

structure BnBookLevel where
  price : Float64
  qty : Float64
  deriving DecidableEq

/-- The levels in use are the first `bidCount` and `askCount`. -/
structure BnBook where
  bids : Vector BnBookLevel 20
  asks : Vector BnBookLevel 20
  bidCount : Nat
  askCount : Nat
  bidCount_le : bidCount ≤ 20
  askCount_le : askCount ≤ 20

def initBnBook : BnBook :=
  ⟨Vector.replicate 20 ⟨0, 0⟩, Vector.replicate 20 ⟨0, 0⟩, 0, 0, by decide, by decide⟩

/-- The first of the levels. -/
def firstOf : List BnBookLevel → Float64 × Float64
  | [] => (0, 0)
  | level :: _ => (level.price, level.qty)

namespace BnBook

def bnBestBid (b : BnBook) : Float64 × Float64 :=
  if 0 < b.bidCount then (b.bids[0].price, b.bids[0].qty) else (0, 0)

def bnBestAsk (b : BnBook) : Float64 × Float64 :=
  if 0 < b.askCount then (b.asks[0].price, b.asks[0].qty) else (0, 0)

def clear (b : BnBook) : BnBook :=
  { b with bidCount := 0, askCount := 0, bidCount_le := by decide, askCount_le := by decide }

/-- A level more on one side; the twenty-first is dropped. -/
def append (b : BnBook) (isBid : Bool) (level : BnBookLevel) : BnBook :=
  if isBid then
    if h : b.bidCount < 20 then
      { b with bids := b.bids.set b.bidCount level h, bidCount := b.bidCount + 1, bidCount_le := h }
    else b
  else
    if h : b.askCount < 20 then
      { b with asks := b.asks.set b.askCount level h, askCount := b.askCount + 1, askCount_le := h }
    else b

/-- The levels in use are these. -/
structure Shows (b : BnBook) (bids asks : List BnBookLevel) : Prop where
  bids : b.bids.toList.take b.bidCount = bids
  asks : b.asks.toList.take b.askCount = asks

variable {ops : EngineOps} {b : BnBook} {bids asks : List BnBookLevel}

theorem shows_init : initBnBook.Shows [] [] := ⟨rfl, rfl⟩

theorem Shows.clear (_ : b.Shows bids asks) : b.clear.Shows [] [] := ⟨rfl, rfl⟩

/-- One level more in a list of at most twenty, held by a vector. -/
theorem take_append {levels : Vector BnBookLevel 20} {count : Nat} (level : BnBookLevel)
    (h : count < 20) : (levels.set count level h).toList.take (count + 1) =
      (levels.toList.take count ++ [level]).take 20 := by
  have hlen : count < levels.toList.length := by rwa [Vector.length_toList]
  rw [Vector.toList_set, List.take_add_one, List.take_set_of_le (Nat.le_refl _),
    List.getElem?_set_self hlen]
  refine (List.take_of_length_le ?_).symm
  rw [List.length_append, List.length_take]
  show min count _ + 1 ≤ 20
  omega

theorem take_full {levels : Vector BnBookLevel 20} {count : Nat} (level : BnBookLevel)
    (hle : count ≤ 20) (h : ¬ count < 20) :
    levels.toList.take count = (levels.toList.take count ++ [level]).take 20 := by
  obtain rfl : count = 20 := by omega
  rw [List.take_append_of_le_length, List.take_take, min_self]
  rw [List.length_take, Vector.length_toList, min_self]

theorem Shows.append (h : b.Shows bids asks) (isBid : Bool) (level : BnBookLevel) :
    (b.append isBid level).Shows (if isBid then (bids ++ [level]).take 20 else bids)
      (if isBid then asks else (asks ++ [level]).take 20) := by
  obtain ⟨rfl, rfl⟩ := h
  cases isBid with
  | true =>
      simp only [append, if_true]
      split
      · next hroom => exact ⟨take_append level hroom, rfl⟩
      · next hfull => exact ⟨take_full level b.bidCount_le hfull, rfl⟩
  | false =>
      simp only [append, Bool.false_eq_true, if_false]
      split
      · next hroom => exact ⟨rfl, take_append level hroom⟩
      · next hfull => exact ⟨rfl, take_full level b.askCount_le hfull⟩

/-- The branch of `emitTelemetry` for a reference: the middle stands for the weighted one. -/
def view (ops : EngineOps) (b : BnBook) : View where
  bidPrice := b.bnBestBid.1
  bidSize := b.bnBestBid.2
  askPrice := b.bnBestAsk.1
  askSize := b.bnBestAsk.2
  spread := ops.spreadOf b.bnBestBid.1 b.bnBestAsk.1
  weightedMid := ops.midOf b.bnBestBid.1 b.bnBestAsk.1
  bidLevels := Int32.ofNat b.bidCount
  askLevels := Int32.ofNat b.askCount

/-- The same from the levels in use. -/
def viewOf (ops : EngineOps) (bids asks : List BnBookLevel) : View where
  bidPrice := (firstOf bids).1
  bidSize := (firstOf bids).2
  askPrice := (firstOf asks).1
  askSize := (firstOf asks).2
  spread := ops.spreadOf (firstOf bids).1 (firstOf asks).1
  weightedMid := ops.midOf (firstOf bids).1 (firstOf asks).1
  bidLevels := Int32.ofNat bids.length
  askLevels := Int32.ofNat asks.length

theorem firstOf_take (levels : Vector BnBookLevel 20) (count : Nat) :
    (if 0 < count then (levels[0].price, levels[0].qty) else (0, 0)) =
      firstOf (levels.toList.take count) := by
  split
  · next hsome =>
      have hhead : (levels.toList.take count).head? = some levels[0] := by
        rw [List.head?_take, if_neg (by omega), List.head?_eq_getElem?, Vector.getElem?_toList]
        exact Vector.getElem?_eq_getElem (by decide)
      cases hlevels : levels.toList.take count with
      | nil =>
          rw [hlevels] at hhead
          cases hhead
      | cons level rest =>
          rw [hlevels] at hhead
          obtain rfl : level = levels[0] := Option.some.inj hhead
          rfl
  · next hnone =>
      obtain rfl : count = 0 := by omega
      rfl

theorem Shows.bests (h : b.Shows bids asks) :
    b.bnBestBid = firstOf bids ∧ b.bnBestAsk = firstOf asks := by
  obtain ⟨rfl, rfl⟩ := h
  exact ⟨firstOf_take b.bids b.bidCount, firstOf_take b.asks b.askCount⟩

theorem Shows.counts (h : b.Shows bids asks) :
    b.bidCount = bids.length ∧ b.askCount = asks.length := by
  have hbids := b.bidCount_le
  have hasks := b.askCount_le
  obtain ⟨rfl, rfl⟩ := h
  rw [List.length_take, List.length_take, Vector.length_toList, Vector.length_toList]
  omega

theorem Shows.view (h : b.Shows bids asks) : b.view ops = viewOf ops bids asks := by
  obtain ⟨hbid, hask⟩ := h.bests
  obtain ⟨hbids, hasks⟩ := h.counts
  simp only [BnBook.view, viewOf, hbid, hask, hbids, hasks]

end BnBook

end Tape

end Mantis
