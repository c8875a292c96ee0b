import Mantis.Events
import Mathlib.Data.List.FinRange

/-!
# Mantis.MarketState.ArrayBook

Order books (`crates/market-state/src/book`): the trait the engine is generic over,
and the fixed-size book indexed by tick offset.

`best_bid` and `best_ask` take `&mut self` because they fill a cache, so they return
the book they leave behind. `LawfulOrderBook` says that this is all they do to the
book: they never change what either of them answers.
-/

namespace Mantis

/-- The order book trait. -/
class OrderBook (B : Type) where
  default : B
  applyDelta : B → Ticks → Lots → Side → UpdateAction → B
  clearSide : B → Side → B
  clear : B → B
  bestBid : B → B × Option (Ticks × Lots)
  bestAsk : B → B × Option (Ticks × Lots)

namespace OrderBook

variable {B : Type} [OrderBook B]

/-- What `best_bid` answers. -/
def bid (b : B) : Option (Ticks × Lots) := (bestBid b).2

/-- What `best_ask` answers. -/
def ask (b : B) : Option (Ticks × Lots) := (bestAsk b).2

end OrderBook

/-- Queries do not change the answers to queries. -/
class LawfulOrderBook (B : Type) [OrderBook B] : Prop where
  bid_bestBid : ∀ b : B, OrderBook.bid (OrderBook.bestBid b).1 = OrderBook.bid b
  bid_bestAsk : ∀ b : B, OrderBook.bid (OrderBook.bestAsk b).1 = OrderBook.bid b
  ask_bestBid : ∀ b : B, OrderBook.ask (OrderBook.bestBid b).1 = OrderBook.ask b
  ask_bestAsk : ∀ b : B, OrderBook.ask (OrderBook.bestAsk b).1 = OrderBook.ask b

/-! ### The array book -/

namespace ArrayBook

variable {N : Nat}

/-- A cached level index: a `u16` within the array. -/
abbrev Idx (N : Nat) := { i : UInt16 // i.toNat < N }

/-- `i as u16`, which truncates. -/
def asU16 (i : Fin N) : Idx N :=
  ⟨UInt16.ofNat i, Nat.lt_of_le_of_lt (Nat.mod_le i.val _) i.isLt⟩

/-- The scan of `best_bid`, from the highest index downward. -/
def scanBid (levels : Vector Lots N) : Option (Fin N) :=
  (List.finRange N).reverse.find? fun i => decide (0 < levels.get i)

/-- The scan of `best_ask`, from the lowest index upward. -/
def scanAsk (levels : Vector Lots N) : Option (Fin N) :=
  (List.finRange N).find? fun i => decide (0 < levels.get i)

end ArrayBook

/-- Fixed-size order book: price levels indexed by tick offset. A side that is not dirty
has the result of its scan in the cache. -/
structure ArrayBook (N : Nat) where
  bids : Vector Lots N
  asks : Vector Lots N
  bestBidIdx : Option (ArrayBook.Idx N)
  bestAskIdx : Option (ArrayBook.Idx N)
  bidDirty : Bool
  askDirty : Bool
  bid_cached : bidDirty = false → bestBidIdx = (ArrayBook.scanBid bids).map ArrayBook.asU16
  ask_cached : askDirty = false → bestAskIdx = (ArrayBook.scanAsk asks).map ArrayBook.asU16
  deriving DecidableEq

namespace ArrayBook

variable {N : Nat}

/-- Both sides empty and dirty. -/
def default : ArrayBook N where
  bids := Vector.replicate N 0
  asks := Vector.replicate N 0
  bestBidIdx := none
  bestAskIdx := none
  bidDirty := true
  askDirty := true
  bid_cached := nofun
  ask_cached := nofun

/-- The level index of a price, if it is within the array. -/
def index? (N : Nat) (price : Ticks) : Option (Fin N) :=
  if h : 0 ≤ price.toInt ∧ price.toInt.toNat < N then some ⟨price.toInt.toNat, h.2⟩ else none

/-- Write one level. The action is ignored: the quantity is the state. -/
def applyDelta (b : ArrayBook N) (price : Ticks) (qty : Lots) (side : Side)
    (_action : UpdateAction) : ArrayBook N :=
  match index? N price with
  | none => b
  | some idx =>
      match side with
      | .bid =>
          { b with bids := b.bids.set idx qty idx.isLt, bidDirty := true, bid_cached := nofun }
      | .ask =>
          { b with asks := b.asks.set idx qty idx.isLt, askDirty := true, ask_cached := nofun }

def clearSide (b : ArrayBook N) (side : Side) : ArrayBook N :=
  match side with
  | .bid =>
      { b with
        bids := Vector.replicate N 0
        bestBidIdx := none
        bidDirty := true
        bid_cached := nofun }
  | .ask =>
      { b with
        asks := Vector.replicate N 0
        bestAskIdx := none
        askDirty := true
        ask_cached := nofun }

/-- Resets every field, whatever the book held. -/
def clear (_b : ArrayBook N) : ArrayBook N where
  bids := Vector.replicate N 0
  asks := Vector.replicate N 0
  bestBidIdx := none
  bestAskIdx := none
  bidDirty := true
  askDirty := true
  bid_cached := nofun
  ask_cached := nofun

/-- The price and quantity behind a cached index. -/
def levelAt (levels : Vector Lots N) (i : Idx N) : Ticks × Lots :=
  (Int64.ofNat i.val.toNat, levels.get ⟨i.val.toNat, i.property⟩)

/-- Best bid price and quantity, or `none` if there are no bids. -/
def bestBid (b : ArrayBook N) : ArrayBook N × Option (Ticks × Lots) :=
  if b.bidDirty then
    let b :=
      { b with
        bestBidIdx := (scanBid b.bids).map asU16
        bidDirty := false
        bid_cached := fun _ => rfl }
    (b, b.bestBidIdx.map (levelAt b.bids))
  else (b, b.bestBidIdx.map (levelAt b.bids))

/-- Best ask price and quantity, or `none` if there are no asks. -/
def bestAsk (b : ArrayBook N) : ArrayBook N × Option (Ticks × Lots) :=
  if b.askDirty then
    let b :=
      { b with
        bestAskIdx := (scanAsk b.asks).map asU16
        askDirty := false
        ask_cached := fun _ => rfl }
    (b, b.bestAskIdx.map (levelAt b.asks))
  else (b, b.bestAskIdx.map (levelAt b.asks))

instance : OrderBook (ArrayBook N) where
  default := ArrayBook.default
  applyDelta := ArrayBook.applyDelta
  clearSide := ArrayBook.clearSide
  clear := ArrayBook.clear
  bestBid := ArrayBook.bestBid
  bestAsk := ArrayBook.bestAsk

/-! ### Depth views -/

/-- `idx_to_ticks`: the price of a level index, if it fits in an `i64`. -/
def idxToTicks (idx : Nat) : Option Ticks := if idx < 2 ^ 63 then some (Int64.ofNat idx) else none

/-- The loop of `depth`: positive levels in the order visited go to the front of `buf`,
until it is full. -/
def depthLoop (levels : Vector Lots N) :
    List (Fin N) → List (Ticks × Lots) → Nat → List (Ticks × Lots) × Nat
  | [], buf, count => (buf, count)
  | i :: is, buf, count =>
      if buf.length ≤ count then (buf, count)
      else if 0 < levels.get i then
        match idxToTicks i with
        | none => depthLoop levels is buf count
        | some price => depthLoop levels is (buf.set count (price, levels.get i)) (count + 1)
      else depthLoop levels is buf count

/-- The top levels of one side, best first: the buffer afterwards and how many were
written. -/
def depth (b : ArrayBook N) (side : Side) (buf : List (Ticks × Lots)) :
    List (Ticks × Lots) × Nat :=
  match side with
  | .bid => depthLoop b.bids (List.finRange N).reverse buf 0
  | .ask => depthLoop b.asks (List.finRange N) buf 0

def levelCount (b : ArrayBook N) (side : Side) : Nat :=
  match side with
  | .bid => b.bids.countP fun q => decide (0 < q)
  | .ask => b.asks.countP fun q => decide (0 < q)

/-- The loop of `total_depth`. -/
def totalLoop (levels : Vector Lots N) (limit : Nat) : List (Fin N) → Lots → Nat → Lots
  | [], total, _ => total
  | i :: is, total, count =>
      if limit ≤ count then total
      else if 0 < levels.get i then totalLoop levels limit is (total + levels.get i) (count + 1)
      else totalLoop levels limit is total count

/-- The quantity on the best `levels` levels of one side. -/
def totalDepth (b : ArrayBook N) (side : Side) (levels : Nat) : Lots :=
  match side with
  | .bid => totalLoop b.bids levels (List.finRange N).reverse 0 0
  | .ask => totalLoop b.asks levels (List.finRange N) 0 0

/-! ### Queries only touch the cache -/

theorem bestBid_spec (b : ArrayBook N) :
    b.bestBid.1.bids = b.bids ∧ b.bestBid.1.asks = b.asks ∧
      b.bestBid.2 = (scanBid b.bids).map (fun i => levelAt b.bids (asU16 i)) := by
  unfold bestBid
  split
  · exact ⟨rfl, rfl, Option.map_map ..⟩
  · next h =>
      rw [b.bid_cached (by simpa using h)]
      exact ⟨rfl, rfl, Option.map_map ..⟩

theorem bestAsk_spec (b : ArrayBook N) :
    b.bestAsk.1.bids = b.bids ∧ b.bestAsk.1.asks = b.asks ∧
      b.bestAsk.2 = (scanAsk b.asks).map (fun i => levelAt b.asks (asU16 i)) := by
  unfold bestAsk
  split
  · exact ⟨rfl, rfl, Option.map_map ..⟩
  · next h =>
      rw [b.ask_cached (by simpa using h)]
      exact ⟨rfl, rfl, Option.map_map ..⟩

/-- The answer to `best_bid` depends on the levels alone. -/
theorem bid_eq (b : ArrayBook N) :
    OrderBook.bid b = (scanBid b.bids).map fun i => levelAt b.bids (asU16 i) :=
  (bestBid_spec b).2.2

theorem ask_eq (b : ArrayBook N) :
    OrderBook.ask b = (scanAsk b.asks).map fun i => levelAt b.asks (asU16 i) :=
  (bestAsk_spec b).2.2

instance : LawfulOrderBook (ArrayBook N) where
  bid_bestBid b := by
    show OrderBook.bid b.bestBid.1 = _
    rw [bid_eq, bid_eq, (bestBid_spec b).1]
  bid_bestAsk b := by
    show OrderBook.bid b.bestAsk.1 = _
    rw [bid_eq, bid_eq, (bestAsk_spec b).1]
  ask_bestBid b := by
    show OrderBook.ask b.bestBid.1 = _
    rw [ask_eq, ask_eq, (bestBid_spec b).2.1]
  ask_bestAsk b := by
    show OrderBook.ask b.bestAsk.1 = _
    rw [ask_eq, ask_eq, (bestAsk_spec b).2.1]

/-! ### Levels -/

/-- The levels of one side. -/
def side (b : ArrayBook N) (s : Side) : Vector Lots N :=
  match s with
  | .bid => b.bids
  | .ask => b.asks

/-- Asking for both best prices leaves the levels alone. -/
theorem checked_side (b : ArrayBook N) (s : Side) :
    (OrderBook.bestAsk (OrderBook.bestBid b).1).1.side s = b.side s := by
  show b.bestBid.1.bestAsk.1.side s = b.side s
  obtain ⟨hbids, hasks, -⟩ := bestBid_spec b
  obtain ⟨hbids', hasks', -⟩ := bestAsk_spec b.bestBid.1
  cases s with
  | bid => exact hbids'.trans hbids
  | ask => exact hasks'.trans hasks

theorem clear_side (b : ArrayBook N) (s : Side) : b.clear.side s = Vector.replicate N 0 := by
  cases s <;> rfl

theorem applyDelta_side {b : ArrayBook N} {price : Ticks} {idx : Fin N}
    (h : index? N price = some idx) (qty : Lots) (side s : Side) (action : UpdateAction) :
    (b.applyDelta price qty side action).side s =
      if s = side then (b.side s).set idx qty idx.isLt else b.side s := by
  unfold applyDelta
  rw [h]
  cases side <;> cases s <;> rfl

/-- A price on the grid is its own index. -/
theorem index?_of_toInt {price : Ticks} {idx : Fin N} (h : price.toInt = idx.val) :
    index? N price = some idx := by
  have hrange : 0 ≤ price.toInt ∧ price.toInt.toNat < N := by
    have := idx.isLt
    omega
  unfold index?
  rw [dif_pos hrange]
  congr 1
  exact Fin.ext (by simp [h])

/-- The side holds exactly these levels. -/
def Shows (b : ArrayBook N) (s : Side) (levels : List (Fin N × Lots)) : Prop :=
  ∀ k q, 0 < q ∧ (b.side s).get k = q ↔ (k, q) ∈ levels

/-- A side has a level with positive quantity. -/
def Populated (b : ArrayBook N) (s : Side) : Prop := ∃ i : Fin N, 0 < (b.side s).get i

theorem shows_nil_iff {b : ArrayBook N} {s : Side} : b.Shows s [] ↔ ¬ b.Populated s := by
  unfold Shows Populated
  constructor
  · intro h ⟨k, hk⟩
    exact List.not_mem_nil ((h k _).mp ⟨hk, rfl⟩)
  · intro h k q
    refine ⟨?_, fun hmem => absurd hmem List.not_mem_nil⟩
    intro ⟨hq, hk⟩
    exact absurd ⟨k, hk ▸ hq⟩ h

theorem shows_of_empty {b : ArrayBook N} {s : Side} (h : b.side s = Vector.replicate N 0) :
    b.Shows s [] := by
  refine shows_nil_iff.mpr ?_
  intro ⟨k, hk⟩
  rw [h] at hk
  simp [Vector.get] at hk

theorem shows_of_single {b : ArrayBook N} {s : Side} {idx : Fin N} {qty : Lots} (hq : 0 < qty)
    (h : b.side s = (Vector.replicate N 0).set idx qty idx.isLt) : b.Shows s [(idx, qty)] := by
  intro k q
  rw [h, List.mem_singleton, Prod.mk.injEq]
  show 0 < q ∧ ((Vector.replicate N (0 : Lots)).set idx qty idx.isLt)[k.val] = q ↔ _
  rw [Vector.getElem_set]
  split
  · next heq =>
      have hk : k = idx := (Fin.ext heq).symm
      constructor
      · intro ⟨_, hqty⟩
        exact ⟨hk, hqty.symm⟩
      · intro ⟨_, hqty⟩
        exact ⟨hqty ▸ hq, hqty.symm⟩
  · next hne =>
      rw [Vector.getElem_replicate]
      constructor
      · intro ⟨hpos, hzero⟩
        rw [← hzero] at hpos
        exact absurd hpos (by decide)
      · intro ⟨hk, _⟩
        exact absurd (congrArg Fin.val hk.symm) hne

theorem bid_isSome_iff (b : ArrayBook N) : (OrderBook.bid b).isSome ↔ b.Populated .bid := by
  rw [bid_eq, Option.isSome_map, scanBid, List.find?_isSome]
  simp [Populated, side]

theorem ask_isSome_iff (b : ArrayBook N) : (OrderBook.ask b).isSome ↔ b.Populated .ask := by
  rw [ask_eq, Option.isSome_map, scanAsk, List.find?_isSome]
  simp [Populated, side]

/-- A cached index is a small price. -/
theorem levelAt_price (levels : Vector Lots N) (i : Idx N) :
    0 ≤ (levelAt levels i).1.toInt ∧ (levelAt levels i).1.toInt < 65536 := by
  have hi := i.val.toNat_lt
  have hprice : (levelAt levels i).1.toInt = i.val.toNat := by
    show (Int64.ofNat i.val.toNat).toInt = _
    rw [Int64.toInt_ofNat_of_lt (by omega)]
  rw [hprice]
  omega

theorem bid_price {b : ArrayBook N} {p : Ticks} {q : Lots} (h : OrderBook.bid b = some (p, q)) :
    0 ≤ p.toInt ∧ p.toInt < 65536 := by
  rw [bid_eq, Option.map_eq_some_iff] at h
  obtain ⟨i, -, hlevel⟩ := h
  have hprice := levelAt_price b.bids (asU16 i)
  rwa [hlevel] at hprice

theorem ask_price {b : ArrayBook N} {p : Ticks} {q : Lots} (h : OrderBook.ask b = some (p, q)) :
    0 ≤ p.toInt ∧ p.toInt < 65536 := by
  rw [ask_eq, Option.map_eq_some_iff] at h
  obtain ⟨i, -, hlevel⟩ := h
  have hprice := levelAt_price b.asks (asU16 i)
  rwa [hlevel] at hprice

/-- Without truncation a cached index is the level it was taken from. -/
theorem levelAt_asU16 (hN : N ≤ 65536) (levels : Vector Lots N) (i : Fin N) :
    levelAt levels (asU16 i) = (Int64.ofNat i, levels.get i) := by
  have hi : (UInt16.ofNat i).toNat = i.val := by
    rw [UInt16.toNat_ofNat']
    exact Nat.mod_eq_of_lt (Nat.lt_of_lt_of_le i.isLt hN)
  unfold levelAt asU16
  simp only [hi]

/-- A search along a strictly sorted list finds the first hit in its order. -/
theorem find?_sorted {l : List (Fin N)} {r : Fin N → Fin N → Prop} (hl : l.Pairwise r)
    (hr : ∀ a b, r a b → ¬ r b a) {q : Fin N → Bool} {i : Fin N} (h : l.find? q = some i) :
    q i = true ∧ ∀ j ∈ l, r j i → q j = false := by
  obtain ⟨hqi, before, after, hsplit, hbefore⟩ := List.find?_eq_some_iff_append.mp h
  refine ⟨hqi, ?_⟩
  intro j hj hji
  rw [hsplit] at hj hl
  have hafter := (List.pairwise_cons.mp (List.pairwise_append.mp hl).2.1).1
  rcases List.mem_append.mp hj with hin | hin
  · simpa using hbefore j hin
  · rcases List.mem_cons.mp hin with rfl | hin
    · exact absurd hji (hr _ _ hji)
    · exact absurd (hafter j hin) (hr _ _ hji)

/-- `p` is the highest price with positive quantity on the bid side, and `q` its
quantity. -/
def IsBestBid (b : ArrayBook N) (p : Ticks) (q : Lots) : Prop :=
  ∃ i : Fin N, p = Int64.ofNat i ∧ q = b.bids.get i ∧ 0 < q ∧ ∀ j, i < j → ¬ 0 < b.bids.get j

/-- `p` is the lowest price with positive quantity on the ask side, and `q` its
quantity. -/
def IsBestAsk (b : ArrayBook N) (p : Ticks) (q : Lots) : Prop :=
  ∃ i : Fin N, p = Int64.ofNat i ∧ q = b.asks.get i ∧ 0 < q ∧ ∀ j, j < i → ¬ 0 < b.asks.get j

/-- Up to the range of the cached index, `best_bid` answers the true best bid. -/
theorem isBestBid_of_bid (hN : N ≤ 65536) {b : ArrayBook N} {p : Ticks} {q : Lots}
    (h : OrderBook.bid b = some (p, q)) : b.IsBestBid p q := by
  rw [bid_eq, Option.map_eq_some_iff] at h
  obtain ⟨i, hscan, hlevel⟩ := h
  rw [levelAt_asU16 hN] at hlevel
  cases hlevel
  have hsorted : (List.finRange N).reverse.Pairwise (fun a b => b < a) :=
    List.pairwise_reverse.mpr (List.pairwise_lt_finRange N)
  obtain ⟨hpos, hfirst⟩ := find?_sorted hsorted (fun a b => lt_asymm) hscan
  refine ⟨i, rfl, rfl, by simpa using hpos, ?_⟩
  intro j hj
  simpa using hfirst j (by simp) hj

theorem isBestAsk_of_ask (hN : N ≤ 65536) {b : ArrayBook N} {p : Ticks} {q : Lots}
    (h : OrderBook.ask b = some (p, q)) : b.IsBestAsk p q := by
  rw [ask_eq, Option.map_eq_some_iff] at h
  obtain ⟨i, hscan, hlevel⟩ := h
  rw [levelAt_asU16 hN] at hlevel
  cases hlevel
  obtain ⟨hpos, hfirst⟩ := find?_sorted (List.pairwise_lt_finRange N) (fun a b => lt_asymm) hscan
  refine ⟨i, rfl, rfl, by simpa using hpos, ?_⟩
  intro j hj
  simpa using hfirst j (by simp) hj

end ArrayBook

end Mantis
