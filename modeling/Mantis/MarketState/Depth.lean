import Mantis.Lib.I64
import Mantis.MarketState.PriceMap

/-!
# Mantis.MarketState.Depth

The depth views of the array book (`depth`, `level_count` and `total_depth` of
`crates/market-state/src/book/array_book.rs`) against its best prices.

Each view runs a loop of its own over the levels. They are all described by one list,
the `ladder` of a side: its levels with positive quantity, best price first. A view is
then a prefix of the ladder (`depth_eq`), its length (`levelCount_eq`) or the sum of a
prefix (`totalDepth_eq`), and a best price is its head (`best_eq`).
-/

namespace Mantis

/-- The price `p` is strictly better than `q`: higher for a bid, lower for an ask. -/
def Better (s : Side) (p q : Ticks) : Prop :=
  match s with
  | .bid => q < p
  | .ask => p < q

namespace ArrayBook

open Runs

variable {N : Nat}

/-- The order in which the loops of one side visit the levels. -/
def order (N : Nat) (s : Side) : List (Fin N) :=
  match s with
  | .bid => (List.finRange N).reverse
  | .ask => List.finRange N

/-- The price and quantity of a level. -/
def entry (levels : Vector Lots N) (i : Fin N) : Ticks × Lots := (Int64.ofNat i, levels.get i)

/-- The levels with positive quantity among those visited. -/
def positiveLevels (levels : Vector Lots N) (is : List (Fin N)) : List (Ticks × Lots) :=
  (is.filter fun i => 0 < levels.get i).map (entry levels)

/-- The levels of one side, best price first. -/
def ladder (b : ArrayBook N) (s : Side) : List (Ticks × Lots) :=
  positiveLevels (b.side s) (order N s)

/-- `best_bid` or `best_ask`. -/
def best (b : ArrayBook N) (s : Side) : Option (Ticks × Lots) :=
  match s with
  | .bid => b.bestBid.2
  | .ask => b.bestAsk.2

theorem positiveLevels_cons_of_pos {levels : Vector Lots N} {i : Fin N} (h : 0 < levels.get i)
    (is : List (Fin N)) :
    positiveLevels levels (i :: is) = entry levels i :: positiveLevels levels is := by
  rw [positiveLevels, List.filter_cons_of_pos (by simpa using h), List.map_cons]
  rfl

theorem positiveLevels_cons_of_not_pos {levels : Vector Lots N} {i : Fin N}
    (h : ¬ 0 < levels.get i) (is : List (Fin N)) :
    positiveLevels levels (i :: is) = positiveLevels levels is := by
  rw [positiveLevels, List.filter_cons_of_neg (by simpa using h)]
  rfl

/-! ### The loops read the ladder -/

/-- `depth` from a given position of the buffer on: the levels still to come go to the room
that is left, and nothing else is written. -/
theorem depthLoop_eq (hN : N ≤ 65536) (levels : Vector Lots N) (is : List (Fin N))
    {buf : List (Ticks × Lots)} {count : Nat} (h : count ≤ buf.length) :
    depthLoop levels is buf count =
      let written := (positiveLevels levels is).take (buf.length - count)
      (buf.take count ++ written ++ buf.drop (count + written.length), count + written.length) := by
  induction is generalizing buf count with
  | nil => simp [depthLoop, positiveLevels]
  | cons i is ih =>
      rw [depthLoop]
      by_cases hfull : buf.length ≤ count
      · rw [if_pos hfull, Nat.sub_eq_zero_of_le hfull]
        simp
      · rw [if_neg hfull]
        by_cases hpos : 0 < levels.get i
        · have hticks : idxToTicks i.val = some (Int64.ofNat i) := if_pos (by omega)
          have hroom : buf.length - count = (buf.length - (count + 1)) + 1 := by omega
          have hfront : (buf.set count (entry levels i)).take (count + 1) =
              buf.take count ++ [entry levels i] := by
            rw [List.take_add_one, List.take_set_of_le (le_refl _),
              List.getElem?_set_self (by omega)]
            rfl
          simp only [if_pos hpos, hticks]
          change depthLoop levels is (buf.set count (entry levels i)) (count + 1) = _
          rw [ih (by rw [List.length_set]; omega), List.length_set,
            positiveLevels_cons_of_pos hpos, hroom, List.take_succ_cons, List.length_cons]
          dsimp only
          rw [hfront, List.drop_set_of_lt (by omega), Nat.add_right_comm count 1, ← Nat.add_assoc,
            List.append_assoc (buf.take count)]
          rfl
        · rw [if_neg hpos, positiveLevels_cons_of_not_pos hpos]
          exact ih h

/-- `depth` overwrites the front of the buffer with the front of the ladder. -/
theorem depth_eq (hN : N ≤ 65536) (b : ArrayBook N) (s : Side) (buf : List (Ticks × Lots)) :
    b.depth s buf =
      let written := (b.ladder s).take buf.length
      (written ++ buf.drop written.length, written.length) := by
  have hloop := depthLoop_eq hN (b.side s) (order N s) (Nat.zero_le buf.length)
  simp only [Nat.sub_zero, List.take_zero, List.nil_append, Nat.zero_add] at hloop
  rw [ladder, ← hloop]
  cases s <;> rfl

theorem toList_eq_map_finRange (levels : Vector Lots N) :
    levels.toList = (List.finRange N).map levels.get := by
  refine List.ext_getElem (by simp) fun n h₁ h₂ => ?_
  simp [Vector.get]

/-- `level_count` is the length of the ladder. -/
theorem levelCount_eq (b : ArrayBook N) (s : Side) : b.levelCount s = (b.ladder s).length := by
  have hcount : ∀ levels : Vector Lots N, (levels.countP fun q => decide (0 < q)) =
      ((List.finRange N).filter fun i => 0 < levels.get i).length := by
    intro levels
    rw [← Vector.countP_toList, toList_eq_map_finRange, List.countP_map,
      List.countP_eq_length_filter]
    rfl
  cases s with
  | bid =>
      rw [ladder, positiveLevels, List.length_map, order, List.filter_reverse, List.length_reverse]
      exact hcount b.bids
  | ask =>
      rw [ladder, positiveLevels, List.length_map]
      exact hcount b.asks

/-- The best price is the head of the ladder. -/
theorem best_eq (hN : N ≤ 65536) (b : ArrayBook N) (s : Side) : b.best s = (b.ladder s).head? := by
  rw [ladder, positiveLevels, List.head?_map, List.head?_filter]
  cases s with
  | bid =>
      show OrderBook.bid b = _
      rw [bid_eq]
      exact congrArg (Option.map · (scanBid b.bids)) (funext (levelAt_asU16 hN b.bids))
  | ask =>
      show OrderBook.ask b = _
      rw [ask_eq]
      exact congrArg (Option.map · (scanAsk b.asks)) (funext (levelAt_asU16 hN b.asks))

/-- The exact quantity on some levels. -/
def quantity (levels : List (Ticks × Lots)) : Int := (levels.map fun e => e.2.toInt).sum

/-- `total_depth` after `count` levels adds the levels still to come, up to the limit. -/
theorem totalLoop_eq (levels : Vector Lots N) (limit : Nat) (is : List (Fin N)) (total : Lots)
    (count : Nat) :
    totalLoop levels limit is total count =
      total + Int64.ofInt (quantity ((positiveLevels levels is).take (limit - count))) := by
  induction is generalizing total count with
  | nil => simp [totalLoop, positiveLevels, quantity]
  | cons i is ih =>
      rw [totalLoop]
      by_cases hfull : limit ≤ count
      · rw [if_pos hfull, Nat.sub_eq_zero_of_le hfull]
        simp [quantity]
      · rw [if_neg hfull]
        by_cases hpos : 0 < levels.get i
        · have hroom : limit - count = (limit - (count + 1)) + 1 := by omega
          rw [if_pos hpos, ih, positiveLevels_cons_of_pos hpos, hroom, List.take_succ_cons]
          simp only [quantity, List.map_cons, List.sum_cons]
          rw [Int64.ofInt_add, Int64.ofInt_toInt, Int64.add_assoc]
          rfl
        · rw [if_neg hpos, ih, positiveLevels_cons_of_not_pos hpos]

/-- `total_depth` is the sum, modulo `2 ^ 64`, of a prefix of the ladder. -/
theorem totalDepth_eq (b : ArrayBook N) (s : Side) (levels : Nat) :
    b.totalDepth s levels = Int64.ofInt (quantity ((b.ladder s).take levels)) := by
  have hloop := totalLoop_eq (b.side s) levels (order N s) 0 0
  rw [Nat.sub_zero, Int64.zero_add] at hloop
  rw [ladder, ← hloop]
  cases s <;> rfl

/-! ### The ladder lists the quotes -/

theorem mem_ladder (hN : N ≤ 65536) {b : ArrayBook N} {s : Side} {p : Ticks} {q : Lots} :
    (p, q) ∈ b.ladder s ↔ 0 < q ∧ b.quotes s p = q := by
  have horder : ∀ i, i ∈ order N s := by
    intro i
    cases s <;> simp [order]
  have hmem : (p, q) ∈ b.ladder s ↔ ∃ i, 0 < (b.side s).get i ∧ entry (b.side s) i = (p, q) := by
    simp only [ladder, positiveLevels, List.mem_map, List.mem_filter, decide_eq_true_eq, horder,
      true_and]
  rw [hmem]
  constructor
  · rintro ⟨i, hpos, heq⟩
    cases heq
    exact ⟨hpos, quotes_of_index (index?_ofNat hN i) b s⟩
  · rintro ⟨hpos, rfl⟩
    obtain ⟨i, hp, hi⟩ := mem_quoted.mp (show p ∈ b.quotes.quoted s from hpos)
    refine ⟨i, hi, Prod.ext ?_ (quotes_of_index hp b s).symm⟩
    exact ((index?_inj (index?_ofNat hN i)).mp hp).symm

theorem ladder_sorted (hN : N ≤ 65536) (b : ArrayBook N) (s : Side) :
    (b.ladder s).Pairwise fun e e' => Better s e.1 e'.1 := by
  have hlt : ∀ {i j : Fin N}, i < j → Int64.ofNat i < Int64.ofNat j := by
    intro i j hij
    have hi := index?_eq_some.mp (index?_ofNat hN i)
    have hj := index?_eq_some.mp (index?_ofNat hN j)
    rw [Int64.lt_iff_toInt_lt]
    omega
  rw [ladder, positiveLevels, List.pairwise_map]
  refine List.Pairwise.filter _ ?_
  cases s with
  | bid =>
      refine List.pairwise_reverse.mpr ((List.pairwise_lt_finRange N).imp ?_)
      intro i j hij
      exact hlt hij
  | ask => exact (List.pairwise_lt_finRange N).imp fun hij => hlt hij

/-! ### The views agree -/

/-- What a call of `depth` on a buffer does: `count` entries are written, they are the best
quotes of the maps in order, and the rest of the buffer is as before. -/
structure ShowsDepth (m : PriceMaps) (s : Side) (levelCount : Nat) (best : Option (Ticks × Lots))
    (buf buf' : List (Ticks × Lots)) (count : Nat) : Prop where
  count_eq : count = min buf.length levelCount
  /-- Every entry is a quote with positive quantity. -/
  quoted : ∀ e ∈ buf'.take count, 0 < e.2 ∧ m s e.1 = e.2
  sorted : (buf'.take count).Pairwise fun e e' => Better s e.1 e'.1
  /-- A quote that is not shown is worse than all that are, and found no room. -/
  best_levels : ∀ p, 0 < m s p → (p, m s p) ∈ buf'.take count ∨
    count = buf.length ∧ ∀ e ∈ buf'.take count, Better s e.1 p
  first : buf ≠ [] → (buf'.take count).head? = best
  untouched : buf'.length = buf.length ∧ buf'.drop count = buf.drop count

/-- A prefix of a sorted list: what is left out is worse. -/
theorem mem_take_or_better {s : Side} {l : List (Ticks × Lots)}
    (hl : l.Pairwise fun e e' => Better s e.1 e'.1) {e : Ticks × Lots} (he : e ∈ l) (n : Nat) :
    e ∈ l.take n ∨ n < l.length ∧ ∀ e' ∈ l.take n, Better s e'.1 e.1 := by
  rw [← List.take_append_drop n l, List.mem_append] at he
  rcases he with he | he
  · exact Or.inl he
  · refine Or.inr ⟨?_, fun e' he' => ?_⟩
    · have := List.length_pos_of_mem he
      rw [List.length_drop] at this
      omega
    · rw [← List.take_append_drop n l, List.pairwise_append] at hl
      exact hl.2.2 e' he' e he

/-- The entries a call of `depth` writes. -/
theorem take_depth (hN : N ≤ 65536) (b : ArrayBook N) (s : Side) (buf : List (Ticks × Lots)) :
    (b.depth s buf).1.take (b.depth s buf).2 = (b.ladder s).take buf.length := by
  rw [depth_eq hN]
  exact List.take_left

theorem showsDepth (hN : N ≤ 65536) (b : ArrayBook N) (s : Side) (buf : List (Ticks × Lots)) :
    ShowsDepth b.quotes s (b.levelCount s) (b.best s) buf (b.depth s buf).1 (b.depth s buf).2 := by
  have htake := take_depth hN b s buf
  have hcount : (b.depth s buf).2 = min buf.length (b.levelCount s) := by
    rw [depth_eq hN, levelCount_eq]
    exact List.length_take
  refine ⟨hcount, ?_, ?_, ?_, ?_, ?_⟩
  · intro e he
    rw [htake] at he
    exact (mem_ladder hN).mp (List.mem_of_mem_take he)
  · rw [htake]
    exact (ladder_sorted hN b s).sublist (List.take_sublist _ _)
  · intro p hp
    rw [htake, hcount, levelCount_eq]
    have hmem : (p, b.quotes s p) ∈ b.ladder s := (mem_ladder hN).mpr ⟨hp, rfl⟩
    rcases mem_take_or_better (ladder_sorted hN b s) hmem buf.length with hin | ⟨hlt, hbetter⟩
    · exact Or.inl hin
    · exact Or.inr ⟨min_eq_left hlt.le, hbetter⟩
  · intro hne
    rw [htake, best_eq hN, List.head?_take, if_neg (by simpa using hne)]
  · rw [depth_eq hN]
    refine ⟨?_, List.drop_left⟩
    rw [List.length_append, List.length_drop, List.length_take]
    omega

/-- **Depth views agree.** After every sequence of calls on a new book of at most 65536
levels, `depth` fills as many entries as there are levels and room, with the best levels
in order, the first of them the best price, and leaves the rest of the buffer alone; and
`total_depth` is the sum over the first entries of the full depth, modulo `2 ^ 64`, hence
the exact sum when that is an `i64`. -/
theorem depth_views_agree (hN : N ≤ 65536) (ops : List BookOp) (s : Side)
    (buf : List (Ticks × Lots)) (k : Nat) :
    let b := run step (default : ArrayBook N) ops
    ShowsDepth b.quotes s (b.levelCount s) (b.best s) buf (b.depth s buf).1 (b.depth s buf).2 ∧
    ∀ full : List (Ticks × Lots), b.levelCount s ≤ full.length →
      let firstLevels := ((b.depth s full).1.take (b.depth s full).2).take k
      b.totalDepth s k = Int64.ofInt (quantity firstLevels) ∧
        (I64.Fits (quantity firstLevels) → (b.totalDepth s k).toInt = quantity firstLevels) := by
  intro b
  refine ⟨showsDepth hN b s buf, ?_⟩
  intro full hfull firstLevels
  have hall : (b.depth s full).1.take (b.depth s full).2 = b.ladder s := by
    rw [levelCount_eq] at hfull
    rw [take_depth hN, List.take_of_length_le hfull]
  have hfirst : firstLevels = (b.ladder s).take k := congrArg (List.take k) hall
  rw [hfirst, totalDepth_eq]
  exact ⟨rfl, fun hfits => I64.toInt_ofInt hfits⟩

/-- Three bids with room for two: the two highest are shown, and all three are summed. -/
theorem depth_views_agree_cut :
    4 ≤ 65536 ∧
    ShowsDepth (run step (default : ArrayBook 4)
        [.applyDelta 0 5 .bid .new, .applyDelta 1 10 .bid .new, .applyDelta 2 (-3) .bid .new,
          .applyDelta 3 7 .bid .new]).quotes .bid 3 (some (3, 7)) [(0, 0), (0, 0)]
      [(3, 7), (1, 10)] 2 ∧
    ((run step (default : ArrayBook 4)
        [.applyDelta 0 5 .bid .new, .applyDelta 1 10 .bid .new, .applyDelta 2 (-3) .bid .new,
          .applyDelta 3 7 .bid .new]).totalDepth .bid 9).toInt = 22 :=
  ⟨by decide, (depth_views_agree (by decide) _ _ _ 0).1,
    ((depth_views_agree (by decide) _ _ [] 9).2 [(0, 0), (0, 0), (0, 0)] (by decide)).2
      (by decide)⟩

end ArrayBook

end Mantis
