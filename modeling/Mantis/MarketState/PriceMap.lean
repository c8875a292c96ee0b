import Mantis.Lib.Runs
import Mantis.MarketState.ArrayBook
import Mathlib.Order.Bounds.Basic

/-!
# Mantis.MarketState.PriceMap

What an array book is for: one map from prices to quantities on each side.

`quotes` reads a book as such a pair of maps. Every operation of the trait acts on the
maps alone (`step_quotes`), so a run of operations does (`run_quotes`); the cached
index and the dirty bit of a side are invisible. The answers of `best_bid` and
`best_ask` are the greatest and the least quoted price, in Mathlib's sense.
-/

namespace Mantis

/-- A quantity for every price, on each side; a price without a level has quantity zero. -/
abbrev PriceMaps := Side → Ticks → Lots

namespace PriceMaps

/-- No level on either side. -/
def empty : PriceMaps := fun _ _ => 0

/-- The last write to a price wins. -/
def write (m : PriceMaps) (price : Ticks) (qty : Lots) (side : Side) : PriceMaps :=
  fun s p => if s = side ∧ p = price then qty else m s p

def clearSide (m : PriceMaps) (side : Side) : PriceMaps :=
  fun s p => if s = side then 0 else m s p

/-- The prices quoted on one side. -/
def quoted (m : PriceMaps) (s : Side) : Set Ticks := { p | 0 < m s p }

/-- The answer names the greatest bid and its quantity; there is none only when no bid is
quoted. -/
def IsBid (m : PriceMaps) : Option (Ticks × Lots) → Prop
  | some (p, q) => IsGreatest (m.quoted .bid) p ∧ q = m .bid p
  | none => m.quoted .bid = ∅

/-- The answer names the least ask and its quantity; there is none only when no ask is
quoted. -/
def IsAsk (m : PriceMaps) : Option (Ticks × Lots) → Prop
  | some (p, q) => IsLeast (m.quoted .ask) p ∧ q = m .ask p
  | none => m.quoted .ask = ∅

/-- The maps leave no choice of the answer. -/
theorem IsBid.unique {m : PriceMaps} {a a' : Option (Ticks × Lots)} (h : m.IsBid a)
    (h' : m.IsBid a') : a = a' := by
  rcases a with _ | ⟨p, q⟩ <;> rcases a' with _ | ⟨p', q'⟩
  · rfl
  · exact absurd h'.1.1 (by rw [show m.quoted .bid = ∅ from h]; exact Set.notMem_empty p')
  · exact absurd h.1.1 (by rw [show m.quoted .bid = ∅ from h']; exact Set.notMem_empty p)
  · obtain ⟨hp, rfl⟩ := h
    obtain ⟨hp', rfl⟩ := h'
    rw [Int64.le_antisymm (hp'.2 hp.1) (hp.2 hp'.1)]

theorem IsAsk.unique {m : PriceMaps} {a a' : Option (Ticks × Lots)} (h : m.IsAsk a)
    (h' : m.IsAsk a') : a = a' := by
  rcases a with _ | ⟨p, q⟩ <;> rcases a' with _ | ⟨p', q'⟩
  · rfl
  · exact absurd h'.1.1 (by rw [show m.quoted .ask = ∅ from h]; exact Set.notMem_empty p')
  · exact absurd h.1.1 (by rw [show m.quoted .ask = ∅ from h']; exact Set.notMem_empty p)
  · obtain ⟨hp, rfl⟩ := h
    obtain ⟨hp', rfl⟩ := h'
    rw [Int64.le_antisymm (hp.2 hp'.1) (hp'.2 hp.1)]

end PriceMaps

/-- A call of one of the methods of the trait. -/
inductive BookOp
  | applyDelta (price : Ticks) (qty : Lots) (side : Side) (action : UpdateAction)
  | clearSide (side : Side)
  | clear
  | bestBid
  | bestAsk
  deriving DecidableEq, Repr

/-- The call is not a query. -/
def BookOp.isWrite : BookOp → Bool
  | .applyDelta .. | .clearSide _ | .clear => true
  | .bestBid | .bestAsk => false

/-- The price is within an array of `N` levels. -/
def InRange (N : Nat) (price : Ticks) : Prop := 0 ≤ price.toInt ∧ price.toInt < N

instance (N : Nat) (price : Ticks) : Decidable (InRange N price) :=
  inferInstanceAs (Decidable (_ ∧ _))

/-- What a call does to the maps: a delta out of range and a query do nothing. -/
def PriceMaps.step (N : Nat) (m : PriceMaps) : BookOp → PriceMaps
  | .applyDelta price qty side _ => if InRange N price then m.write price qty side else m
  | .clearSide side => m.clearSide side
  | .clear => .empty
  | .bestBid | .bestAsk => m

/-- Queries leave no trace in the maps. -/
theorem PriceMaps.run_writes (N : Nat) (m : PriceMaps) (ops : List BookOp) :
    Runs.run (step N) m (ops.filter BookOp.isWrite) = Runs.run (step N) m ops := by
  induction ops generalizing m with
  | nil => rfl
  | cons op ops ih => cases op <;> exact ih _

namespace ArrayBook

open Runs

variable {N : Nat}

/-- The book after a call. -/
def step (b : ArrayBook N) : BookOp → ArrayBook N
  | .applyDelta price qty side action => b.applyDelta price qty side action
  | .clearSide side => b.clearSide side
  | .clear => b.clear
  | .bestBid => b.bestBid.1
  | .bestAsk => b.bestAsk.1

/-- The maps a book stands for. -/
def quotes (b : ArrayBook N) : PriceMaps := fun s p =>
  match index? N p with
  | some i => (b.side s).get i
  | none => 0

/-! ### Prices and level indices -/

theorem index?_eq_some {price : Ticks} {i : Fin N} :
    index? N price = some i ↔ price.toInt = i.val := by
  constructor
  · intro h
    simp only [index?] at h
    split at h
    · next hrange =>
        cases h
        show price.toInt = (price.toInt.toNat : Int)
        omega
    · cases h
  · intro h
    exact index?_of_toInt h

theorem index?_isSome_iff {price : Ticks} : (index? N price).isSome ↔ InRange N price := by
  simp only [index?, InRange]
  split
  · next h => simp; omega
  · next h => simp; omega

/-- A price in range and its index determine each other. -/
theorem index?_inj {p price : Ticks} {i : Fin N} (h : index? N price = some i) :
    index? N p = some i ↔ p = price := by
  rw [index?_eq_some] at h ⊢
  rw [← h, Int64.toInt_inj]

/-- The price of a level. -/
theorem index?_ofNat (hN : N ≤ 65536) (i : Fin N) : index? N (Int64.ofNat i) = some i := by
  refine index?_of_toInt ?_
  have := i.isLt
  rw [Int64.toInt_ofNat_of_lt (by omega)]

/-! ### Operations act on the maps -/

theorem quotes_of_index {p : Ticks} {i : Fin N} (h : index? N p = some i) (b : ArrayBook N)
    (s : Side) : b.quotes s p = (b.side s).get i := by
  simp only [quotes]
  rw [h]

/-- Books with the same levels stand for the same maps. -/
theorem quotes_congr {b b' : ArrayBook N} (h : ∀ s, b'.side s = b.side s) :
    b'.quotes = b.quotes := by
  funext s p
  simp only [quotes, h]

theorem quotes_default : (default : ArrayBook N).quotes = .empty := by
  funext s p
  simp only [quotes, PriceMaps.empty]
  split
  · cases s <;> simp [side, default, Vector.get]
  · rfl

theorem quotes_applyDelta (b : ArrayBook N) (price : Ticks) (qty : Lots) (side : Side)
    (action : UpdateAction) :
    (b.applyDelta price qty side action).quotes =
      if InRange N price then b.quotes.write price qty side else b.quotes := by
  cases hidx : index? N price with
  | none =>
      have hout : ¬ InRange N price := by
        rw [← index?_isSome_iff, hidx]
        simp
      rw [if_neg hout]
      simp only [applyDelta]
      rw [hidx]
  | some idx =>
      have hin : InRange N price := by
        rw [← index?_isSome_iff, hidx]
        rfl
      rw [if_pos hin]
      funext s p
      simp only [quotes, PriceMaps.write, applyDelta_side hidx]
      split
      · next i hp =>
          have hsame : p = price ↔ idx = i := by
            rw [← index?_inj hidx, hp, Option.some_inj, eq_comm]
          by_cases hs : s = side
          · rw [if_pos hs]
            show ((b.side s).set idx qty idx.isLt)[i.val] = _
            rw [Vector.getElem_set]
            simp only [hs, hsame, true_and, Fin.ext_iff]
            rfl
          · rw [if_neg hs, if_neg (fun h => hs h.1)]
      · next hp =>
          have hne : p ≠ price := by
            rintro rfl
            rw [hidx] at hp
            cases hp
          rw [if_neg (fun h => hne h.2)]

theorem quotes_clearSide (b : ArrayBook N) (side : Side) :
    (b.clearSide side).quotes = b.quotes.clearSide side := by
  funext s p
  simp only [quotes, PriceMaps.clearSide]
  split
  · cases side <;> cases s <;> simp [clearSide, ArrayBook.side, Vector.get]
  · simp

/-- **One call.** Every operation acts on the maps of a book. -/
theorem step_quotes (b : ArrayBook N) (op : BookOp) :
    (b.step op).quotes = b.quotes.step N op := by
  cases op with
  | applyDelta price qty side action => exact quotes_applyDelta b price qty side action
  | clearSide side => exact quotes_clearSide b side
  | clear => exact quotes_default
  | bestBid =>
      refine quotes_congr ?_
      intro s
      obtain ⟨hbids, hasks, -⟩ := bestBid_spec b
      cases s with
      | bid => exact hbids
      | ask => exact hasks
  | bestAsk =>
      refine quotes_congr ?_
      intro s
      obtain ⟨hbids, hasks, -⟩ := bestAsk_spec b
      cases s with
      | bid => exact hbids
      | ask => exact hasks

/-- **A run of calls.** -/
theorem run_quotes (b : ArrayBook N) (ops : List BookOp) :
    (run step b ops).quotes = run (PriceMaps.step N) b.quotes ops := by
  induction ops generalizing b with
  | nil => rfl
  | cons op ops ih => rw [run_cons, run_cons, ih, step_quotes]

/-! ### Answers read the maps -/

/-- A quoted price is a level with positive quantity. -/
theorem mem_quoted {b : ArrayBook N} {s : Side} {p : Ticks} :
    p ∈ b.quotes.quoted s ↔ ∃ i : Fin N, index? N p = some i ∧ 0 < (b.side s).get i := by
  show 0 < b.quotes s p ↔ _
  simp only [quotes]
  split
  · next i hp => simp [hp]
  · next hp => simp [hp]

theorem quoted_eq_empty_iff (hN : N ≤ 65536) {b : ArrayBook N} {s : Side} :
    b.quotes.quoted s = ∅ ↔ ¬ b.Populated s := by
  rw [Set.eq_empty_iff_forall_notMem]
  constructor
  · rintro h ⟨i, hi⟩
    exact h (Int64.ofNat i) (mem_quoted.mpr ⟨i, index?_ofNat hN i, hi⟩)
  · intro h p hp
    obtain ⟨i, -, hi⟩ := mem_quoted.mp hp
    exact h ⟨i, hi⟩

theorem isBid_bestBid (hN : N ≤ 65536) (b : ArrayBook N) : b.quotes.IsBid b.bestBid.2 := by
  cases hbid : b.bestBid.2 with
  | none =>
      have hpop := bid_isSome_iff b
      rw [show OrderBook.bid b = none from hbid] at hpop
      exact (quoted_eq_empty_iff hN).mpr fun h => by simpa using hpop.mpr h
  | some best =>
      obtain ⟨p, q⟩ := best
      obtain ⟨i, rfl, rfl, hq, habove⟩ := isBestBid_of_bid hN hbid
      refine ⟨⟨mem_quoted.mpr ⟨i, index?_ofNat hN i, hq⟩, ?_⟩, ?_⟩
      · intro p hp
        obtain ⟨j, hj, hpos⟩ := mem_quoted.mp hp
        have hij : ¬ i < j := fun hlt => habove j hlt hpos
        have hi := index?_eq_some.mp (index?_ofNat hN i)
        have hj := index?_eq_some.mp hj
        rw [Int64.le_iff_toInt_le]
        omega
      · exact (quotes_of_index (index?_ofNat hN i) b .bid).symm

theorem isAsk_bestAsk (hN : N ≤ 65536) (b : ArrayBook N) : b.quotes.IsAsk b.bestAsk.2 := by
  cases hask : b.bestAsk.2 with
  | none =>
      have hpop := ask_isSome_iff b
      rw [show OrderBook.ask b = none from hask] at hpop
      exact (quoted_eq_empty_iff hN).mpr fun h => by simpa using hpop.mpr h
  | some best =>
      obtain ⟨p, q⟩ := best
      obtain ⟨i, rfl, rfl, hq, hbelow⟩ := isBestAsk_of_ask hN hask
      refine ⟨⟨mem_quoted.mpr ⟨i, index?_ofNat hN i, hq⟩, ?_⟩, ?_⟩
      · intro p hp
        obtain ⟨j, hj, hpos⟩ := mem_quoted.mp hp
        have hij : ¬ j < i := fun hlt => hbelow j hlt hpos
        have hi := index?_eq_some.mp (index?_ofNat hN i)
        have hj := index?_eq_some.mp hj
        rw [Int64.le_iff_toInt_le]
        omega
      · exact (quotes_of_index (index?_ofNat hN i) b .ask).symm

/-- **The array book is a pair of maps.** After every sequence of calls on a new book of
at most 65536 levels, the book stands for the maps in which the last write in range
won; `best_bid` and `best_ask` answer their greatest and least quoted price with its
quantity; and the answers are those after any other sequence with the same writes,
whichever queries it makes. -/
theorem refines_priceMaps (hN : N ≤ 65536) (ops : List BookOp) :
    (run step (default : ArrayBook N) ops).quotes = run (PriceMaps.step N) .empty ops ∧
    (run (PriceMaps.step N) .empty ops).IsBid (run step (default : ArrayBook N) ops).bestBid.2 ∧
    (run (PriceMaps.step N) .empty ops).IsAsk (run step (default : ArrayBook N) ops).bestAsk.2 ∧
    ∀ ops', ops'.filter BookOp.isWrite = ops.filter BookOp.isWrite →
      (run step (default : ArrayBook N) ops').bestBid.2 =
          (run step (default : ArrayBook N) ops).bestBid.2 ∧
        (run step (default : ArrayBook N) ops').bestAsk.2 =
          (run step (default : ArrayBook N) ops).bestAsk.2 := by
  have hquotes : ∀ ops, (run step (default : ArrayBook N) ops).quotes =
      run (PriceMaps.step N) .empty ops := by
    intro ops
    rw [run_quotes, quotes_default]
  have hbid := isBid_bestBid hN (run step (default : ArrayBook N) ops)
  have hask := isAsk_bestAsk hN (run step (default : ArrayBook N) ops)
  rw [hquotes] at hbid hask
  refine ⟨hquotes ops, hbid, hask, ?_⟩
  intro ops' hsame
  have hmaps : run (PriceMaps.step N) .empty ops' = run (PriceMaps.step N) .empty ops := by
    rw [← PriceMaps.run_writes, hsame, PriceMaps.run_writes]
  have hbid' := isBid_bestBid hN (run step (default : ArrayBook N) ops')
  have hask' := isAsk_bestAsk hN (run step (default : ArrayBook N) ops')
  rw [hquotes, hmaps] at hbid' hask'
  exact ⟨hbid'.unique hbid, hask'.unique hask⟩

/-- Deleting the best bid after it was cached uncovers the level below; queries in
between change nothing. -/
theorem refines_priceMaps_deleted :
    4 ≤ 65536 ∧
    (run step (default : ArrayBook 4)
        [.applyDelta 1 10 .bid .new, .applyDelta 3 7 .bid .new, .bestBid, .bestAsk,
          .applyDelta 3 0 .bid .delete, .applyDelta 9 5 .bid .new, .bestBid]).bestBid.2 =
      (run step (default : ArrayBook 4)
        [.applyDelta 1 10 .bid .new, .applyDelta 3 7 .bid .new,
          .applyDelta 3 0 .bid .delete, .applyDelta 9 5 .bid .new]).bestBid.2 :=
  ⟨by decide, ((refines_priceMaps (by decide) _).2.2.2 _ rfl).1⟩

end ArrayBook

end Mantis
