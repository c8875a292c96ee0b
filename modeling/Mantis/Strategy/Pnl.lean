import Mantis.Strategy.Position

/-!
# Mantis.Strategy.Pnl

Profit accounting over whole sequences of fills.

A position splits the result of its fills into a realized part and a mark on the
open quantity at the average entry price. Against the exact cash flows the only
thing lost is the truncation of the average entry price: `accountingError` is
changed by an increasing fill by less than the quantity it leaves open, and not at
all by a fill that reduces, closes or flips.
-/

namespace Mantis

/-- One execution reported to a position. -/
structure Fill where
  side : Side
  qty : Lots
  price : FixedI64 6
  deriving DecidableEq, Repr

namespace Position

open Runs

/-- `on_fill` as a step. -/
def fillStep (p : Position) (f : Fill) : Position := p.onFill f.side f.qty f.price

/-- No `i64` operation of the step overflows. -/
def StepFits (p : Position) (f : Fill) : Prop := p.FillFits f.side f.qty f.price

/-- Quantities and prices are nonnegative. -/
def NonNeg (f : Fill) : Prop := 0 ≤ f.qty.toInt ∧ 0 ≤ f.price.raw.toInt

/-- The exact signed quantity of a fill. -/
def signedQty (f : Fill) : Int := exactDelta f.side f.qty

/-- The exact cash flow of a sequence of fills, in raw price units times lots. -/
def cash (fs : List Fill) : Int := (fs.map fun f => -(signedQty f * f.price.raw.toInt)).sum

/-- The exact value of realized profit plus the open quantity marked at `m`. -/
def markedValue (p : Position) (m : FixedI64 6) : Int :=
  p.realizedPnl.raw.toInt + p.qty.toInt * (m.raw.toInt - p.avgEntry.raw.toInt)

/-- Does the fill increase the position? -/
def Increases (p : Position) (f : Fill) : Bool := isIncreasing p.qty (signedDelta f.side f.qty)

/-- What the truncated entry prices of a run may lose in all: for every increasing
fill, one raw unit less than the quantity open after it. -/
def roundingBudget : Position → List Fill → Int
  | _, [] => 0
  | p, f :: fs =>
      (if p.Increases f then max (|(p.fillStep f).qty.toInt| - 1) 0 else 0) +
        roundingBudget (p.fillStep f) fs

/-- Marked value less exact cash result; the mark itself cancels out. -/
def accountingError (p : Position) (cashFlow : Int) : Int :=
  p.realizedPnl.raw.toInt - p.qty.toInt * p.avgEntry.raw.toInt - cashFlow

theorem markedValue_sub (p : Position) (m : FixedI64 6) (cashFlow : Int) :
    p.markedValue m - (cashFlow + p.qty.toInt * m.raw.toInt) = p.accountingError cashFlow := by
  unfold markedValue accountingError
  ring

theorem cash_cons (f : Fill) (fs : List Fill) :
    cash (f :: fs) = -(signedQty f * f.price.raw.toInt) + cash fs := by
  simp [cash]

theorem cash_append (fs : List Fill) (f : Fill) :
    cash (fs ++ [f]) = cash fs - signedQty f * f.price.raw.toInt := by
  simp only [cash, List.map_append, List.map_cons, List.map_nil, List.sum_append, List.sum_cons,
    List.sum_nil]
  ring

/-! ### One fill -/

section
variable {p : Position} {f : Fill}

/-- An increasing fill and the position point the same way. -/
theorem same_direction (hfit : p.StepFits f) (hinc : p.Increases f = true) :
    (0 ≤ p.qty.toInt ∧ 0 ≤ signedQty f) ∨ (p.qty.toInt ≤ 0 ∧ signedQty f ≤ 0) := by
  have h := isIncreasing_iff.mp hinc
  rw [toInt_signedDelta hfit.delta] at h
  unfold signedQty
  omega

/-- Truncating the mean of nonnegative costs loses a remainder smaller than the
divisor. -/
theorem tdiv_remainder {total n : Int} (ht : 0 ≤ total) (hn : 0 < n) :
    0 ≤ total - n * total.tdiv n ∧ total - n * total.tdiv n ≤ n - 1 := by
  rw [Int.tdiv_eq_ediv_of_nonneg ht]
  have hmod := Int.emod_add_mul_ediv total n
  have hlt := Int.emod_lt_of_pos total hn
  have hnonneg := Int.emod_nonneg total hn.ne'
  omega

/-- **Increasing fill.** The error moves by at most one unit less than the quantity
open afterwards. -/
theorem error_increase (hfit : p.StepFits f) (hf : NonNeg f) (havg : 0 ≤ p.avgEntry.raw.toInt)
    (hinc : p.Increases f = true) (cashFlow : Int) :
    |(p.fillStep f).accountingError (cashFlow - signedQty f * f.price.raw.toInt) -
        p.accountingError cashFlow| ≤ max (|(p.fillStep f).qty.toInt| - 1) 0 := by
  obtain ⟨hreal, hentry⟩ := onFill_increase hfit hinc
  have hqty : (p.fillStep f).qty.toInt = p.qty.toInt + signedQty f := onFill_qty hfit
  have hdir := same_direction hfit hinc
  have hdiff : (p.fillStep f).accountingError (cashFlow - signedQty f * f.price.raw.toInt) -
      p.accountingError cashFlow =
      p.avgEntry.raw.toInt * p.qty.toInt + f.price.raw.toInt * signedQty f -
        (p.qty.toInt + signedQty f) * (p.fillStep f).avgEntry.raw.toInt := by
    have hreal' : (p.fillStep f).realizedPnl = p.realizedPnl := hreal
    unfold accountingError
    rw [hreal', hqty]
    ring
  rw [hdiff, hqty]
  by_cases h0 : p.qty.toInt + signedQty f = 0
  · -- flat before and after: nothing is open, nothing is lost
    have hq : p.qty.toInt = 0 := by omega
    have hs : signedQty f = 0 := by omega
    rw [hq, hs]
    simp
  · have hpos : 0 < |p.qty.toInt + signedQty f| := abs_pos.mpr h0
    have hentry' : (p.fillStep f).avgEntry.raw.toInt =
        (p.avgEntry.raw.toInt * |p.qty.toInt| + f.price.raw.toInt * |signedQty f|).tdiv
          |p.qty.toInt + signedQty f| := hentry.trans (if_neg h0)
    have htotal : 0 ≤ p.avgEntry.raw.toInt * |p.qty.toInt| + f.price.raw.toInt * |signedQty f| :=
      add_nonneg (mul_nonneg havg (abs_nonneg _)) (mul_nonneg hf.2 (abs_nonneg _))
    obtain ⟨hlo, hhi⟩ := tdiv_remainder htotal hpos
    rw [← hentry'] at hlo hhi
    refine le_trans ?_ (le_max_left _ _)
    rw [abs_le]
    rcases hdir with ⟨hq, hs⟩ | ⟨hq, hs⟩
    · rw [abs_of_nonneg hq, abs_of_nonneg hs, abs_of_nonneg (add_nonneg hq hs)] at hlo hhi
      rw [abs_of_nonneg (add_nonneg hq hs)] at hpos ⊢
      refine ⟨?_, hhi⟩
      linarith
    · rw [abs_of_nonpos hq, abs_of_nonpos hs, abs_of_nonpos (add_nonpos hq hs)] at hlo hhi
      rw [abs_of_nonpos (add_nonpos hq hs)] at hpos ⊢
      refine ⟨?_, ?_⟩
      · linarith
      · linarith

/-- A fill that does not increase the position runs against it (or is empty). -/
theorem against_direction (hfit : p.StepFits f) (hinc : p.Increases f = false) :
    (0 < p.qty.toInt ∧ signedQty f ≤ 0) ∨ (p.qty.toInt < 0 ∧ 0 ≤ signedQty f) := by
  have hnot : ¬ isIncreasing p.qty (signedDelta f.side f.qty) = true := by
    unfold Increases at hinc
    simp [hinc]
  rw [isIncreasing_iff, toInt_signedDelta hfit.delta] at hnot
  unfold signedQty
  omega

/-- **Reducing, closing and flipping fills.** They lose nothing. -/
theorem error_reduce (hfit : p.StepFits f) (hinc : p.Increases f = false) (cashFlow : Int) :
    (p.fillStep f).accountingError (cashFlow - signedQty f * f.price.raw.toInt) =
      p.accountingError cashFlow := by
  obtain ⟨hreal, hentry⟩ := onFill_reduce hfit hinc
  have hqty : (p.fillStep f).qty.toInt = p.qty.toInt + signedQty f := onFill_qty hfit
  have hreal' : (p.fillStep f).realizedPnl.raw.toInt = p.realizedPnl.raw.toInt +
      (f.price.raw.toInt - p.avgEntry.raw.toInt) * p.qty.toInt.sign *
        min |signedQty f| |p.qty.toInt| := hreal
  have hentry' : (p.fillStep f).avgEntry.raw.toInt =
      if p.qty.toInt + signedQty f = 0 then 0
      else if (p.qty.toInt + signedQty f).sign ≠ p.qty.toInt.sign then f.price.raw.toInt
      else p.avgEntry.raw.toInt := hentry
  unfold accountingError
  rw [hqty, hreal', hentry']
  generalize hq : p.qty.toInt = q
  generalize hs : signedQty f = s
  have hdir := against_direction hfit hinc
  rw [hq, hs] at hdir
  -- `q` long or short; the fill closes part of it, all of it, or more than all of it
  rcases hdir with ⟨hq0, hs0⟩ | ⟨hq0, hs0⟩
  · rw [abs_of_nonpos hs0, abs_of_pos hq0, Int.sign_eq_one_of_pos hq0]
    rcases lt_trichotomy (q + s) 0 with hn | hn | hn
    · rw [if_neg hn.ne, Int.sign_eq_neg_one_of_neg hn, if_pos (by decide), min_eq_right (by omega)]
      ring
    · obtain rfl : s = -q := by omega
      rw [if_pos hn, min_eq_right (by omega)]
      ring
    · rw [if_neg hn.ne', Int.sign_eq_one_of_pos hn, if_neg (by simp), min_eq_left (by omega)]
      ring
  · rw [abs_of_nonneg hs0, abs_of_neg hq0, Int.sign_eq_neg_one_of_neg hq0]
    rcases lt_trichotomy (q + s) 0 with hn | hn | hn
    · rw [if_neg hn.ne, Int.sign_eq_neg_one_of_neg hn, if_neg (by simp), min_eq_left (by omega)]
      ring
    · obtain rfl : s = -q := by omega
      rw [if_pos hn, min_eq_right (by omega)]
      ring
    · rw [if_neg hn.ne', Int.sign_eq_one_of_pos hn, if_pos (by decide), min_eq_right (by omega)]
      ring

/-- The entry price stays nonnegative. -/
theorem avgEntry_nonneg (hfit : p.StepFits f) (hf : NonNeg f) (havg : 0 ≤ p.avgEntry.raw.toInt) :
    0 ≤ (p.fillStep f).avgEntry.raw.toInt := by
  by_cases hinc : p.Increases f = true
  · have hentry := (onFill_increase hfit hinc).2
    rw [fillStep, hentry]
    split
    · exact le_rfl
    · exact Int.tdiv_nonneg
        (add_nonneg (mul_nonneg havg (abs_nonneg _)) (mul_nonneg hf.2 (abs_nonneg _)))
        (abs_nonneg _)
  · have hentry := (onFill_reduce hfit (Bool.eq_false_iff.mpr hinc)).2
    rw [fillStep, hentry]
    split
    · exact le_rfl
    · split
      · exact hf.2
      · exact havg

end

/-! ### Whole runs -/

/-- The quantity is the sum of the signed fills. -/
theorem qty_run {p : Position} {fs : List Fill} (hfit : AllSteps fillStep StepFits p fs) :
    (run fillStep p fs).qty.toInt = p.qty.toInt + (fs.map signedQty).sum := by
  induction fs generalizing p with
  | nil => simp
  | cons f fs ih =>
      have hqty : (p.fillStep f).qty.toInt = p.qty.toInt + signedQty f := onFill_qty hfit.1
      rw [run_cons, ih hfit.2, hqty, List.map_cons, List.sum_cons]
      ring

/-- The error of a run stays within its rounding budget. -/
theorem error_run {p : Position} {fs : List Fill} (hfs : ∀ f ∈ fs, NonNeg f)
    (hfit : AllSteps fillStep StepFits p fs) (havg : 0 ≤ p.avgEntry.raw.toInt) (cashFlow : Int) :
    |(run fillStep p fs).accountingError (cashFlow + cash fs) - p.accountingError cashFlow| ≤
      roundingBudget p fs := by
  induction fs generalizing p cashFlow with
  | nil => simp [cash, roundingBudget]
  | cons f fs ih =>
      obtain ⟨hstep, hrest⟩ := hfit
      have hf : NonNeg f := hfs f List.mem_cons_self
      have htail := ih (fun g hg => hfs g (List.mem_cons_of_mem f hg)) hrest
        (avgEntry_nonneg hstep hf havg) (cashFlow - signedQty f * f.price.raw.toInt)
      have hcash : cashFlow + cash (f :: fs) =
          cashFlow - signedQty f * f.price.raw.toInt + cash fs := by
        rw [cash_cons]
        ring
      rw [run_cons, hcash, roundingBudget]
      by_cases hinc : p.Increases f = true
      · rw [if_pos hinc]
        have hhead := error_increase hstep hf havg hinc cashFlow
        calc _ ≤ _ := abs_sub_le _
              ((p.fillStep f).accountingError (cashFlow - signedQty f * f.price.raw.toInt)) _
          _ ≤ _ := by linarith
      · rw [if_neg hinc, zero_add]
        rw [error_reduce hstep (Bool.eq_false_iff.mpr hinc) cashFlow] at htail
        exact htail

/-- The operations of `total_pnl` do not overflow. -/
def MarkFits (p : Position) (m : FixedI64 6) : Prop :=
  I64.Fits (m.raw.toInt - p.avgEntry.raw.toInt) ∧
  I64.Fits ((m.raw.toInt - p.avgEntry.raw.toInt) * p.qty.toInt) ∧
  I64.Fits (p.realizedPnl.raw.toInt + (m.raw.toInt - p.avgEntry.raw.toInt) * p.qty.toInt)

/-- Without overflow `total_pnl` is the marked value. -/
theorem totalPnl_eq {p : Position} {m : FixedI64 6} (h : p.MarkFits m) :
    (p.totalPnl m).raw.toInt = p.markedValue m := by
  obtain ⟨hsub, hmul, hadd⟩ := h
  have hdiff : ((m.checkedSub p.avgEntry).getD .zero).raw.toInt =
      m.raw.toInt - p.avgEntry.raw.toInt := FixedI64.raw_getD_checked hsub _
  have hunreal : (p.unrealizedPnl m).raw.toInt =
      (m.raw.toInt - p.avgEntry.raw.toInt) * p.qty.toInt := by
    unfold unrealizedPnl
    split
    · next h0 =>
        rw [h0, Int64.toInt_zero, mul_zero]
        rfl
    · rw [← hdiff]
      exact FixedI64.raw_getD_checked (by rw [hdiff]; exact hmul) _
  have htotal : (p.totalPnl m).raw.toInt =
      p.realizedPnl.raw.toInt + (p.unrealizedPnl m).raw.toInt :=
    FixedI64.raw_getD_checked (by rw [hunreal]; exact hadd) _
  rw [htotal, hunreal, markedValue]
  ring

/-- **Conservation of profit.** For every sequence of nonnegative fills on a new
position in which nothing overflows, and every mid price `m`: the quantity is the sum
of the signed fills; the marked value is within the rounding budget of the exact cash
result; a further fill that reduces, closes or flips leaves the difference exactly as it
was; and `total_pnl` returns the marked value whenever it does not overflow itself. -/
theorem pnl_conserved (i : InstrumentId) (fs : List Fill) (hfs : ∀ f ∈ fs, NonNeg f)
    (hfit : AllSteps fillStep StepFits (new i) fs) (m : FixedI64 6) :
    (run fillStep (new i) fs).qty.toInt = (fs.map signedQty).sum ∧
    |(run fillStep (new i) fs).markedValue m -
        (cash fs + (run fillStep (new i) fs).qty.toInt * m.raw.toInt)| ≤
      roundingBudget (new i) fs ∧
    (∀ f, StepFits (run fillStep (new i) fs) f → (run fillStep (new i) fs).Increases f = false →
      (run fillStep (new i) (fs ++ [f])).markedValue m -
          (cash (fs ++ [f]) + (run fillStep (new i) (fs ++ [f])).qty.toInt * m.raw.toInt) =
        (run fillStep (new i) fs).markedValue m -
          (cash fs + (run fillStep (new i) fs).qty.toInt * m.raw.toInt)) ∧
    ((run fillStep (new i) fs).MarkFits m →
      ((run fillStep (new i) fs).totalPnl m).raw.toInt =
        (run fillStep (new i) fs).markedValue m) := by
  refine ⟨?_, ?_, ?_, totalPnl_eq⟩
  · rw [qty_run hfit]
    simp [new]
  · have havg : (new i).avgEntry.raw.toInt = 0 := rfl
    have hrun := error_run hfs hfit havg.ge 0
    have hstart : (new i).accountingError 0 = 0 := by
      simp [accountingError, new, FixedI64.zero]
    rw [zero_add, hstart, sub_zero] at hrun
    rw [markedValue_sub]
    exact hrun
  · intro f hf hinc
    rw [markedValue_sub, markedValue_sub, run_append, cash_append]
    exact error_reduce hf hinc (cash fs)

/-- Two buys at different prices: the mean `201 / 2` is truncated and one raw unit of
the budget of one is used. -/
theorem pnl_conserved_two_buys :
    |(run fillStep (new 1) [⟨.bid, 1, ⟨100⟩⟩, ⟨.bid, 1, ⟨101⟩⟩]).markedValue ⟨150⟩ -
        (cash [⟨.bid, 1, ⟨100⟩⟩, ⟨.bid, 1, ⟨101⟩⟩] +
          (run fillStep (new 1) [⟨.bid, 1, ⟨100⟩⟩, ⟨.bid, 1, ⟨101⟩⟩]).qty.toInt * 150)| ≤
      roundingBudget (new 1) [⟨.bid, 1, ⟨100⟩⟩, ⟨.bid, 1, ⟨101⟩⟩] := by
  refine (pnl_conserved 1 [⟨.bid, 1, ⟨100⟩⟩, ⟨.bid, 1, ⟨101⟩⟩] ?_ ?_ ⟨150⟩).2.1
  · intro f hf
    simp only [List.mem_cons, List.not_mem_nil, or_false] at hf
    rcases hf with rfl | rfl
    · exact ⟨by decide, by decide⟩
    · exact ⟨by decide, by decide⟩
  · refine ⟨⟨?_, ?_, ?_, ?_, ?_, ?_, ?_⟩, ⟨?_, ?_, ?_, ?_, ?_, ?_, ?_⟩, trivial⟩ <;> decide

end Position

end Mantis
