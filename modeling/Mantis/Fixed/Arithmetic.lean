import Mantis.Types

/-!
# Mantis.Fixed.Arithmetic

Checked and saturating arithmetic of fixed-point amounts (`crates/fixed/src/arithmetic.rs`,
the integer operations of `crates/fixed/src/mul_div.rs`) and of `UsdcAmount`
(`crates/types/src/usdc.rs`), and expressions chained from it.

A checked operation fails by returning `None`. Only `checked_div_int` can do otherwise: it
tests the divisor for zero and then divides with the plain operator, which panics on
`MIN / -1`. A name that ends in `?` returns `none` where the source panics.
-/

namespace Mantis

/-! ### Operations of `FixedI64` -/

namespace FixedI64

variable {D : Nat}

def checkedNeg (x : FixedI64 D) : Option (FixedI64 D) := (I64.checkedNeg x.raw).map mk

def checkedAbs (x : FixedI64 D) : Option (FixedI64 D) := (I64.checkedAbs x.raw).map mk

/-- `checked_div_int`, panics included. -/
def checkedDivInt? (x : FixedI64 D) (rhs : Int64) : Option (Option (FixedI64 D)) :=
  if rhs = 0 then some none else (I64.div? x.raw rhs).map fun quotient => some ⟨quotient⟩

def saturatingSub (x y : FixedI64 D) : FixedI64 D := ⟨I64.saturatingSub x.raw y.raw⟩

def saturatingAbs (x : FixedI64 D) : FixedI64 D := ⟨I64.saturatingAbs x.raw⟩

def saturatingMulInt (x : FixedI64 D) (rhs : Int64) : FixedI64 D := ⟨I64.saturatingMul x.raw rhs⟩

end FixedI64

/-! ### USDC amounts -/

/-- USDC amount with 6 decimal places of precision. -/
structure UsdcAmount where
  inner : FixedI64 6
  deriving DecidableEq, Repr

namespace UsdcAmount

def checkedAdd (x y : UsdcAmount) : Option UsdcAmount := (x.inner.checkedAdd y.inner).map mk

def checkedSub (x y : UsdcAmount) : Option UsdcAmount := (x.inner.checkedSub y.inner).map mk

def checkedNeg (x : UsdcAmount) : Option UsdcAmount := x.inner.checkedNeg.map mk

def checkedAbs (x : UsdcAmount) : Option UsdcAmount := x.inner.checkedAbs.map mk

def checkedMulInt (x : UsdcAmount) (rhs : Int64) : Option UsdcAmount :=
  (x.inner.checkedMulInt rhs).map mk

/-- `checked_div_int`, panics included. -/
def checkedDivInt? (x : UsdcAmount) (rhs : Int64) : Option (Option UsdcAmount) :=
  (x.inner.checkedDivInt? rhs).map (Option.map mk)

end UsdcAmount

/-! ### Expressions -/

/-- The checked operations both kinds of amounts have. -/
class CheckedAmount (α : Type) where
  raw : α → Int64
  checkedAdd : α → α → Option α
  checkedSub : α → α → Option α
  checkedNeg : α → Option α
  checkedAbs : α → Option α
  checkedMulInt : α → Int64 → Option α
  checkedDivInt? : α → Int64 → Option (Option α)

instance (D : Nat) : CheckedAmount (FixedI64 D) where
  raw := FixedI64.raw
  checkedAdd := FixedI64.checkedAdd
  checkedSub := FixedI64.checkedSub
  checkedNeg := FixedI64.checkedNeg
  checkedAbs := FixedI64.checkedAbs
  checkedMulInt := FixedI64.checkedMulInt
  checkedDivInt? := FixedI64.checkedDivInt?

instance : CheckedAmount UsdcAmount where
  raw x := x.inner.raw
  checkedAdd := UsdcAmount.checkedAdd
  checkedSub := UsdcAmount.checkedSub
  checkedNeg := UsdcAmount.checkedNeg
  checkedAbs := UsdcAmount.checkedAbs
  checkedMulInt := UsdcAmount.checkedMulInt
  checkedDivInt? := UsdcAmount.checkedDivInt?

/-- An expression over amounts and `i64` scalars, built from checked operations. -/
inductive AmountExpr (α : Type)
  | value (x : α)
  | checkedAdd (l r : AmountExpr α)
  | checkedSub (l r : AmountExpr α)
  | checkedNeg (e : AmountExpr α)
  | checkedAbs (e : AmountExpr α)
  | checkedMulInt (e : AmountExpr α) (rhs : Int64)
  | checkedDivInt (e : AmountExpr α) (rhs : Int64)

/-- The `?` operator: go on with the value, or return `None`. -/
def andThen {α β : Type} (x : Option (Option α)) (f : α → Option (Option β)) : Option (Option β) :=
  match x with
  | none => none
  | some none => some none
  | some (some a) => f a

namespace AmountExpr

variable {α : Type} [CheckedAmount α]

/-- Evaluate, left to right: `none` is a panic, `some none` the result `None`. -/
def eval : AmountExpr α → Option (Option α)
  | value x => some (some x)
  | checkedAdd l r => andThen l.eval fun x => andThen r.eval fun y =>
      some (CheckedAmount.checkedAdd x y)
  | checkedSub l r => andThen l.eval fun x => andThen r.eval fun y =>
      some (CheckedAmount.checkedSub x y)
  | checkedNeg e => andThen e.eval fun x => some (CheckedAmount.checkedNeg x)
  | checkedAbs e => andThen e.eval fun x => some (CheckedAmount.checkedAbs x)
  | checkedMulInt e rhs => andThen e.eval fun x => some (CheckedAmount.checkedMulInt x rhs)
  | checkedDivInt e rhs => andThen e.eval fun x => CheckedAmount.checkedDivInt? x rhs

/-- An exact integer, if an `i64` can hold it. -/
def within (n : Int) : Option Int := if I64.Fits n then some n else none

/-- A quotient truncated toward zero, if it is defined and an `i64` can hold it. -/
def exactDiv (n : Int) (rhs : Int64) : Option Int :=
  if rhs = 0 then none else within (n.tdiv rhs.toInt)

/-- The exact value of an expression in raw units, if every intermediate result is defined
and within the range. -/
def exact : AmountExpr α → Option Int
  | value x => some (CheckedAmount.raw x).toInt
  | checkedAdd l r => l.exact.bind fun m => r.exact.bind fun n => within (m + n)
  | checkedSub l r => l.exact.bind fun m => r.exact.bind fun n => within (m - n)
  | checkedNeg e => e.exact.bind fun n => within (-n)
  | checkedAbs e => e.exact.bind fun n => within |n|
  | checkedMulInt e rhs => e.exact.bind fun n => within (n * rhs.toInt)
  | checkedDivInt e rhs => e.exact.bind fun n => exactDiv n rhs

/-- Evaluation returns the exact value, and `None` when there is none. -/
def Exact (e : AmountExpr α) : Prop :=
  e.eval.map (Option.map fun x => (CheckedAmount.raw x).toInt) = some e.exact

/-- No division that is reached divides `MIN` by `-1`. -/
def DivisionsSafe : AmountExpr α → Prop
  | value _ => True
  | checkedAdd l r | checkedSub l r => l.DivisionsSafe ∧ (l.exact.isSome → r.DivisionsSafe)
  | checkedNeg e | checkedAbs e | checkedMulInt e _ => e.DivisionsSafe
  | checkedDivInt e rhs => e.DivisionsSafe ∧ ¬ (e.exact = some (-2 ^ 63) ∧ rhs = -1)

end AmountExpr

/-! ### Every operation is exact -/

open AmountExpr (within exactDiv)

/-- The value of a result, in raw units. -/
def rawResult {α : Type} [CheckedAmount α] (x : Option α) : Option Int :=
  x.map fun x => (CheckedAmount.raw x).toInt

/-- Each operation returns its exact result, and `None` where there is none in the range.
Division does so except on `MIN` and `-1`, where it panics. -/
class LawfulCheckedAmount (α : Type) [CheckedAmount α] : Prop where
  checkedAdd : ∀ x y : α, rawResult (CheckedAmount.checkedAdd x y) =
    within ((CheckedAmount.raw x).toInt + (CheckedAmount.raw y).toInt)
  checkedSub : ∀ x y : α, rawResult (CheckedAmount.checkedSub x y) =
    within ((CheckedAmount.raw x).toInt - (CheckedAmount.raw y).toInt)
  checkedNeg : ∀ x : α, rawResult (CheckedAmount.checkedNeg x) =
    within (-(CheckedAmount.raw x).toInt)
  checkedAbs : ∀ x : α, rawResult (CheckedAmount.checkedAbs x) =
    within |(CheckedAmount.raw x).toInt|
  checkedMulInt : ∀ (x : α) (rhs : Int64), rawResult (CheckedAmount.checkedMulInt x rhs) =
    within ((CheckedAmount.raw x).toInt * rhs.toInt)
  checkedDivInt : ∀ (x : α) (rhs : Int64),
    (CheckedAmount.checkedDivInt? x rhs).map rawResult =
        some (exactDiv (CheckedAmount.raw x).toInt rhs) ↔
      ¬ ((CheckedAmount.raw x).toInt = -2 ^ 63 ∧ rhs = -1)
  panics : ∀ (x : α) (rhs : Int64), (CheckedAmount.raw x).toInt = -2 ^ 63 → rhs = -1 →
    CheckedAmount.checkedDivInt? x rhs = none

/-- The result of a checked operation on raw values. -/
theorem checked_toInt (n : Int) : (I64.checked n).map Int64.toInt = within n := by
  unfold within
  split
  · next h => rw [I64.checked_of_fits h, Option.map_some, I64.toInt_ofInt h]
  · next h => rw [I64.checked_eq_none.mpr h, Option.map_none]

theorem div?_exact_iff (a rhs : Int64) :
    (if rhs = 0 then some none else (I64.div? a rhs).map fun q => some q.toInt) =
        some (exactDiv a.toInt rhs) ↔
      ¬ (a.toInt = -2 ^ 63 ∧ rhs = -1) := by
  unfold exactDiv I64.div?
  by_cases h0 : rhs = 0
  · subst h0
    refine iff_of_true rfl ?_
    rintro ⟨-, h⟩
    exact absurd h (by decide)
  · have hone : rhs = -1 ↔ rhs.toInt = -1 := Int64.toInt_inj.symm
    simp only [if_neg h0]
    rw [hone, ← I64.fits_tdiv_iff]
    by_cases hfits : I64.Fits (a.toInt.tdiv rhs.toInt)
    · simp [I64.checked_of_fits hfits, within, hfits, I64.toInt_ofInt hfits]
    · simp [I64.checked_eq_none.mpr hfits, hfits]

instance (D : Nat) : LawfulCheckedAmount (FixedI64 D) where
  checkedAdd x y := (Option.map_map ..).trans (checked_toInt _)
  checkedSub x y := (Option.map_map ..).trans (checked_toInt _)
  checkedNeg x := (Option.map_map ..).trans (checked_toInt _)
  checkedAbs x := (Option.map_map ..).trans (checked_toInt _)
  checkedMulInt x rhs := (Option.map_map ..).trans (checked_toInt _)
  checkedDivInt x rhs := by
    have hraw : (x.checkedDivInt? rhs).map rawResult =
        if rhs = 0 then some none else (I64.div? x.raw rhs).map fun q => some q.toInt := by
      unfold FixedI64.checkedDivInt?
      split
      · rfl
      · exact Option.map_map ..
    exact hraw ▸ div?_exact_iff x.raw rhs
  panics x rhs hx hrhs := by
    have hpanic : I64.div? x.raw (-1) = none := by
      rw [I64.div?, if_neg (by decide), I64.checked_eq_none, I64.fits_tdiv_iff, not_not]
      exact ⟨hx, by decide⟩
    subst hrhs
    show x.checkedDivInt? (-1) = none
    rw [FixedI64.checkedDivInt?, if_neg (by decide), hpanic]
    rfl

/-- Wrapping an amount changes none of its results. -/
instance : LawfulCheckedAmount UsdcAmount where
  checkedAdd x y := (Option.map_map ..).trans (LawfulCheckedAmount.checkedAdd x.inner y.inner)
  checkedSub x y := (Option.map_map ..).trans (LawfulCheckedAmount.checkedSub x.inner y.inner)
  checkedNeg x := (Option.map_map ..).trans (LawfulCheckedAmount.checkedNeg x.inner)
  checkedAbs x := (Option.map_map ..).trans (LawfulCheckedAmount.checkedAbs x.inner)
  checkedMulInt x rhs :=
    (Option.map_map ..).trans (LawfulCheckedAmount.checkedMulInt x.inner rhs)
  checkedDivInt x rhs := by
    have hinner : (x.checkedDivInt? rhs).map rawResult =
        (x.inner.checkedDivInt? rhs).map rawResult := by
      show ((x.inner.checkedDivInt? rhs).map _).map _ = _
      rw [Option.map_map]
      exact congrArg (Option.map · _) (funext fun _ => Option.map_map ..)
    exact hinner ▸ LawfulCheckedAmount.checkedDivInt x.inner rhs
  panics x rhs hx hrhs :=
    congrArg (Option.map (Option.map UsdcAmount.mk)) (LawfulCheckedAmount.panics x.inner rhs hx hrhs)

/-! ### Expressions are exact -/

namespace AmountExpr

variable {α : Type} [CheckedAmount α]

/-- Exact evaluation ends in `None` or in the exact value. -/
theorem Exact.cases {e : AmountExpr α} (h : e.Exact) :
    (e.eval = some none ∧ e.exact = none) ∨
      ∃ x, e.eval = some (some x) ∧ e.exact = some (CheckedAmount.raw x).toInt := by
  unfold Exact at h
  cases heval : e.eval with
  | none =>
      rw [heval] at h
      cases h
  | some result =>
      rw [heval, Option.map_some, Option.some.injEq] at h
      cases result with
      | none => exact Or.inl ⟨rfl, h.symm⟩
      | some x => exact Or.inr ⟨x, rfl, h.symm⟩

theorem Exact.eval_ne_none {e : AmountExpr α} (h : e.Exact) : e.eval ≠ none := by
  intro hpanic
  rw [Exact, hpanic] at h
  cases h

/-- Going on from an exact value: `f` has to be exact at that value. -/
theorem Exact.andThen {e : AmountExpr α} (h : e.Exact) {f : α → Option (Option α)}
    {g : Int → Option Int}
    (hf : ∀ x, e.exact = some (CheckedAmount.raw x).toInt →
      (f x).map rawResult = some (g (CheckedAmount.raw x).toInt)) :
    (Mantis.andThen e.eval f).map rawResult = some (e.exact.bind g) := by
  rcases h.cases with ⟨heval, hexact⟩ | ⟨x, heval, hexact⟩
  · rw [heval, hexact]
    rfl
  · rw [heval, hexact]
    exact hf x hexact

/-- Both operands of an exact operation, the left one first. -/
theorem Exact.andThen₂ {l r : AmountExpr α} (hl : l.Exact) (hr : l.exact.isSome → r.Exact)
    {f : α → α → Option α} {g : Int → Int → Option Int}
    (hf : ∀ x y, rawResult (f x y) =
      g (CheckedAmount.raw x).toInt (CheckedAmount.raw y).toInt) :
    (Mantis.andThen l.eval fun x => Mantis.andThen r.eval fun y => some (f x y)).map rawResult =
      some (l.exact.bind fun m => r.exact.bind fun n => g m n) := by
  refine hl.andThen fun x hx => ?_
  refine (hr (by rw [hx]; rfl)).andThen fun y _ => ?_
  exact congrArg some (hf x y)

variable [LawfulCheckedAmount α]

/-- Without a bad division, evaluation is exact. -/
theorem exact_of_divisionsSafe {e : AmountExpr α} (h : e.DivisionsSafe) : e.Exact := by
  induction e with
  | value x => rfl
  | checkedAdd l r ihl ihr =>
      exact (ihl h.1).andThen₂ (fun hl => ihr (h.2 hl)) (g := fun m n => within (m + n))
        LawfulCheckedAmount.checkedAdd
  | checkedSub l r ihl ihr =>
      exact (ihl h.1).andThen₂ (fun hl => ihr (h.2 hl)) (g := fun m n => within (m - n))
        LawfulCheckedAmount.checkedSub
  | checkedNeg e ih =>
      exact (ih h).andThen (g := fun n => within (-n)) fun x _ =>
        congrArg some (LawfulCheckedAmount.checkedNeg x)
  | checkedAbs e ih =>
      exact (ih h).andThen (g := fun n => within |n|) fun x _ =>
        congrArg some (LawfulCheckedAmount.checkedAbs x)
  | checkedMulInt e rhs ih =>
      exact (ih h).andThen (g := fun n => within (n * rhs.toInt)) fun x _ =>
        congrArg some (LawfulCheckedAmount.checkedMulInt x rhs)
  | checkedDivInt e rhs ih =>
      refine (ih h.1).andThen (g := fun n => exactDiv n rhs) ?_
      intro x hx
      refine (LawfulCheckedAmount.checkedDivInt x rhs).mpr fun hbad => h.2 ⟨?_, hbad.2⟩
      rw [hx, hbad.1]

/-- The operand that panics is evaluated. -/
theorem andThen_operands {l r : AmountExpr α} (f : α → α → Option (Option α))
    (hl : ¬ l.DivisionsSafe → l.eval = none) (hr : ¬ r.DivisionsSafe → r.eval = none)
    (h : ¬ (l.DivisionsSafe ∧ (l.exact.isSome → r.DivisionsSafe))) :
    (andThen l.eval fun x => andThen r.eval fun y => f x y) = none := by
  by_cases hsafe : l.DivisionsSafe
  · obtain ⟨hsome, hbad⟩ : l.exact.isSome ∧ ¬ r.DivisionsSafe := by
      by_contra hnot
      exact h ⟨hsafe, fun hsome => by_contra fun hbad => hnot ⟨hsome, hbad⟩⟩
    rcases (exact_of_divisionsSafe hsafe).cases with ⟨-, hnone⟩ | ⟨x, heval, -⟩
    · rw [hnone] at hsome
      cases hsome
    · rw [heval]
      exact congrArg (andThen · _) (hr hbad)
  · exact congrArg (andThen · _) (hl hsafe)

/-- A bad division that is reached panics, and so does everything around it. -/
theorem eval_of_not_divisionsSafe {e : AmountExpr α} (h : ¬ e.DivisionsSafe) : e.eval = none := by
  induction e with
  | value x => exact absurd trivial h
  | checkedAdd l r ihl ihr =>
      exact andThen_operands (fun x y => some (CheckedAmount.checkedAdd x y)) ihl ihr h
  | checkedSub l r ihl ihr =>
      exact andThen_operands (fun x y => some (CheckedAmount.checkedSub x y)) ihl ihr h
  | checkedNeg e ih => exact congrArg (andThen · _) (ih h)
  | checkedAbs e ih => exact congrArg (andThen · _) (ih h)
  | checkedMulInt e rhs ih => exact congrArg (andThen · _) (ih h)
  | checkedDivInt e rhs ih =>
      by_cases he : e.DivisionsSafe
      · obtain ⟨hmin, hrhs⟩ : e.exact = some (-2 ^ 63) ∧ rhs = -1 := by
          by_contra hbad
          exact h ⟨he, hbad⟩
        rcases (exact_of_divisionsSafe he).cases with ⟨-, hnone⟩ | ⟨x, heval, hexact⟩
        · cases hnone.symm.trans hmin
        · have hraw := Option.some.inj (hexact.symm.trans hmin)
          show andThen e.eval _ = none
          rw [heval]
          exact LawfulCheckedAmount.panics x rhs hraw hrhs
      · exact congrArg (andThen · _) (ih he)

theorem exact_iff_divisionsSafe (e : AmountExpr α) : e.Exact ↔ e.DivisionsSafe := by
  refine ⟨fun h => ?_, exact_of_divisionsSafe⟩
  by_contra hbad
  exact h.eval_ne_none (eval_of_not_divisionsSafe hbad)

end AmountExpr

/-- The saturating operations clamp the exact result to the range. -/
structure FixedI64.Saturates (D : Nat) : Prop where
  add : ∀ x y : FixedI64 D,
    (x.saturatingAdd y).raw.toInt = max (-2 ^ 63) (min (x.raw.toInt + y.raw.toInt) (2 ^ 63 - 1))
  sub : ∀ x y : FixedI64 D,
    (x.saturatingSub y).raw.toInt = max (-2 ^ 63) (min (x.raw.toInt - y.raw.toInt) (2 ^ 63 - 1))
  abs : ∀ x : FixedI64 D,
    x.saturatingAbs.raw.toInt = max (-2 ^ 63) (min |x.raw.toInt| (2 ^ 63 - 1))
  mulInt : ∀ (x : FixedI64 D) (rhs : Int64),
    (x.saturatingMulInt rhs).raw.toInt = max (-2 ^ 63) (min (x.raw.toInt * rhs.toInt) (2 ^ 63 - 1))

theorem FixedI64.saturates (D : Nat) : FixedI64.Saturates D where
  add _ _ := I64.toInt_ofInt (I64.fits_clamp _)
  sub _ _ := I64.toInt_ofInt (I64.fits_clamp _)
  abs x := I64.toInt_saturatingAbs x.raw
  mulInt _ _ := I64.toInt_ofInt (I64.fits_clamp _)

/-- **Exact condition for checked amounts.** At every scale, and for `UsdcAmount`, every
checked operation returns its exact result or `None`, except that dividing `MIN` by `-1`
panics; so an expression evaluates to its exact value, or to `None` where there is none,
if and only if it does not reach such a division. The saturating operations clamp. -/
theorem checked_amounts_iff (D : Nat) :
    LawfulCheckedAmount (FixedI64 D) ∧ LawfulCheckedAmount UsdcAmount ∧
    (∀ e : AmountExpr (FixedI64 D), e.Exact ↔ e.DivisionsSafe) ∧
    (∀ e : AmountExpr UsdcAmount, e.Exact ↔ e.DivisionsSafe) ∧
    FixedI64.Saturates D :=
  ⟨inferInstance, inferInstance, AmountExpr.exact_iff_divisionsSafe,
    AmountExpr.exact_iff_divisionsSafe, FixedI64.saturates D⟩

/-- `MIN / -1` has no `i64` result, yet `checked_div_int` does not return `None`. -/
theorem min_div_neg_one_panics :
    (⟨Int64.minValue⟩ : FixedI64 6).checkedDivInt? (-1) = none ∧
    exactDiv (Int64.minValue).toInt (-1) = none ∧
    ¬ (AmountExpr.checkedDivInt (.value (⟨Int64.minValue⟩ : FixedI64 6)) (-1)).Exact ∧
    ¬ (AmountExpr.checkedDivInt (.value (⟨⟨Int64.minValue⟩⟩ : UsdcAmount)) (-1)).Exact := by
  refine ⟨by decide, by decide, fun h => ?_, fun h => ?_⟩
  · exact h.eval_ne_none (by decide)
  · exact h.eval_ne_none (by decide)

end Mantis
