import Mantis.Lib.Limbs
import Mantis.Platform.ConstantTime

/-!
# Mantis.Platform.ExtendedPrec

Multi-limb arithmetic: the carry and borrow of `intrinsics/addcarry_subborrow.rs`, and the
widening products and three-limb accumulators of `intrinsics/extended_prec.rs`. Every
function of the source has a 32-bit and a 64-bit form with one body, which widens to twice
the width; it is written here at any width.
-/

namespace Mantis

open Limbs

/-- Carry flag for addition chains. -/
abbrev Carry := Ct 8

/-- Borrow flag for subtraction chains. -/
abbrev Borrow := Ct 8

namespace Ct

variable {w : Nat}

/-- The operand widened to `u64` or `u128`. -/
def wide {v : Nat} (w : Nat) (x : Ct v) : BitVec (2 * w) := x.inner.setWidth (2 * w)

/-! ### Carry and borrow -/

/-- `(sum, carry_out) <- self + rhs + carry_in`. -/
def addC (x y : Ct w) (carryIn : Carry) : Ct w × Carry :=
  let sum := x.wide w + y.wide w + carryIn.wide w
  (⟨sum.setWidth w⟩, ⟨(sum >>> w).setWidth 8⟩)

/-- `(diff, borrow_out) <- self - rhs - borrow_in`. -/
def subB (x y : Ct w) (borrowIn : Borrow) : Ct w × Borrow :=
  let diff := x.wide w - y.wide w - borrowIn.wide w
  (⟨diff.setWidth w⟩, ⟨((diff >>> w) &&& 1).setWidth 8⟩)

/-! ### Widening products -/

/-- The halves of a widened result, high first. -/
def halves (r : BitVec (2 * w)) : Ct w × Ct w := (⟨(r >>> w).setWidth w⟩, ⟨r.setWidth w⟩)

def wideMul (x y : Ct w) : Ct w × Ct w := halves (x.wide w * y.wide w)

def muladd1 (x y c : Ct w) : Ct w × Ct w := halves (x.wide w * y.wide w + c.wide w)

def muladd2 (x y c1 c2 : Ct w) : Ct w × Ct w :=
  halves (x.wide w * y.wide w + c1.wide w + c2.wide w)

end Ct

/-! ### Exactness of one limb -/

namespace Ct

variable {w : Nat}

theorem toNat_wide {v : Nat} {x : Ct v} (h : x.inner.toNat < 2 ^ (2 * w)) :
    (x.wide w).toNat = x.inner.toNat := by
  rw [wide, BitVec.toNat_setWidth, Nat.mod_eq_of_lt h]

theorem two_pow_double (w : Nat) : 2 ^ (2 * w) = 2 ^ w * 2 ^ w := by
  rw [Nat.two_mul, Nat.pow_add]

theorem double_le_two_pow (hw : 0 < w) : 2 * 2 ^ w ≤ 2 ^ (2 * w) := by
  rw [two_pow_double]
  exact Nat.mul_le_mul_right _ (Nat.le_self_pow hw.ne' 2)

theorem toNat_wide_word (hw : 0 < w) (x : Ct w) : (x.wide w).toNat = x.inner.toNat := by
  have hx := x.inner.isLt
  have hdouble := double_le_two_pow hw
  exact toNat_wide (by omega)

theorem toNat_wide_flag (hw : 0 < w) {c : Ct 8} (hc : c.inner.toNat ≤ 1) :
    (c.wide w).toNat = c.inner.toNat := by
  have hpos := Nat.two_pow_pos w
  have hdouble := double_le_two_pow hw
  exact toNat_wide (by omega)

/-- The sum and the carry hold the exact sum, and the carry stays a bit. -/
theorem addC_exact (hw : 0 < w) (x y : Ct w) {c : Carry} (hc : c.inner.toNat ≤ 1) :
    (x.addC y c).1.inner.toNat + 2 ^ w * (x.addC y c).2.inner.toNat =
        x.inner.toNat + y.inner.toNat + c.inner.toNat ∧
      (x.addC y c).2.inner.toNat ≤ 1 := by
  have hx := x.inner.isLt
  have hy := y.inner.isLt
  have hdouble := double_le_two_pow hw
  have hsum : (x.wide w + y.wide w + c.wide w).toNat =
      x.inner.toNat + y.inner.toNat + c.inner.toNat := by
    rw [BitVec.toNat_add, BitVec.toNat_add, toNat_wide_word hw, toNat_wide_word hw,
      toNat_wide_flag hw hc, Nat.mod_add_mod, Nat.mod_eq_of_lt (by omega)]
  have hlo : (x.addC y c).1.inner.toNat =
      (x.inner.toNat + y.inner.toNat + c.inner.toNat) % 2 ^ w := by
    rw [← hsum]
    exact BitVec.toNat_setWidth ..
  have hbit : (x.inner.toNat + y.inner.toNat + c.inner.toNat) / 2 ^ w < 2 := by
    rw [Nat.div_lt_iff_lt_mul (Nat.two_pow_pos w)]
    omega
  have hhi : (x.addC y c).2.inner.toNat =
      (x.inner.toNat + y.inner.toNat + c.inner.toNat) / 2 ^ w := by
    show (((x.wide w + y.wide w + c.wide w) >>> w).setWidth 8).toNat = _
    rw [BitVec.toNat_setWidth, BitVec.toNat_ushiftRight, hsum, Nat.shiftRight_eq_div_pow]
    exact Nat.mod_eq_of_lt (by omega)
  rw [hlo, hhi]
  exact ⟨Nat.mod_add_div _ _, Nat.le_of_lt_succ hbit⟩

/-- The halves and their weights give back the widened number. -/
theorem halves_exact (r : BitVec (2 * w)) :
    (halves r).1.inner.toNat * 2 ^ w + (halves r).2.inner.toNat = r.toNat := by
  have hr := r.isLt
  rw [two_pow_double] at hr
  have hhi : (halves r).1.inner.toNat = r.toNat / 2 ^ w := by
    show ((r >>> w).setWidth w).toNat = _
    rw [BitVec.toNat_setWidth, BitVec.toNat_ushiftRight, Nat.shiftRight_eq_div_pow,
      Nat.mod_eq_of_lt (Nat.div_lt_of_lt_mul hr)]
  have hlo : (halves r).2.inner.toNat = r.toNat % 2 ^ w := BitVec.toNat_setWidth ..
  rw [hhi, hlo]
  exact Nat.div_add_mod' _ _

/-- Two maximum words added to the largest product still fit the widened type. -/
theorem mul_add_add_lt (x y c1 c2 : Ct w) :
    x.inner.toNat * y.inner.toNat + c1.inner.toNat + c2.inner.toNat < 2 ^ (2 * w) := by
  have h1 := c1.inner.isLt
  have h2 := c2.inner.isLt
  obtain ⟨m, hm⟩ : ∃ m, 2 ^ w = m + 1 := ⟨2 ^ w - 1, (Nat.sub_add_cancel (Nat.two_pow_pos w)).symm⟩
  have hprod : x.inner.toNat * y.inner.toNat ≤ m * m :=
    Nat.mul_le_mul (by have := x.inner.isLt; omega) (by have := y.inner.isLt; omega)
  rw [two_pow_double, hm]
  nlinarith

theorem wideMul_exact (hw : 0 < w) (x y : Ct w) :
    (x.wideMul y).1.inner.toNat * 2 ^ w + (x.wideMul y).2.inner.toNat =
      x.inner.toNat * y.inner.toNat := by
  have hlt := mul_add_add_lt x y ⟨0⟩ ⟨0⟩
  rw [wideMul, halves_exact, BitVec.toNat_mul, toNat_wide_word hw, toNat_wide_word hw]
  exact Nat.mod_eq_of_lt (by simpa using hlt)

theorem muladd1_exact (hw : 0 < w) (x y c : Ct w) :
    (x.muladd1 y c).1.inner.toNat * 2 ^ w + (x.muladd1 y c).2.inner.toNat =
      x.inner.toNat * y.inner.toNat + c.inner.toNat := by
  have hlt := mul_add_add_lt x y c ⟨0⟩
  rw [muladd1, halves_exact, BitVec.toNat_add, BitVec.toNat_mul, toNat_wide_word hw,
    toNat_wide_word hw, toNat_wide_word hw, Nat.mod_add_mod]
  exact Nat.mod_eq_of_lt (by simpa using hlt)

theorem muladd2_exact (hw : 0 < w) (x y c1 c2 : Ct w) :
    (x.muladd2 y c1 c2).1.inner.toNat * 2 ^ w + (x.muladd2 y c1 c2).2.inner.toNat =
      x.inner.toNat * y.inner.toNat + c1.inner.toNat + c2.inner.toNat := by
  rw [muladd2, halves_exact, BitVec.toNat_add, BitVec.toNat_add, BitVec.toNat_mul,
    toNat_wide_word hw, toNat_wide_word hw, toNat_wide_word hw, toNat_wide_word hw,
    Nat.mod_add_mod, Nat.add_assoc, Nat.mod_add_mod, ← Nat.add_assoc]
  exact Nat.mod_eq_of_lt (mul_add_add_lt x y c1 c2)

/-- The widened difference: exact, or short of a full turn by what is missing. -/
theorem toNat_wide_sub (hw : 0 < w) (x y : Ct w) {b : Borrow} (hb : b.inner.toNat ≤ 1) :
    (x.wide w - y.wide w - b.wide w).toNat =
      if y.inner.toNat + b.inner.toNat ≤ x.inner.toNat then
        x.inner.toNat - (y.inner.toNat + b.inner.toNat)
      else 2 ^ (2 * w) - (y.inner.toNat + b.inner.toNat - x.inner.toNat) := by
  have hx := x.inner.isLt
  have hy := y.inner.isLt
  have hdouble := double_le_two_pow hw
  rw [BitVec.toNat_sub, BitVec.toNat_sub, toNat_wide_word hw, toNat_wide_word hw,
    toNat_wide_flag hw hb, Nat.add_mod_mod]
  generalize 2 ^ (2 * w) = turn at *
  by_cases h : y.inner.toNat + b.inner.toNat ≤ x.inner.toNat
  · have hturns : turn - b.inner.toNat + (turn - y.inner.toNat + x.inner.toNat) =
        x.inner.toNat - (y.inner.toNat + b.inner.toNat) + turn + turn := by omega
    rw [if_pos h, hturns, Nat.add_mod_right, Nat.add_mod_right, Nat.mod_eq_of_lt (by omega)]
  · have hturns : turn - b.inner.toNat + (turn - y.inner.toNat + x.inner.toNat) =
        turn - (y.inner.toNat + b.inner.toNat - x.inner.toNat) + turn := by omega
    rw [if_neg h, hturns, Nat.add_mod_right, Nat.mod_eq_of_lt (by omega)]

/-- The difference and the borrow hold the exact difference, and the borrow stays a bit. -/
theorem subB_exact (hw : 0 < w) (x y : Ct w) {b : Borrow} (hb : b.inner.toNat ≤ 1) :
    (x.subB y b).1.inner.toNat + (y.inner.toNat + b.inner.toNat) =
        x.inner.toNat + 2 ^ w * (x.subB y b).2.inner.toNat ∧
      (x.subB y b).2.inner.toNat ≤ 1 := by
  have hx := x.inner.isLt
  have hy := y.inner.isLt
  have hwide := toNat_wide_sub hw x y hb
  have hlo : (x.subB y b).1.inner.toNat = (x.wide w - y.wide w - b.wide w).toNat % 2 ^ w :=
    BitVec.toNat_setWidth ..
  have hhi : (x.subB y b).2.inner.toNat = (x.wide w - y.wide w - b.wide w).toNat / 2 ^ w % 2 := by
    show ((((x.wide w - y.wide w - b.wide w) >>> w) &&& 1).setWidth 8).toNat = _
    have hone : (1 : BitVec (2 * w)).toNat = 1 :=
      Nat.mod_eq_of_lt (Nat.one_lt_two_pow (by omega))
    rw [BitVec.toNat_setWidth, BitVec.toNat_and, hone, Nat.and_one_is_mod,
      BitVec.toNat_ushiftRight, Nat.shiftRight_eq_div_pow]
    exact Nat.mod_eq_of_lt (Nat.lt_trans (Nat.mod_lt _ (by decide)) (by decide))
  rw [hlo, hhi, hwide]
  by_cases h : y.inner.toNat + b.inner.toNat ≤ x.inner.toNat
  · rw [if_pos h, Nat.div_eq_of_lt (by omega), Nat.mod_eq_of_lt (by omega)]
    omega
  · -- The high half of the wrapped difference is all ones, so its low bit is set.
    have hones : (2 ^ w - 1) % 2 = 1 := by simp [Nat.two_pow_sub_one_mod_two, hw]
    have hhigh : (2 ^ w - 1) * 2 ^ w + 2 ^ w = 2 ^ (2 * w) := by
      rw [two_pow_double, ← Nat.succ_mul, Nat.succ_eq_add_one,
        Nat.sub_add_cancel (Nat.two_pow_pos w)]
    have hsplit : 2 ^ (2 * w) - (y.inner.toNat + b.inner.toNat - x.inner.toNat) =
        2 ^ w - (y.inner.toNat + b.inner.toNat - x.inner.toNat) + (2 ^ w - 1) * 2 ^ w := by omega
    rw [if_neg h, hsplit, Nat.add_mul_mod_self_right,
      Nat.add_mul_div_right _ _ (Nat.two_pow_pos w), Nat.div_eq_of_lt (by omega),
      Nat.mod_eq_of_lt (by omega), Nat.zero_add, hones]
    omega

end Ct

/-! ### Accumulators -/

/-- The three-limb accumulator `(t, u, v)`, `v` the low limb. -/
@[ext]
structure ThreeLimbs (w : Nat) where
  t : Ct w
  u : Ct w
  v : Ct w
  deriving DecidableEq, Repr

namespace ThreeLimbs

variable {w : Nat}

/-- The body of `mul_acc` and `mul_acc32`. -/
def accumulate (acc : ThreeLimbs w) (a b : Ct w) : ThreeLimbs w :=
  let (uvHi, uvLo) := a.wideMul b
  let (v, carry) := acc.v.addC uvLo ⟨0⟩
  let (u, carry) := acc.u.addC uvHi carry
  { t := acc.t + ⟨carry.inner.setWidth w⟩, u, v }

/-- The body of `mul_double_acc` and `mul_double_acc32`. -/
def accumulateDouble (acc : ThreeLimbs w) (a b : Ct w) : ThreeLimbs w :=
  let (uvHi, uvLo) := a.wideMul b
  let (uvLoD, carryLo) := uvLo.addC uvLo ⟨0⟩
  let (uvHiD, carryHi) := uvHi.addC uvHi carryLo
  let t := acc.t + ⟨carryHi.inner.setWidth w⟩
  let (v, carry) := acc.v.addC uvLoD ⟨0⟩
  let (u, carry) := acc.u.addC uvHiD carry
  { t := t + ⟨carry.inner.setWidth w⟩, u, v }

def mulAcc (acc : ThreeLimbs 64) (a b : Ct 64) : ThreeLimbs 64 := acc.accumulate a b

def mulAcc32 (acc : ThreeLimbs 32) (a b : Ct 32) : ThreeLimbs 32 := acc.accumulate a b

def mulDoubleAcc (acc : ThreeLimbs 64) (a b : Ct 64) : ThreeLimbs 64 :=
  acc.accumulateDouble a b

def mulDoubleAcc32 (acc : ThreeLimbs 32) (a b : Ct 32) : ThreeLimbs 32 :=
  acc.accumulateDouble a b

/-! ### Exactness of the accumulators -/

/-- The number an accumulator holds. -/
def value (acc : ThreeLimbs w) : Nat := Limbs.value [acc.v.inner, acc.u.inner, acc.t.inner]

theorem value_eq (acc : ThreeLimbs w) :
    acc.value =
      acc.v.inner.toNat + 2 ^ w * (acc.u.inner.toNat + 2 ^ w * acc.t.inner.toNat) := by
  simp [value]

theorem value_lt (hw : 0 < w) (acc : ThreeLimbs w) : acc.value < 2 ^ (w * 3) :=
  Limbs.value_lt hw _

theorem eq_of_value_eq (hw : 0 < w) {acc acc' : ThreeLimbs w} (h : acc.value = acc'.value) :
    acc = acc' := by
  have hlimbs := Limbs.eq_of_value_eq hw (by rfl) h
  simp only [List.cons.injEq, and_true] at hlimbs
  obtain ⟨hv, hu, ht⟩ := hlimbs
  exact ThreeLimbs.ext (Ct.ext ht) (Ct.ext hu) (Ct.ext hv)

/-- A carry into the top limb. -/
def bump (acc : ThreeLimbs w) (carry : Carry) : ThreeLimbs w :=
  { acc with t := acc.t + ⟨carry.inner.setWidth w⟩ }

/-- A pair of words into the low limbs, with its carry into the top limb. -/
def addPair (acc : ThreeLimbs w) (hi lo : Ct w) : ThreeLimbs w :=
  let (v, carry) := acc.v.addC lo ⟨0⟩
  let (u, carry) := acc.u.addC hi carry
  bump { acc with u, v } carry

theorem accumulate_eq (acc : ThreeLimbs w) (a b : Ct w) :
    acc.accumulate a b = acc.addPair (a.wideMul b).1 (a.wideMul b).2 := rfl

theorem accumulateDouble_eq (acc : ThreeLimbs w) (a b : Ct w) :
    acc.accumulateDouble a b =
      let (uvHi, uvLo) := a.wideMul b
      let (uvLoD, carryLo) := uvLo.addC uvLo ⟨0⟩
      let (uvHiD, carryHi) := uvHi.addC uvHi carryLo
      (acc.bump carryHi).addPair uvHiD uvLoD := rfl

theorem bump_value (hw : 0 < w) (acc : ThreeLimbs w) (carry : Carry) :
    (acc.bump carry).value = (acc.value + carry.inner.toNat * 2 ^ (w * 2)) % 2 ^ (w * 3) := by
  have htop : (acc.bump carry).t.inner.toNat =
      (acc.t.inner.toNat + carry.inner.toNat) % 2 ^ w := by
    show (acc.t.inner + carry.inner.setWidth w).toNat = _
    rw [BitVec.toNat_add, BitVec.toNat_setWidth, Nat.add_mod_mod]
  have hdiv := Nat.mod_add_div (acc.t.inner.toNat + carry.inner.toNat) (2 ^ w)
  have hturn : acc.value + carry.inner.toNat * 2 ^ (w * 2) =
      (acc.bump carry).value +
        2 ^ (w * 3) * ((acc.t.inner.toNat + carry.inner.toNat) / 2 ^ w) := by
    rw [value_eq, value_eq, htop]
    show _ = acc.v.inner.toNat + 2 ^ w * (acc.u.inner.toNat + _) + _
    linear_combination 2 ^ w * 2 ^ w * hdiv.symm
  rw [hturn, Nat.add_mul_mod_self_left, Nat.mod_eq_of_lt (value_lt hw _)]

theorem addPair_value (hw : 0 < w) (acc : ThreeLimbs w) (hi lo : Ct w) :
    (acc.addPair hi lo).value =
      (acc.value + (hi.inner.toNat * 2 ^ w + lo.inner.toNat)) % 2 ^ (w * 3) := by
  obtain ⟨hv, hcarry⟩ := Ct.addC_exact hw acc.v lo (c := ⟨0⟩) (Nat.zero_le 1)
  obtain ⟨hu, -⟩ := Ct.addC_exact hw acc.u hi hcarry
  have hzero : (0 : BitVec 8).toNat = 0 := rfl
  simp only [addPair, bump_value hw]
  congr 1
  rw [value_eq, value_eq]
  dsimp only
  rw [hzero, Nat.add_zero] at hv
  linear_combination hv + 2 ^ w * hu

/-- A product is accumulated modulo three limbs. -/
theorem accumulate_value (hw : 0 < w) (acc : ThreeLimbs w) (a b : Ct w) :
    (acc.accumulate a b).value =
      (acc.value + a.inner.toNat * b.inner.toNat) % 2 ^ (w * 3) := by
  rw [accumulate_eq, addPair_value hw, Ct.wideMul_exact hw]

/-- The bit that leaves the doubled product reaches the top limb. -/
theorem accumulateDouble_value (hw : 0 < w) (acc : ThreeLimbs w) (a b : Ct w) :
    (acc.accumulateDouble a b).value =
      (acc.value + 2 * (a.inner.toNat * b.inner.toNat)) % 2 ^ (w * 3) := by
  have hproduct := Ct.wideMul_exact hw a b
  obtain ⟨hlo, hcarry⟩ :=
    Ct.addC_exact hw (a.wideMul b).2 (a.wideMul b).2 (c := ⟨0⟩) (Nat.zero_le 1)
  obtain ⟨hhi, -⟩ := Ct.addC_exact hw (a.wideMul b).1 (a.wideMul b).1 hcarry
  have hzero : (0 : BitVec 8).toNat = 0 := rfl
  rw [hzero, Nat.add_zero] at hlo
  rw [accumulateDouble_eq]
  simp only [addPair_value hw, bump_value hw, Nat.mod_add_mod]
  congr 1
  linear_combination hlo + 2 ^ w * hhi + 2 * hproduct

theorem accumulateDouble_eq_twice (hw : 0 < w) (acc : ThreeLimbs w) (a b : Ct w) :
    acc.accumulateDouble a b = (acc.accumulate a b).accumulate a b := by
  apply eq_of_value_eq hw
  rw [accumulateDouble_value hw, accumulate_value hw, accumulate_value hw, Nat.mod_add_mod,
    Nat.two_mul, Nat.add_assoc]

theorem mulDoubleAcc32_eq_twice (acc : ThreeLimbs 32) (a b : Ct 32) :
    acc.mulDoubleAcc32 a b = (acc.mulAcc32 a b).mulAcc32 a b :=
  acc.accumulateDouble_eq_twice (by decide) a b

end ThreeLimbs

/-! ### Chains -/

section Chains

variable {w : Nat}

/-- `add_c` over the limbs of two numbers, low limb first. -/
def addChain (xs ys : List (Ct w)) (carry : Carry) : List (Ct w) × Carry :=
  ripple Ct.addC xs ys carry

/-- `sub_b` over the limbs of two numbers, low limb first. -/
def subChain (xs ys : List (Ct w)) (borrow : Borrow) : List (Ct w) × Borrow :=
  ripple Ct.subB xs ys borrow

/-- The number with the limbs `xs`, low limb first. -/
def limbs (xs : List (Ct w)) : Nat := Limbs.value (xs.map Ct.inner)

theorem limbs_lt (hw : 0 < w) (xs : List (Ct w)) : limbs xs < 2 ^ (w * xs.length) := by
  rw [← xs.length_map Ct.inner]
  exact Limbs.value_lt hw _

theorem addC_conserves (hw : 0 < w) :
    Conserves (Ct.addC (w := w)) Ct.inner (fun c : Carry => c.inner.toNat) 1 := by
  intro x y c hc
  obtain ⟨hsum, hout⟩ := Ct.addC_exact hw x y hc
  refine ⟨?_, hout⟩
  zify at hsum
  linear_combination hsum

theorem subB_conserves (hw : 0 < w) :
    Conserves (Ct.subB (w := w)) Ct.inner (fun b : Borrow => b.inner.toNat) (-1) := by
  intro x y b hb
  obtain ⟨hdiff, hout⟩ := Ct.subB_exact hw x y hb
  refine ⟨?_, hout⟩
  zify at hdiff
  linear_combination hdiff

/-- The chain of additions is the exact sum: its limbs below the top, its carry above. -/
theorem addChain_exact (hw : 0 < w) {xs ys : List (Ct w)} (hlen : xs.length = ys.length)
    {c : Carry} (hc : c.inner.toNat ≤ 1) :
    (addChain xs ys c).1.length = xs.length ∧
      limbs (addChain xs ys c).1 = (limbs xs + limbs ys + c.inner.toNat) % 2 ^ (w * xs.length) ∧
      (addChain xs ys c).2.inner.toNat =
        (limbs xs + limbs ys + c.inner.toNat) / 2 ^ (w * xs.length) := by
  have hkept : (addChain xs ys c).1.length = xs.length := length_ripple Ct.addC hlen c
  have hlt := limbs_lt hw (addChain xs ys c).1
  rw [hkept] at hlt
  have hsum : limbs xs + limbs ys + c.inner.toNat =
      limbs (addChain xs ys c).1 + 2 ^ (w * xs.length) * (addChain xs ys c).2.inner.toNat := by
    have hconserve := ((addC_conserves hw).ripple hlen hc).1
    simp only [limbs, addChain]
    zify
    linear_combination -hconserve
  refine ⟨hkept, ?_, ?_⟩
  · rw [hsum, Nat.add_mul_mod_self_left, Nat.mod_eq_of_lt hlt]
  · rw [hsum, Nat.add_mul_div_left _ _ (Nat.two_pow_pos _), Nat.div_eq_of_lt hlt, Nat.zero_add]

/-- The chain of subtractions is the exact difference, with a borrow exactly where the
subtrahend is larger. -/
theorem subChain_exact (hw : 0 < w) {xs ys : List (Ct w)} (hlen : xs.length = ys.length)
    {b : Borrow} (hb : b.inner.toNat ≤ 1) :
    (subChain xs ys b).1.length = xs.length ∧
      (limbs (subChain xs ys b).1 : ℤ) =
        (limbs xs - limbs ys - b.inner.toNat) % 2 ^ (w * xs.length) ∧
      (subChain xs ys b).2.inner.toNat =
        if limbs xs < limbs ys + b.inner.toNat then 1 else 0 := by
  have hkept : (subChain xs ys b).1.length = xs.length := length_ripple Ct.subB hlen b
  have hlt := limbs_lt hw (subChain xs ys b).1
  rw [hkept] at hlt
  obtain ⟨hconserve, hout⟩ := (subB_conserves hw).ripple hlen hb
  have hdiff : (limbs xs - limbs ys - b.inner.toNat : ℤ) =
      limbs (subChain xs ys b).1 -
        2 ^ (w * xs.length) * ((subChain xs ys b).2.inner.toNat : ℤ) := by
    simp only [limbs, subChain]
    linear_combination -hconserve
  refine ⟨hkept, ?_, ?_⟩
  · rw [hdiff, Int.sub_mul_emod_self_left]
    exact (Int.emod_eq_of_lt (Int.natCast_nonneg _) (by exact_mod_cast hlt)).symm
  · have hbit : (subChain xs ys b).2.inner.toNat = 0 ∨ (subChain xs ys b).2.inner.toNat = 1 :=
      Nat.le_one_iff_eq_zero_or_eq_one.mp hout
    zify at hlt
    rcases hbit with hbit | hbit
    · rw [hbit] at hdiff ⊢
      rw [if_neg]
      push_cast at hdiff
      omega
    · rw [hbit] at hdiff ⊢
      rw [if_pos]
      push_cast at hdiff
      omega

/-- For 64-bit words: a product accumulates modulo `2 ^ 192`, a doubled product is the
product twice, and the chains of `add_c` and `sub_b` over any number of limbs are exact. -/
theorem multi_limb_exact :
    (∀ (acc : ThreeLimbs 64) (a b : Ct 64),
      (acc.mulAcc a b).value = (acc.value + a.inner.toNat * b.inner.toNat) % 2 ^ 192 ∧
        acc.mulDoubleAcc a b = (acc.mulAcc a b).mulAcc a b) ∧
      (∀ (xs ys : List (Ct 64)) (c : Carry), xs.length = ys.length → c.inner.toNat ≤ 1 →
        ∃ zs carry, addChain xs ys c = (zs, carry) ∧ zs.length = xs.length ∧
          limbs zs = (limbs xs + limbs ys + c.inner.toNat) % 2 ^ (64 * xs.length) ∧
          carry.inner.toNat = (limbs xs + limbs ys + c.inner.toNat) / 2 ^ (64 * xs.length)) ∧
      (∀ (xs ys : List (Ct 64)) (b : Borrow), xs.length = ys.length → b.inner.toNat ≤ 1 →
        ∃ zs borrow, subChain xs ys b = (zs, borrow) ∧ zs.length = xs.length ∧
          (limbs zs : ℤ) = (limbs xs - limbs ys - b.inner.toNat) % 2 ^ (64 * xs.length) ∧
          borrow.inner.toNat = if limbs xs < limbs ys + b.inner.toNat then 1 else 0) := by
  have hw : 0 < 64 := by decide
  refine ⟨?_, ?_, ?_⟩
  · intro acc a b
    exact ⟨acc.accumulate_value hw a b, acc.accumulateDouble_eq_twice hw a b⟩
  · intro xs ys c hlen hc
    exact ⟨_, _, rfl, addChain_exact hw hlen hc⟩
  · intro xs ys b hlen hb
    exact ⟨_, _, rfl, subChain_exact hw hlen hb⟩

/-- One more than the largest two-limb number, and one less than zero. -/
theorem multi_limb_exact_two :
    (∃ zs carry, addChain [⟨-1⟩, ⟨-1⟩] [(⟨1⟩ : Ct 64), ⟨0⟩] ⟨0⟩ = (zs, carry) ∧ zs.length = 2 ∧
        limbs zs =
          (limbs [(⟨-1⟩ : Ct 64), ⟨-1⟩] + limbs [(⟨1⟩ : Ct 64), ⟨0⟩] + 0) % 2 ^ (64 * 2) ∧
        carry.inner.toNat =
          (limbs [(⟨-1⟩ : Ct 64), ⟨-1⟩] + limbs [(⟨1⟩ : Ct 64), ⟨0⟩] + 0) / 2 ^ (64 * 2)) ∧
      (∃ zs borrow, subChain [⟨0⟩, ⟨0⟩] [(⟨0⟩ : Ct 64), ⟨0⟩] ⟨1⟩ = (zs, borrow) ∧
        zs.length = 2 ∧
        (limbs zs : ℤ) =
          (limbs [(⟨0⟩ : Ct 64), ⟨0⟩] - limbs [(⟨0⟩ : Ct 64), ⟨0⟩] - 1) % 2 ^ (64 * 2) ∧
        borrow.inner.toNat =
          if limbs [(⟨0⟩ : Ct 64), ⟨0⟩] < limbs [(⟨0⟩ : Ct 64), ⟨0⟩] + 1 then 1 else 0) :=
  ⟨multi_limb_exact.2.1 [⟨-1⟩, ⟨-1⟩] [⟨1⟩, ⟨0⟩] ⟨0⟩ rfl (by decide),
    multi_limb_exact.2.2 [⟨0⟩, ⟨0⟩] [⟨0⟩, ⟨0⟩] ⟨1⟩ rfl (by decide)⟩

end Chains

end Mantis
