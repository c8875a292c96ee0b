import Mantis.Platform.CopyDispatch

/-!
# Mantis.Platform.ConstantTime

Constant-time words and flags (`crates/platform/src/constant_time/`): the types of
`ct_types.rs`, the arithmetic and comparisons of `ct_routines.rs`, and the selection of
`multiplexers.rs`.

Every comparison is a bit formula whose result is the top bit of a word. Each of them is
characterised here by one equation with `CTBool.ofBool`, so that code that uses them is read
as code with Booleans.
-/

namespace Mantis

/-! ### Words -/

/-- Constant-time word of `w` bits. -/
@[ext]
structure Ct (w : Nat) where
  inner : BitVec w
  deriving DecidableEq, Repr

namespace Ct

variable {w : Nat}

instance : AndOp (Ct w) := ⟨fun x y => ⟨x.inner &&& y.inner⟩⟩

instance : OrOp (Ct w) := ⟨fun x y => ⟨x.inner ||| y.inner⟩⟩

instance : XorOp (Ct w) := ⟨fun x y => ⟨x.inner ^^^ y.inner⟩⟩

instance : Add (Ct w) := ⟨fun x y => ⟨x.inner + y.inner⟩⟩

instance : Sub (Ct w) := ⟨fun x y => ⟨x.inner - y.inner⟩⟩

instance : Neg (Ct w) := ⟨fun x => ⟨-x.inner⟩⟩

/-- `wrapping_shr`: the distance is reduced modulo the width. -/
instance : HShiftRight (Ct w) Nat (Ct w) := ⟨fun x k => ⟨x.inner >>> (k % w)⟩⟩

/-- `wrapping_shl`. -/
instance : HShiftLeft (Ct w) Nat (Ct w) := ⟨fun x k => ⟨x.inner <<< (k % w)⟩⟩

end Ct

/-! ### Flags -/

/-- Constant-time Boolean, restricted to the values 0 and 1. -/
structure CTBool (w : Nat) where
  ct : Ct w
  isBit : ct.inner = 0 ∨ ct.inner = 1
  deriving DecidableEq, Repr

namespace CTBool

variable {w : Nat}

theorem ext {a b : CTBool w} (h : a.ct = b.ct) : a = b := by
  cases a
  cases b
  cases h
  rfl

def ctrue : CTBool w := ⟨⟨1⟩, Or.inr rfl⟩

def cfalse : CTBool w := ⟨⟨0⟩, Or.inl rfl⟩

/-- `From<bool>`. -/
def ofBool (b : Bool) : CTBool w := if b then ctrue else cfalse

/-- The inner value, 0 or 1. -/
def inner (b : CTBool w) : BitVec w := b.ct.inner

theorem isBit_or {x y : BitVec w} (hx : x = 0 ∨ x = 1) (hy : y = 0 ∨ y = 1) :
    x ||| y = 0 ∨ x ||| y = 1 := by
  rcases hx with rfl | rfl <;> rcases hy with rfl | rfl <;> simp

theorem isBit_not {x : BitVec w} (hx : x = 0 ∨ x = 1) : x ^^^ 1 = 0 ∨ x ^^^ 1 = 1 := by
  rcases hx with rfl | rfl <;> simp

instance : OrOp (CTBool w) := ⟨fun a b => ⟨a.ct ||| b.ct, isBit_or a.isBit b.isBit⟩⟩

/-- `!`: flips bit 0 only. -/
def not (b : CTBool w) : CTBool w := ⟨b.ct ^^^ ctrue.ct, isBit_not b.isBit⟩

theorem not_ofBool (b : Bool) : (ofBool b : CTBool w).not = ofBool (!b) := by
  apply ext
  cases b with
  | false => exact Ct.ext (BitVec.zero_xor)
  | true => exact Ct.ext (BitVec.xor_self)

theorem or_ofBool (a b : Bool) : (ofBool a ||| ofBool b : CTBool w) = ofBool (a || b) := by
  apply ext
  cases a with
  | false => exact Ct.ext (BitVec.zero_or)
  | true =>
      cases b with
      | false => exact Ct.ext (BitVec.or_zero)
      | true => exact Ct.ext (BitVec.or_self)

end CTBool

/-! ### Comparisons -/

namespace Ct

variable {w : Nat}

theorem ushiftRight_top (x : BitVec w) :
    x >>> ((w - 1) % w) = if x.msb then 1 else 0 := by
  cases w with
  | zero => exact Subsingleton.elim _ _
  | succ n =>
      have hmod : (n + 1 - 1) % (n + 1) = n := Nat.mod_eq_of_lt (Nat.lt_succ_self n)
      have hlt : x.toNat < 2 ^ n * 2 := x.isLt
      have hmsb : x.msb = decide (2 ^ n ≤ x.toNat) := BitVec.msb_eq_decide x
      apply BitVec.eq_of_toNat_eq
      rw [hmod, hmsb, BitVec.toNat_ushiftRight, Nat.shiftRight_eq_div_pow]
      by_cases h : 2 ^ n ≤ x.toNat
      · have hq : x.toNat / 2 ^ n = 1 := Nat.div_eq_of_lt_le (by omega) (by omega)
        simp [h, hq]
      · have hq : x.toNat / 2 ^ n = 0 := Nat.div_eq_of_lt (by omega)
        simp [h, hq]

theorem isBit_top (x : BitVec w) : x >>> ((w - 1) % w) = 0 ∨ x >>> ((w - 1) % w) = 1 := by
  rw [ushiftRight_top]
  cases x.msb <;> simp

/-- Whether the most significant bit is set. -/
def isMsbSet (x : Ct w) : CTBool w := ⟨x >>> (w - 1), isBit_top x.inner⟩

def ctNe (x y : Ct w) : CTBool w :=
  let z := x ^^^ y
  (z ||| -z).isMsbSet

def ctEq (x y : Ct w) : CTBool w := (x.ctNe y).not

def ctLt (x y : Ct w) : CTBool w := (x ^^^ ((x ^^^ y) ||| ((x - y) ^^^ y))).isMsbSet

def isNonZero (x : Ct w) : CTBool w := (x ||| -x).isMsbSet

@[simp] theorem inner_and (x y : Ct w) : (x &&& y).inner = x.inner &&& y.inner := rfl

@[simp] theorem inner_or (x y : Ct w) : (x ||| y).inner = x.inner ||| y.inner := rfl

@[simp] theorem inner_xor (x y : Ct w) : (x ^^^ y).inner = x.inner ^^^ y.inner := rfl

@[simp] theorem inner_sub (x y : Ct w) : (x - y).inner = x.inner - y.inner := rfl

@[simp] theorem inner_neg (x : Ct w) : (-x).inner = -x.inner := rfl

theorem isMsbSet_eq (x : Ct w) : x.isMsbSet = CTBool.ofBool x.inner.msb := by
  apply CTBool.ext
  apply Ct.ext
  have htop : x.isMsbSet.ct.inner = if x.inner.msb then 1 else 0 := ushiftRight_top x.inner
  rw [htop]
  cases x.inner.msb <;> rfl

/-- The word or its negation has its top bit set exactly when the word is not zero. -/
theorem msb_or_neg (x : BitVec w) : (x ||| -x).msb = decide (x ≠ 0#w) := by
  rw [BitVec.msb_or, BitVec.msb_neg]
  cases htop : x.msb with
  | true =>
      have hne : x ≠ 0#w := by
        intro h
        simp [h] at htop
      simp [hne]
  | false =>
      by_cases hzero : x = 0#w
      · simp [hzero]
      · have hpos : 0 < w := by
          apply Nat.pos_of_ne_zero
          intro h
          subst h
          exact hzero (Subsingleton.elim _ _)
        have hmin := BitVec.ne_intMin_of_msb_eq_false hpos htop
        simp [hzero, hmin]

theorem isNonZero_eq (x : Ct w) : x.isNonZero = CTBool.ofBool (decide (x.inner ≠ 0#w)) := by
  rw [isNonZero, isMsbSet_eq]
  simp only [inner_or, inner_neg, msb_or_neg]

theorem ctEq_eq (x y : Ct w) : x.ctEq y = CTBool.ofBool (decide (x.inner = y.inner)) := by
  rw [ctEq, ctNe, isMsbSet_eq, CTBool.not_ofBool]
  simp only [inner_or, inner_neg, inner_xor, msb_or_neg]
  simp

/-- Where the top bits agree, the difference has its top bit set exactly when it wrapped. -/
theorem msb_sub_of_msb_eq {x y : BitVec w} (h : x.msb = y.msb) :
    (x - y).msb = decide (x < y) := by
  have hx := x.isLt
  have hy := y.isLt
  rw [Bool.eq_iff_iff, BitVec.msb_eq_true_iff_two_mul_ge] at h
  rw [BitVec.msb_eq_true_iff_two_mul_ge] at h
  rw [Bool.eq_iff_iff, BitVec.msb_eq_true_iff_two_mul_ge, decide_eq_true_iff]
  by_cases hlt : x < y
  · rw [BitVec.toNat_sub_of_lt hlt]
    rw [BitVec.lt_def] at hlt ⊢
    omega
  · rw [BitVec.not_lt] at hlt
    rw [BitVec.toNat_sub_of_le hlt]
    rw [BitVec.le_def] at hlt
    rw [BitVec.lt_def]
    omega

theorem lt_of_msb_ne {x y : BitVec w} (h : x.msb ≠ y.msb) : decide (x < y) = y.msb := by
  rw [ne_eq, Bool.eq_iff_iff, BitVec.msb_eq_true_iff_two_mul_ge,
    BitVec.msb_eq_true_iff_two_mul_ge] at h
  rw [Bool.eq_iff_iff, BitVec.msb_eq_true_iff_two_mul_ge, decide_eq_true_iff, BitVec.lt_def]
  omega

theorem ctLt_eq (x y : Ct w) : x.ctLt y = CTBool.ofBool (decide (x.inner < y.inner)) := by
  rw [ctLt, isMsbSet_eq]
  simp only [inner_or, inner_xor, inner_sub, BitVec.msb_xor, BitVec.msb_or]
  by_cases h : x.inner.msb = y.inner.msb
  · rw [← msb_sub_of_msb_eq h, h]
    cases y.inner.msb <;> simp
  · rw [lt_of_msb_ne h]
    cases hx : x.inner.msb <;> cases hy : y.inner.msb <;> simp_all

end Ct

/-! ### Selection -/

namespace CTBool

variable {w : Nat}

/-- `mux_formula!`. -/
def muxFormula (ctl : CTBool w) (x y : Ct w) : Ct w :=
  let mask := -ctl.ct
  y ^^^ (mask &&& (x ^^^ y))

/-- `mux` at 64 bits and `mux32` at 32: `test` and `cmovz` on x86-64, the formula
elsewhere. -/
def mux (arch : Arch) (ctl : CTBool w) (x y : Ct w) : Ct w :=
  match arch with
  | .x86_64 => if ctl.inner &&& ctl.inner = 0 then y else x
  | .aarch64 | .other => muxFormula ctl x y

theorem inner_ofBool (b : Bool) : (ofBool b : CTBool w).inner = if b then 1 else 0 := by
  cases b <;> rfl

theorem muxFormula_ofBool (b : Bool) (x y : Ct w) :
    muxFormula (ofBool b) x y = if b then x else y := by
  apply Ct.ext
  cases b with
  | false => simp [muxFormula, ofBool, cfalse]
  | true =>
      have hmask : -(1#w) = BitVec.allOnes w := BitVec.neg_one_eq_allOnes
      have hcancel : y.inner ^^^ (x.inner ^^^ y.inner) = x.inner := by
        rw [BitVec.xor_comm x.inner, ← BitVec.xor_assoc, BitVec.xor_self, BitVec.zero_xor]
      simp [muxFormula, ofBool, ctrue, hmask, hcancel]

theorem mux_ofBool (hw : 0 < w) (arch : Arch) (b : Bool) (x y : Ct w) :
    mux arch (ofBool b) x y = if b then x else y := by
  cases arch with
  | x86_64 =>
      have hne : w ≠ 0 := Nat.pos_iff_ne_zero.mp hw
      cases b <;> simp [mux, inner_ofBool, hne]
  | aarch64 => exact muxFormula_ofBool b x y
  | other => exact muxFormula_ofBool b x y

end CTBool

end Mantis
