import Mathlib.Data.Nat.Digits.Defs
import Mathlib.Tactic.LinearCombination

/-!
# Numbers in limbs

Little-endian lists of machine words, and the ripple of one flag through two of them. An
addition and a subtraction are the same ripple with the two signs of the second operand and
of the flag, so one law covers both.
-/

namespace Limbs

variable {w : Nat}

/-! ### Values -/

/-- The number with the limbs `xs`, least significant first. -/
def value (xs : List (BitVec w)) : Nat := Nat.ofDigits (2 ^ w) (xs.map BitVec.toNat)

@[simp] theorem value_nil : value ([] : List (BitVec w)) = 0 := rfl

@[simp] theorem value_cons (x : BitVec w) (xs : List (BitVec w)) :
    value (x :: xs) = x.toNat + 2 ^ w * value xs := Nat.ofDigits_cons

theorem toNat_lt_of_mem {xs : List (BitVec w)} {n : Nat} (h : n ∈ xs.map BitVec.toNat) :
    n < 2 ^ w := by
  obtain ⟨x, -, rfl⟩ := List.mem_map.mp h
  exact x.isLt

theorem value_lt (hw : 0 < w) (xs : List (BitVec w)) : value xs < 2 ^ (w * xs.length) := by
  have hbase : 1 < 2 ^ w := Nat.one_lt_two_pow hw.ne'
  rw [Nat.pow_mul, ← xs.length_map BitVec.toNat]
  exact Nat.ofDigits_lt_base_pow_length hbase fun n hn => toNat_lt_of_mem hn

/-- As many limbs as another number with the same value are the same limbs. -/
theorem eq_of_value_eq (hw : 0 < w) {xs ys : List (BitVec w)} (hlen : xs.length = ys.length)
    (h : value xs = value ys) : xs = ys := by
  have hbase : 1 < 2 ^ w := Nat.one_lt_two_pow hw.ne'
  have hdigits : xs.map BitVec.toNat = ys.map BitVec.toNat :=
    Nat.ofDigits_inj_of_len_eq hbase (by simpa using hlen) (fun n hn => toNat_lt_of_mem hn)
      (fun n hn => toNat_lt_of_mem hn) h
  exact (List.map_inj_right fun _ _ => BitVec.eq_of_toNat_eq).mp hdigits

/-! ### Ripples -/

section Ripple

variable {α γ : Type*} (step : α → α → γ → α × γ)

/-- One pass over both lists from the low end, handing the flag of each limb to the next. -/
def ripple : List α → List α → γ → List α × γ
  | x :: xs, y :: ys, c =>
      let (z, c') := step x y c
      let (zs, out) := ripple xs ys c'
      (z :: zs, out)
  | _, _, c => ([], c)

theorem length_ripple {xs ys : List α} (hlen : xs.length = ys.length) (c : γ) :
    (ripple step xs ys c).1.length = xs.length := by
  induction xs generalizing ys c with
  | nil => rfl
  | cons x xs ih =>
      cases ys with
      | nil => simp at hlen
      | cons y ys =>
          simp only [List.length_cons, Nat.add_right_cancel_iff] at hlen
          simp only [ripple, List.length_cons, ih hlen]

variable (word : α → BitVec w) (flag : γ → Nat) (sign : ℤ)

/-- What one limb conserves when its flag is at most 1: its result and the weighted outgoing
flag are the operands and the incoming flag. -/
def Conserves : Prop :=
  ∀ x y c, flag c ≤ 1 →
    ((word (step x y c).1).toNat : ℤ) + sign * (2 ^ w * flag (step x y c).2) =
        (word x).toNat + sign * ((word y).toNat + flag c) ∧
      flag (step x y c).2 ≤ 1

variable {step word flag sign}

/-- The ripple conserves the values of the lists as a limb conserves words. -/
theorem Conserves.ripple (h : Conserves step word flag sign)
    {xs ys : List α} (hlen : xs.length = ys.length) {c : γ} (hc : flag c ≤ 1) :
    (value ((ripple step xs ys c).1.map word) : ℤ) +
          sign * (2 ^ (w * xs.length) * flag (ripple step xs ys c).2) =
        value (xs.map word) + sign * (value (ys.map word) + flag c) ∧
      flag (ripple step xs ys c).2 ≤ 1 := by
  induction xs generalizing ys c with
  | nil =>
      obtain rfl : ys = [] := List.length_eq_zero_iff.mp hlen.symm
      exact ⟨by simp [Limbs.ripple], hc⟩
  | cons x xs ih =>
      cases ys with
      | nil => simp at hlen
      | cons y ys =>
          obtain ⟨hlimb, hok⟩ := h x y c hc
          obtain ⟨hrest, hout⟩ := ih (Nat.succ.inj hlen) hok
          refine ⟨?_, hout⟩
          simp only [Limbs.ripple, List.map_cons, value_cons, List.length_cons, Nat.mul_succ,
            pow_add]
          push_cast
          linear_combination hlimb + 2 ^ w * hrest

end Ripple

end Limbs
