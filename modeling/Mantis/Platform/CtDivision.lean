import Mantis.Lib.LongDivision
import Mantis.Platform.ConstantTime

/-!
# Mantis.Platform.CtDivision

Constant-time division of two words by one
(`crates/platform/src/constant_time/ct_division.rs`). The 64-bit and the 32-bit function
have one body, written here at any width.

The remainder stays in the two words `hi` and `lo`; every pass of the loop settles one bit
of the quotient. The documentation asks for a divisor with its top bit set, but only
`n_hi < d` is needed.
-/

namespace Mantis

open LongDivision

variable {w : Nat}

/-! ### The loop -/

/-- The mutable variables of the loop. -/
structure DivState (w : Nat) where
  hi : Ct w
  lo : Ct w
  q : Ct w

namespace DivState

/-- One pass, for a position `k` between 1 and `BITS - 1`. -/
def step (arch : Arch) (d : Ct w) (k : Nat) (s : DivState w) : DivState w :=
  let j := w - k
  let word := (s.hi <<< j) ||| (s.lo >>> k)
  let wGeD := (word.ctLt d).not
  let hiBit := (s.hi >>> k).isNonZero
  let ctl := wGeD ||| hiBit
  let hi2 := (word - d) >>> j
  let lo2 := s.lo - (d <<< k)
  { hi := CTBool.mux arch ctl hi2 s.hi
    lo := CTBool.mux arch ctl lo2 s.lo
    q := s.q ||| ((⟨ctl.inner⟩ : Ct w) <<< k) }

/-- `for k in (1..BITS).rev()`, from position `k` down. -/
def loop (arch : Arch) (d : Ct w) : Nat → DivState w → DivState w
  | 0, s => s
  | k + 1, s => loop arch d k (s.step arch d (k + 1))

end DivState

/-- The body of `div2n1n` and `div2n1n_u32`. -/
def divTwoByOne (arch : Arch) (nHi nLo d : Ct w) : Ct w × Ct w :=
  let hiEqD := nHi.ctEq d
  let hi := CTBool.mux arch hiEqD ⟨0⟩ nHi
  let s := DivState.loop arch d (w - 1) { hi, lo := nLo, q := ⟨0⟩ }
  let carry := (s.lo.ctLt d).not ||| s.hi.isNonZero
  (s.q ||| ⟨carry.inner⟩, CTBool.mux arch carry (s.lo - d) s.lo)

def div2n1n (arch : Arch) (nHi nLo d : Ct 64) : Ct 64 × Ct 64 := divTwoByOne arch nHi nLo d

def div2n1nU32 (arch : Arch) (nHi nLo d : Ct 32) : Ct 32 × Ct 32 := divTwoByOne arch nHi nLo d

/-! ### What a pass does -/

namespace DivState

/-- The remainder so far. -/
def remainder (s : DivState w) : Nat := value s.hi.inner s.lo.inner

/-- The division has settled the quotient down to position `k`. -/
def Settled (n : Nat) (d : Ct w) (k : Nat) (s : DivState w) : Prop :=
  Partial n d.inner.toNat k s.q.inner.toNat s.remainder

theorem inner_shiftLeft {x : Ct w} {k : Nat} (hk : k < w) : (x <<< k).inner = x.inner <<< k := by
  show x.inner <<< (k % w) = _
  rw [Nat.mod_eq_of_lt hk]

theorem inner_shiftRight {x : Ct w} {k : Nat} (hk : k < w) :
    (x >>> k).inner = x.inner >>> k := by
  show x.inner >>> (k % w) = _
  rw [Nat.mod_eq_of_lt hk]

/-- The flag of a pass, and the carry at position 0: the shifted divisor fits. -/
theorem flag_eq (word hiBits d : Ct w) {s : DivState w} {k : Nat} (hk : k ≤ w)
    (hword : word.inner = window s.hi.inner s.lo.inner k)
    (hbits : hiBits.inner = s.hi.inner >>> k) :
    (word.ctLt d).not ||| hiBits.isNonZero =
      CTBool.ofBool (decide (d.inner.toNat ≤ s.remainder / 2 ^ k)) := by
  rw [Ct.ctLt_eq, Ct.isNonZero_eq, CTBool.not_ofBool, CTBool.or_ofBool, hword, hbits]
  congr 1
  rw [Bool.eq_iff_iff]
  simp only [Bool.or_eq_true, Bool.not_eq_true', decide_eq_false_iff_not, decide_eq_true_iff]
  exact fits_iff hk

/-- A pass subtracts the shifted divisor exactly where it fits. -/
theorem step_eq (arch : Arch) (d : Ct w) {k : Nat} (hpos : 0 < k) (hk : k < w)
    (s : DivState w) :
    s.step arch d k =
      if d.inner.toNat ≤ s.remainder / 2 ^ k then
        { hi := ⟨(window s.hi.inner s.lo.inner k - d.inner) >>> (w - k)⟩
          lo := ⟨s.lo.inner - (d.inner <<< k)⟩
          q := ⟨s.q.inner ||| (1#w <<< k)⟩ }
      else s := by
  have hj : w - k < w := Nat.sub_lt (Nat.lt_trans hpos hk) hpos
  have hw : 0 < w := Nat.lt_trans hpos hk
  have hword : ((s.hi <<< (w - k)) ||| (s.lo >>> k)).inner =
      window s.hi.inner s.lo.inner k := by
    rw [Ct.inner_or, inner_shiftLeft hj, inner_shiftRight hk, window]
  have hflag := flag_eq _ (s.hi >>> k) d (Nat.le_of_lt hk) hword (inner_shiftRight hk)
  have hsub : ((((s.hi <<< (w - k)) ||| (s.lo >>> k)) - d) >>> (w - k)).inner =
      (window s.hi.inner s.lo.inner k - d.inner) >>> (w - k) := by
    rw [inner_shiftRight hj, Ct.inner_sub, hword]
  have hlo : (s.lo - (d <<< k)).inner = s.lo.inner - (d.inner <<< k) := by
    rw [Ct.inner_sub, inner_shiftLeft hk]
  have hone : ((⟨1⟩ : Ct w) <<< k) = ⟨1#w <<< k⟩ := Ct.ext (inner_shiftLeft hk)
  have hzero : ((⟨0⟩ : Ct w) <<< k) = ⟨0⟩ := Ct.ext (by rw [inner_shiftLeft hk]; simp)
  simp only [step, hflag, CTBool.mux_ofBool hw, CTBool.inner_ofBool]
  by_cases hfits : d.inner.toNat ≤ s.remainder / 2 ^ k
  · simp only [hfits, decide_true, if_true, hone]
    rw [← hsub, ← hlo]
    rfl
  · simp only [hfits, decide_false, Bool.false_eq_true, if_false, hzero]
    have hq : s.q ||| (⟨0⟩ : Ct w) = s.q := Ct.ext BitVec.or_zero
    rw [hq]

/-- A pass settles the bit at `k`. -/
theorem Settled.step {n : Nat} {d : Ct w} {k : Nat} {s : DivState w} (arch : Arch)
    (h : Settled n d (k + 1) s) (hpos : 0 < k) (hk : k < w) :
    Settled n d k (s.step arch d k) := by
  rw [step_eq arch d hpos hk]
  by_cases hfits : d.inner.toNat ≤ s.remainder / 2 ^ k
  · rw [if_pos hfits]
    have hvalue := value_sub (Nat.le_of_lt hk) hfits h.window_lt
    have hquot := toNat_or_bit hk h.aligned
    rw [Settled, remainder, hvalue, hquot]
    exact h.take hfits
  · rw [if_neg hfits]
    exact h.keep (Nat.lt_of_not_le hfits)

/-- The loop settles every bit but the last. -/
theorem Settled.loop {n : Nat} {d : Ct w} (arch : Arch) {k : Nat} (hk : k < w) {s : DivState w}
    (h : Settled n d (k + 1) s) : Settled n d 1 (s.loop arch d k) := by
  induction k generalizing s with
  | zero => exact h
  | succ k ih => exact ih (Nat.lt_of_succ_lt hk) (h.step arch (Nat.succ_pos k) hk)

end DivState

/-! ### Division -/

/-- The last bit, and the remainder in one word. -/
theorem settled_last {n : Nat} {d : Ct w} {s : DivState w} (arch : Arch) (hw : 0 < w)
    (h : s.Settled n d 1) :
    let carry := (s.lo.ctLt d).not ||| s.hi.isNonZero
    Partial n d.inner.toNat 0 (s.q ||| (⟨carry.inner⟩ : Ct w)).inner.toNat
      (CTBool.mux arch carry (s.lo - d) s.lo).inner.toNat := by
  have hflag := DivState.flag_eq s.lo s.hi d (Nat.zero_le w)
    (window_zero s.hi.inner s.lo.inner).symm (BitVec.ushiftRight_zero s.hi.inner).symm
  simp only [hflag, CTBool.mux_ofBool hw, CTBool.inner_ofBool]
  by_cases hfits : d.inner.toNat ≤ s.remainder / 2 ^ 0
  · have htake := h.take hfits
    have hquot := toNat_or_bit hw h.aligned
    rw [Nat.pow_zero, Nat.mul_one] at htake
    rw [BitVec.shiftLeft_zero, Nat.pow_zero] at hquot
    simp only [hfits, decide_true, if_true]
    rw [Nat.pow_zero, Nat.div_one] at hfits
    have hlo := toNat_lo_sub hfits htake.remainder_lt
    rw [Ct.inner_or, Ct.inner_sub, hlo]
    exact hquot ▸ htake
  · have hkeep := h.keep (Nat.lt_of_not_le hfits)
    have hlo := toNat_lo hkeep.remainder_lt
    simp only [hfits, decide_false, Bool.false_eq_true, if_false]
    rw [Ct.inner_or, hlo, BitVec.ofNat_eq_ofNat, BitVec.or_zero]
    exact hkeep

/-- For every `n_hi < d` the two results are the quotient and the remainder. -/
theorem divTwoByOne_exact (arch : Arch) (hw : 0 < w) (nHi nLo d : Ct w)
    (h : nHi.inner < d.inner) :
    (divTwoByOne arch nHi nLo d).1.inner.toNat * d.inner.toNat +
        (divTwoByOne arch nHi nLo d).2.inner.toNat = nHi.inner.toNat * 2 ^ w + nLo.inner.toNat ∧
      (divTwoByOne arch nHi nLo d).2.inner < d.inner := by
  have hne : decide (nHi.inner = d.inner) = false := by
    rw [decide_eq_false_iff_not]
    intro heq
    rw [heq] at h
    exact BitVec.lt_irrefl _ h
  have hstart : DivState.Settled (value nHi.inner nLo.inner) d (w - 1 + 1)
      { hi := nHi, lo := nLo, q := ⟨0⟩ } := by
    rw [Nat.sub_add_cancel hw]
    exact Partial.start (value_lt _ _ _ h)
  have hloop := hstart.loop arch (Nat.sub_lt hw Nat.one_pos)
  have hlast := settled_last arch hw hloop
  simp only [divTwoByOne, Ct.ctEq_eq, hne, CTBool.mux_ofBool hw, Bool.false_eq_true, if_false]
  exact ⟨hlast.exact, BitVec.lt_def.mpr hlast.remainder_lt⟩

/-- Both widths divide exactly on every architecture, whatever the divisor's top bit. -/
theorem div2n1n_exact (arch : Arch) :
    (∀ nHi nLo d : Ct 64, nHi.inner < d.inner →
      ∃ q r : Ct 64, div2n1n arch nHi nLo d = (q, r) ∧
        q.inner.toNat * d.inner.toNat + r.inner.toNat =
          nHi.inner.toNat * 2 ^ 64 + nLo.inner.toNat ∧
        r.inner < d.inner) ∧
      (∀ nHi nLo d : Ct 32, nHi.inner < d.inner →
        ∃ q r : Ct 32, div2n1nU32 arch nHi nLo d = (q, r) ∧
          q.inner.toNat * d.inner.toNat + r.inner.toNat =
            nHi.inner.toNat * 2 ^ 32 + nLo.inner.toNat ∧
          r.inner < d.inner) := by
  constructor
  · intro nHi nLo d h
    exact ⟨_, _, rfl, divTwoByOne_exact arch (by decide) nHi nLo d h⟩
  · intro nHi nLo d h
    exact ⟨_, _, rfl, divTwoByOne_exact arch (by decide) nHi nLo d h⟩

/-- `2 ^ 64 + 5` divided by 3, with a divisor whose top bit is clear. -/
theorem div2n1n_exact_three :
    ((1 : BitVec 64) < 3 ∧
      ∃ q r : Ct 64, div2n1n .other ⟨1⟩ ⟨5⟩ ⟨3⟩ = (q, r) ∧
        q.inner.toNat * 3 + r.inner.toNat = 1 * 2 ^ 64 + 5 ∧ r.inner < 3) ∧
      ((1 : BitVec 32) < 3 ∧
        ∃ q r : Ct 32, div2n1nU32 .x86_64 ⟨1⟩ ⟨5⟩ ⟨3⟩ = (q, r) ∧
          q.inner.toNat * 3 + r.inner.toNat = 1 * 2 ^ 32 + 5 ∧ r.inner < 3) :=
  ⟨⟨by decide, (div2n1n_exact .other).1 ⟨1⟩ ⟨5⟩ ⟨3⟩ (by decide)⟩,
    by decide, (div2n1n_exact .x86_64).2 ⟨1⟩ ⟨5⟩ ⟨3⟩ (by decide)⟩

example : div2n1nU32 .other ⟨1⟩ ⟨5⟩ ⟨3⟩ = (⟨1431655767⟩, ⟨0⟩) := by decide +kernel

end Mantis
