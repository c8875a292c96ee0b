import Mathlib.Algebra.Order.Field.Rat
import Mathlib.Data.List.Basic
import Mathlib.Data.Nat.Digits.Lemmas
import Mathlib.Tactic.FieldSimp
import Mathlib.Tactic.Ring

/-!
# Decimal numerals

Numerals as programs read and print them: ASCII bytes, most significant digit first.
A digit string has a `value` (Mathlib's `Nat.ofDigits` on the reversed digits), and
`render` prints a natural number without leading zeros. A `Numeral` adds a sign and a
decimal point; it denotes a rational, and in its canonical form at a fixed number of
decimals it is determined by that rational.
-/

namespace Decimal

/-! ### Digit strings -/

/-- An ASCII digit. -/
def IsDigit (byte : UInt8) : Prop := 48 ≤ byte ∧ byte ≤ 57

instance : DecidablePred IsDigit := fun byte =>
  inferInstanceAs (Decidable (48 ≤ byte ∧ byte ≤ 57))

/-- The number an ASCII digit stands for. -/
def digitOf (byte : UInt8) : Nat := (byte - 48).toNat

/-- The ASCII digit of a number below ten. -/
def byteOf (d : Nat) : UInt8 := UInt8.ofNat (48 + d)

theorem digitOf_eq {byte : UInt8} (h : IsDigit byte) : digitOf byte + 48 = byte.toNat := by
  obtain ⟨h₁, h₂⟩ := h
  rw [UInt8.le_iff_toNat_le] at h₁ h₂
  have hsub := UInt8.toNat_sub_of_le byte 48 (UInt8.le_iff_toNat_le.mpr h₁)
  simp only [digitOf, hsub]
  change 48 ≤ byte.toNat at h₁
  change byte.toNat - 48 + 48 = byte.toNat
  omega

theorem digitOf_lt {byte : UInt8} (h : IsDigit byte) : digitOf byte < 10 := by
  have heq := digitOf_eq h
  have hle : byte.toNat ≤ 57 := UInt8.le_iff_toNat_le.mp h.2
  omega

theorem toNat_byteOf {d : Nat} (h : d < 10) : (byteOf d).toNat = 48 + d := by
  rw [byteOf, UInt8.toNat_ofNat']
  omega

theorem isDigit_byteOf {d : Nat} (h : d < 10) : IsDigit (byteOf d) := by
  have hd := toNat_byteOf h
  constructor
  · rw [UInt8.le_iff_toNat_le, hd]
    exact Nat.le_add_right 48 d
  · rw [UInt8.le_iff_toNat_le, hd]
    change 48 + d ≤ 57
    omega

theorem digitOf_byteOf {d : Nat} (h : d < 10) : digitOf (byteOf d) = d := by
  have heq := digitOf_eq (isDigit_byteOf h)
  rw [toNat_byteOf h] at heq
  omega

theorem byteOf_digitOf {byte : UInt8} (h : IsDigit byte) : byteOf (digitOf byte) = byte := by
  refine UInt8.toNat_inj.mp ?_
  rw [toNat_byteOf (digitOf_lt h), ← digitOf_eq h, Nat.add_comm]

/-- The number a digit string stands for. -/
def value (ds : List UInt8) : Nat := Nat.ofDigits 10 (ds.map digitOf).reverse

theorem value_append (ds ds' : List UInt8) :
    value (ds ++ ds') = value ds * 10 ^ ds'.length + value ds' := by
  simp only [value, List.map_append, List.reverse_append, Nat.ofDigits_append, List.length_reverse,
    List.length_map]
  ring

theorem value_singleton (d : UInt8) : value [d] = digitOf d := by simp [value]

theorem value_snoc (ds : List UInt8) (d : UInt8) : value (ds ++ [d]) = 10 * value ds + digitOf d := by
  rw [value_append, value_singleton, List.length_singleton]
  ring

theorem value_le_append (ds ds' : List UInt8) : value ds ≤ value (ds ++ ds') := by
  rw [value_append]
  have hpow : 1 ≤ 10 ^ ds'.length := Nat.one_le_pow _ _ (by omega)
  have hmul := Nat.mul_le_mul_left (value ds) hpow
  omega

theorem digits_lt {ds : List UInt8} (h : ∀ d ∈ ds, IsDigit d) :
    ∀ n ∈ (ds.map digitOf).reverse, n < 10 := by
  intro n hn
  obtain ⟨d, hd, rfl⟩ := List.mem_map.mp (List.mem_reverse.mp hn)
  exact digitOf_lt (h d hd)

theorem value_lt {ds : List UInt8} (h : ∀ d ∈ ds, IsDigit d) : value ds < 10 ^ ds.length := by
  have hlt := Nat.ofDigits_lt_base_pow_length (b := 10) (by omega) (digits_lt h)
  rwa [List.length_reverse, List.length_map] at hlt

/-- Digits are determined by their numbers. -/
theorem eq_of_map_digitOf {ds ds' : List UInt8} (h : ∀ d ∈ ds, IsDigit d)
    (h' : ∀ d ∈ ds', IsDigit d) (heq : ds.map digitOf = ds'.map digitOf) : ds = ds' := by
  have hback : ∀ {l : List UInt8}, (∀ d ∈ l, IsDigit d) → (l.map digitOf).map byteOf = l := by
    intro l hl
    rw [List.map_map]
    conv_rhs => rw [← List.map_id l]
    exact List.map_congr_left fun d hd => byteOf_digitOf (hl d hd)
  rw [← hback h, heq, hback h']

/-- Digit strings of one length are determined by their value. -/
theorem value_inj {ds ds' : List UInt8} (h : ∀ d ∈ ds, IsDigit d) (h' : ∀ d ∈ ds', IsDigit d)
    (hlen : ds.length = ds'.length) (hval : value ds = value ds') : ds = ds' := by
  refine eq_of_map_digitOf h h' (List.reverse_injective ?_)
  refine Nat.ofDigits_inj_of_len_eq (b := 10) (by omega) ?_ (digits_lt h) (digits_lt h') hval
  rw [List.length_reverse, List.length_reverse, List.length_map, List.length_map, hlen]

/-! ### Printing -/

/-- A natural number in decimal, without leading zeros. -/
def render (n : Nat) : List UInt8 :=
  if n = 0 then [48] else (Nat.digits 10 n).reverse.map byteOf

theorem isDigit_render (n : Nat) : ∀ d ∈ render n, IsDigit d := by
  intro d hd
  simp only [render] at hd
  split at hd
  · rw [List.mem_singleton.mp hd]
    decide
  · obtain ⟨k, hk, rfl⟩ := List.mem_map.mp hd
    exact isDigit_byteOf (Nat.digits_lt_base (by omega) (List.mem_reverse.mp hk))

theorem map_digitOf_render {n : Nat} (h : n ≠ 0) :
    (render n).map digitOf = (Nat.digits 10 n).reverse := by
  rw [render, if_neg h, List.map_map]
  conv_rhs => rw [← List.map_id (Nat.digits 10 n).reverse]
  refine List.map_congr_left fun k hk => ?_
  exact digitOf_byteOf (Nat.digits_lt_base (by omega) (List.mem_reverse.mp hk))

theorem value_render (n : Nat) : value (render n) = n := by
  by_cases h : n = 0
  · rw [h]
    rfl
  · rw [value, map_digitOf_render h, List.reverse_reverse, Nat.ofDigits_digits]

theorem render_ne_nil (n : Nat) : render n ≠ [] := by
  simp only [render]
  split
  · exact List.cons_ne_nil _ _
  · next h => simpa [Nat.digits_eq_nil_iff_eq_zero] using h

/-- A number below `10 ^ k` is printed in at most `k` digits. -/
theorem length_render_le {n k : Nat} (hk : 0 < k) (h : n < 10 ^ k) : (render n).length ≤ k := by
  simp only [render]
  split
  · exact hk
  · rw [List.length_map, List.length_reverse]
    exact (Nat.digits_length_le_iff (by omega) n).mpr h

/-- No leading zero, except for the single digit of zero. -/
def NoLeadingZeros (ds : List UInt8) : Prop := ds ≠ [] ∧ (1 < ds.length → ds.head? ≠ some 48)

theorem eq_zero_of_noLeadingZeros {d : UInt8} {ds : List UInt8} (hlead : NoLeadingZeros (d :: ds))
    (h : IsDigit d) (h0 : digitOf d = 0) : d :: ds = [48] := by
  have hd : d = 48 := by
    rw [← byteOf_digitOf h, h0]
    rfl
  cases ds with
  | nil => rw [hd]
  | cons d' ds => exact absurd (congrArg some hd) (hlead.2 (by simp))

theorem noLeadingZeros_render (n : Nat) : NoLeadingZeros (render n) := by
  refine ⟨render_ne_nil n, ?_⟩
  by_cases h : n = 0
  · rw [h]
    simp [render]
  · intro _ hhead
    -- the first digit printed is the last of `Nat.digits`, which is not zero
    have hne : Nat.digits 10 n ≠ [] := Nat.digits_ne_nil_iff_ne_zero.mpr h
    have hlast := Nat.getLast_digit_ne_zero 10 h
    have hmap := congrArg List.head? (map_digitOf_render h)
    rw [List.head?_map, hhead, List.head?_reverse, List.getLast?_eq_some_getLast hne] at hmap
    exact hlast (Option.some.inj hmap).symm

/-- **Uniqueness.** A digit string without leading zeros is the rendering of its value. -/
theorem render_value {ds : List UInt8} (h : ∀ d ∈ ds, IsDigit d) (hlead : NoLeadingZeros ds) :
    render (value ds) = ds := by
  obtain ⟨d, ds, rfl⟩ := List.exists_cons_of_ne_nil hlead.1
  by_cases h0 : digitOf d = 0
  · rw [eq_zero_of_noLeadingZeros hlead (h d List.mem_cons_self) h0]
    rfl
  · have hval : value (d :: ds) ≠ 0 := by
      have hcons := value_append [d] ds
      rw [List.singleton_append, value_singleton] at hcons
      have := Nat.mul_pos (Nat.pos_of_ne_zero h0) (Nat.pow_pos (n := ds.length) (by decide : 0 < 10))
      omega
    refine eq_of_map_digitOf (isDigit_render _) h ?_
    rw [map_digitOf_render hval, value, Nat.digits_ofDigits 10 (by omega) _ (digits_lt h),
      List.reverse_reverse]
    intro hne
    simpa [List.getLast_reverse] using h0

/-- The number in at least `width` digits, filled with zeros on the left. -/
def renderPadded (width n : Nat) : List UInt8 := (render n).leftpad width 48

theorem isDigit_renderPadded (width n : Nat) : ∀ d ∈ renderPadded width n, IsDigit d := by
  intro d hd
  simp only [renderPadded, List.leftpad, List.mem_append, List.mem_replicate] at hd
  rcases hd with ⟨-, rfl⟩ | hd
  · decide
  · exact isDigit_render n d hd

theorem value_renderPadded (width n : Nat) : value (renderPadded width n) = n := by
  have hzeros : ∀ k, value (List.replicate k 48) = 0 := by
    intro k
    simp only [value, List.map_replicate, List.reverse_replicate]
    exact Nat.ofDigits_replicate_zero
  rw [renderPadded, List.leftpad, value_append, hzeros, value_render]
  omega

theorem length_renderPadded {width n : Nat} (hw : 0 < width) (h : n < 10 ^ width) :
    (renderPadded width n).length = width := by
  have hle := length_render_le hw h
  rw [renderPadded, List.leftpad, List.length_append, List.length_replicate]
  omega

/-! ### Numerals -/

/-- Digits with at most one dot among them. -/
structure Digits where
  whole : List UInt8
  /-- What follows the dot, if there is one. -/
  frac : Option (List UInt8)
  deriving DecidableEq, Repr

namespace Digits

/-- All digits, the dot left out. -/
def all (b : Digits) : List UInt8 := b.whole ++ b.frac.getD []

/-- The number of digits after the dot. -/
def places (b : Digits) : Nat := (b.frac.getD []).length

def bytes (b : Digits) : List UInt8 :=
  match b.frac with
  | none => b.whole
  | some ds => b.whole ++ 46 :: ds

/-- More digits at the end. -/
def append (b : Digits) (ds : List UInt8) : Digits :=
  match b.frac with
  | none => ⟨b.whole ++ ds, none⟩
  | some frac => ⟨b.whole, some (frac ++ ds)⟩

@[simp] theorem all_append (b : Digits) (ds : List UInt8) : (b.append ds).all = b.all ++ ds := by
  obtain ⟨whole, frac⟩ := b
  cases frac <;> simp [append, all]

@[simp] theorem bytes_append (b : Digits) (ds : List UInt8) :
    (b.append ds).bytes = b.bytes ++ ds := by
  obtain ⟨whole, frac⟩ := b
  cases frac <;> simp [append, bytes]

@[simp] theorem append_append (b : Digits) (ds ds' : List UInt8) :
    (b.append ds).append ds' = b.append (ds ++ ds') := by
  obtain ⟨whole, frac⟩ := b
  cases frac <;> simp [append]

theorem places_append (b : Digits) (ds : List UInt8) :
    (b.append ds).places = if b.frac.isSome then b.places + ds.length else b.places := by
  obtain ⟨whole, frac⟩ := b
  cases frac <;> simp [append, places]

@[simp] theorem frac_isSome_append (b : Digits) (ds : List UInt8) :
    (b.append ds).frac.isSome = b.frac.isSome := by
  obtain ⟨whole, frac⟩ := b
  cases frac <;> rfl

/-- **The grammar is unambiguous.** A dot is no digit, so the bytes tell the parts. -/
theorem bytes_inj {b b' : Digits} (h : ∀ d ∈ b.all, IsDigit d) (h' : ∀ d ∈ b'.all, IsDigit d)
    (heq : b.bytes = b'.bytes) : b = b' := by
  have hdot : ∀ {ds : List UInt8}, (∀ d ∈ ds, IsDigit d) → (46 : UInt8) ∉ ds := fun hds hmem =>
    absurd (hds 46 hmem) (by decide)
  obtain ⟨whole, frac⟩ := b
  obtain ⟨whole', frac'⟩ := b'
  have hwhole := hdot fun d hd => h d (List.mem_append_left _ hd)
  have hwhole' := hdot fun d hd => h' d (List.mem_append_left _ hd)
  have hfrac' := hdot fun d hd => h' d (List.mem_append_right _ hd)
  cases frac with
  | none =>
      cases frac' with
      | none =>
          rw [show whole = whole' from heq]
      | some ds' =>
          have hsame : whole = whole' ++ 46 :: ds' := heq
          exact absurd (by rw [hsame]; simp) hwhole
  | some ds =>
      cases frac' with
      | none =>
          have hsame : whole ++ 46 :: ds = whole' := heq
          exact absurd (by rw [← hsame]; simp) hwhole'
      | some ds' =>
          obtain ⟨rfl, -, rfl⟩ := (List.append_cons_inj_of_notMem hwhole' hfrac').mp heq.symm
          rfl

theorem isDigit_of_all {ds : Digits} (h : ds.all.all (fun d => decide (IsDigit d)) = true) :
    ∀ d ∈ ds.all, IsDigit d :=
  fun d hd => of_decide_eq_true (List.all_eq_true.mp h d hd)

end Digits

inductive Sign
  | plus
  | minus
  deriving DecidableEq, Repr

def Sign.byte : Sign → UInt8
  | .plus => 43
  | .minus => 45

/-- The sign as a factor. -/
def signFactor (negative : Bool) : Int := if negative then -1 else 1

theorem signFactor_ne_zero (negative : Bool) : signFactor negative ≠ 0 := by
  cases negative <;> decide

/-- A decimal numeral: an optional sign, then digits with at most one dot, at least one
digit in all. -/
structure Numeral extends Digits where
  sign : Option Sign
  isDigit : ∀ d ∈ toDigits.all, IsDigit d
  nonempty : toDigits.all ≠ []

namespace Numeral

def bytes (n : Numeral) : List UInt8 := (n.sign.map Sign.byte).toList ++ n.toDigits.bytes

def negative (n : Numeral) : Bool := n.sign == some .minus

/-- The number denoted. -/
def toRat (n : Numeral) : ℚ := signFactor n.negative * value n.all / 10 ^ n.places

/-- Scaling by a power that covers the fractional digits gives an integer. -/
theorem toRat_mul_pow {n : Numeral} {D : Nat} (h : n.places ≤ D) :
    n.toRat * 10 ^ D = ((signFactor n.negative * value n.all * 10 ^ (D - n.places) : Int) : ℚ) := by
  have hpow : (10 : ℚ) ^ D = 10 ^ n.places * 10 ^ (D - n.places) := by
    rw [← pow_add, Nat.add_sub_cancel' h]
  have hne : (10 : ℚ) ^ n.places ≠ 0 := pow_ne_zero _ (by norm_num)
  rw [toRat, hpow]
  push_cast
  field_simp

/-- The canonical form with `D` decimals: a sign only on negative numbers, no superfluous
leading zeros, exactly `D` fractional digits and no dot without one. -/
structure IsCanonical (D : Nat) (n : Numeral) : Prop where
  sign : n.sign = if n.toRat < 0 then some .minus else none
  whole : NoLeadingZeros n.whole
  frac : if D = 0 then n.frac = none else ∃ ds, n.frac = some ds ∧ ds.length = D

theorem IsCanonical.places_eq {D : Nat} {n : Numeral} (h : n.IsCanonical D) : n.places = D := by
  have hfrac := h.frac
  split at hfrac
  · next h0 => simp [Digits.places, hfrac, h0]
  · obtain ⟨ds, hds, hlen⟩ := hfrac
    simp [Digits.places, hds, hlen]

theorem isDigit_whole (n : Numeral) : ∀ d ∈ n.whole, IsDigit d := fun d hd =>
  n.isDigit d (List.mem_append_left _ hd)

theorem isDigit_frac (n : Numeral) : ∀ d ∈ n.frac.getD [], IsDigit d := fun d hd =>
  n.isDigit d (List.mem_append_right _ hd)

/-- The dot splits the value: what stands before it and after it can be read off. -/
theorem value_split (n : Numeral) :
    value n.whole = value n.all / 10 ^ n.places ∧
      value (n.frac.getD []) = value n.all % 10 ^ n.places := by
  have hall : value n.all = value n.whole * 10 ^ n.places + value (n.frac.getD []) :=
    value_append _ _
  have hlt : value (n.frac.getD []) < 10 ^ n.places := value_lt n.isDigit_frac
  have hpos : 0 < 10 ^ n.places := Nat.pow_pos (by omega)
  rw [hall, Nat.mul_comm, Nat.mul_add_div hpos, Nat.div_eq_of_lt hlt, Nat.mul_add_mod,
    Nat.mod_eq_of_lt hlt]
  exact ⟨rfl, rfl⟩

/-- With the same number of decimals and the same sign, equal numbers have equal digits. -/
theorem value_eq_of_toRat {n m : Numeral} (hsign : n.sign = m.sign) (hplaces : n.places = m.places)
    (h : n.toRat = m.toRat) : value n.all = value m.all := by
  have hnegative : n.negative = m.negative := by rw [negative, negative, hsign]
  have hscaled : n.toRat * 10 ^ m.places = m.toRat * 10 ^ m.places := by rw [h]
  rw [toRat_mul_pow hplaces.le, toRat_mul_pow le_rfl, Int.cast_inj, hplaces, hnegative, Nat.sub_self,
    pow_zero, mul_one, mul_one] at hscaled
  exact_mod_cast mul_left_cancel₀ (signFactor_ne_zero _) hscaled

/-- **Canonical numerals are unique.** -/
theorem IsCanonical.unique {D : Nat} {n m : Numeral} (hn : n.IsCanonical D) (hm : m.IsCanonical D)
    (h : n.toRat = m.toRat) : n.bytes = m.bytes := by
  have hsign : n.sign = m.sign := by rw [hn.sign, hm.sign, h]
  have hplaces : n.places = m.places := hn.places_eq.trans hm.places_eq.symm
  have hvalue := value_eq_of_toRat hsign hplaces h
  obtain ⟨hnw, hnf⟩ := n.value_split
  obtain ⟨hmw, hmf⟩ := m.value_split
  have hwhole : n.whole = m.whole := by
    rw [← render_value n.isDigit_whole hn.whole, ← render_value m.isDigit_whole hm.whole, hnw, hmw,
      hvalue, hplaces]
  have hgetD : n.frac.getD [] = m.frac.getD [] := by
    refine value_inj n.isDigit_frac m.isDigit_frac hplaces ?_
    rw [hnf, hmf, hvalue, hplaces]
  have hfrac : n.frac = m.frac := by
    have hcn := hn.frac
    have hcm := hm.frac
    by_cases h0 : D = 0
    · rw [if_pos h0] at hcn hcm
      rw [hcn, hcm]
    · rw [if_neg h0] at hcn hcm
      obtain ⟨ds, hds, -⟩ := hcn
      obtain ⟨ds', hds', -⟩ := hcm
      rw [hds, hds'] at hgetD ⊢
      exact congrArg some hgetD
  simp only [bytes, Digits.bytes, hsign, hwhole, hfrac]

end Numeral

end Decimal
