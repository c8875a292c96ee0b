import Mantis.Fixed.Parse
import Mantis.Lib.Decimal

/-!
# Mantis.Fixed.Numeral

What `parse_decimal_bytes` accepts, and what it returns.

After any accepted prefix the accumulator holds the digits read so far (`Reads`): their
value negated, how many of them count, how many follow the dot. A byte is refused when it
is out of place or when the digits with it exceed `2^63` (`feed_spec`), which no
continuation can repair. Rescaling is then exact, and the bytes accepted are the
decimal numerals whose number is representable.
-/

namespace Mantis

open Decimal

namespace Accumulator

/-- The accumulator after reading these digits. -/
structure Reads (acc : Accumulator) (b : Digits) : Prop where
  isDigit : ∀ d ∈ b.all, IsDigit d
  mantissa : acc.mantissa.toInt = -(value b.all : Int)
  /-- The digits counted are those from the first that is not zero. -/
  total_le : acc.totalDigits.toNat ≤ 19
  lt_total : value b.all < 10 ^ acc.totalDigits.toNat
  total_lt : 10 ^ acc.totalDigits.toNat ≤ max 1 (10 * value b.all)
  /-- The counter saturates. -/
  fracDigits : acc.fracDigits.toNat = min 255 b.places
  sawDot : acc.sawDot = b.frac.isSome
  sawAnyDigit : acc.sawAnyDigit = !b.all.isEmpty

theorem reads_new : new.Reads ⟨[], none⟩ where
  isDigit := by simp [Digits.all]
  mantissa := rfl
  total_le := by decide
  lt_total := by decide
  total_lt := by decide
  fracDigits := rfl
  sawDot := rfl
  sawAnyDigit := rfl

/-- Every plain operation of `feed` has a representable exact result. -/
structure FeedFits (acc : Accumulator) (byte : UInt8) : Prop where
  /-- `byte - b'0'`. -/
  digit : IsDigit byte → 48 ≤ byte.toNat
  /-- `total_digits += 1`. -/
  count : IsDigit byte → ¬ (digitOf byte = 0 ∧ acc.mantissa = 0) → acc.totalDigits.toNat + 1 < 256
  /-- `mantissa * 10 - digit`, where it is not checked. -/
  mantissa : IsDigit byte → ¬ (digitOf byte = 0 ∧ acc.mantissa = 0) →
    acc.totalDigits.toNat + 1 ≤ 18 →
    I64.Fits (acc.mantissa.toInt * 10) ∧ I64.Fits (acc.mantissa.toInt * 10 - digitOf byte)

theorem toNat_saturatingSuccU8 (n : UInt8) : (saturatingSuccU8 n).toNat = min 255 (n.toNat + 1) := by
  have hlt := n.toNat_lt
  simp only [saturatingSuccU8]
  split
  · next h => rw [h]; rfl
  · next h =>
      have hne : n.toNat ≠ 255 := fun h255 => h (UInt8.toNat_inj.mp h255)
      rw [UInt8.toNat_add]
      change (n.toNat + 1) % 256 = _
      omega

variable {acc acc' : Accumulator} {b : Digits} {byte : UInt8}

theorem Reads.mantissa_eq_zero (h : acc.Reads b) : acc.mantissa = 0 ↔ value b.all = 0 := by
  rw [← I64.toInt_eq_zero, h.mantissa]
  omega

/-- The bounds that the digits counted so far put on the value. -/
theorem Reads.total_bounds (h : acc.Reads b) :
    (value b.all = 0 → acc.totalDigits.toNat = 0) ∧
      (acc.totalDigits.toNat + 1 ≤ 18 → value b.all < 10 ^ 17) ∧
      (acc.totalDigits.toNat = 19 → 10 ^ 18 ≤ value b.all) := by
  have hlow := h.total_lt
  have hup := h.lt_total
  refine ⟨?_, ?_, ?_⟩
  · intro h0
    rw [h0] at hlow
    by_contra hne
    have := Nat.pow_le_pow_right (n := 10) (by omega) (Nat.pos_of_ne_zero hne)
    omega
  · intro hle
    exact Nat.lt_of_lt_of_le hup (Nat.pow_le_pow_right (by omega) (by omega))
  · intro h19
    rw [h19] at hlow
    omega

theorem Reads.feedFits (h : acc.Reads b) (byte : UInt8) : acc.FeedFits byte := by
  refine ⟨fun hd => UInt8.le_iff_toNat_le.mp hd.1, fun _ _ => ?_, fun hd _ hle => ?_⟩
  · have := h.total_le
    omega
  · have hlt := h.total_bounds.2.1 hle
    have hdigit := digitOf_lt hd
    rw [h.mantissa]
    constructor <;> constructor <;> omega

/-- A digit is read once the mantissa and the count take it in. -/
theorem Reads.countDigit (h : acc.Reads b) (hd : IsDigit byte) {mantissa : Int64}
    {totalDigits : UInt8} (hm : mantissa.toInt = -(value (b.all ++ [byte]) : Int))
    (hle : totalDigits.toNat ≤ 19) (hup : value (b.all ++ [byte]) < 10 ^ totalDigits.toNat)
    (hlow : 10 ^ totalDigits.toNat ≤ max 1 (10 * value (b.all ++ [byte]))) :
    ({ acc with mantissa, totalDigits } : Accumulator).countDigit.Reads (b.append [byte]) where
  isDigit := by
    intro d hmem
    rw [Digits.all_append] at hmem
    rcases List.mem_append.mp hmem with hmem | hmem
    · exact h.isDigit d hmem
    · rwa [List.mem_singleton.mp hmem]
  mantissa := by
    rw [Digits.all_append]
    exact hm
  total_le := hle
  lt_total := by
    rw [Digits.all_append]
    exact hup
  total_lt := by
    rw [Digits.all_append]
    exact hlow
  fracDigits := by
    show (if acc.sawDot then saturatingSuccU8 acc.fracDigits else acc.fracDigits).toNat = _
    rw [Digits.places_append, h.sawDot]
    split
    · rw [toNat_saturatingSuccU8, h.fracDigits, List.length_singleton]
      omega
    · exact h.fracDigits
  sawDot := by
    rw [Digits.frac_isSome_append]
    exact h.sawDot
  sawAnyDigit := by simp [Accumulator.countDigit]

theorem toInt_digit (hd : IsDigit byte) : (Int64.ofNat (byte - 48).toNat).toInt = digitOf byte := by
  have hlt := digitOf_lt hd
  exact Int64.toInt_ofNat_of_lt (by show digitOf byte < _; omega)

/-- A digit that is not a leading zero, on the accumulator. -/
theorem feed_of_counted (hd : IsDigit byte) (hzero : ¬ (digitOf byte = 0 ∧ acc.mantissa = 0)) :
    acc.feed byte =
      if (19 : UInt8) < acc.totalDigits + 1 then .error .overflow
      else if acc.totalDigits + 1 ≤ (18 : UInt8) then
        .ok ({ acc with
          mantissa := acc.mantissa * 10 - Int64.ofNat (byte - 48).toNat
          totalDigits := acc.totalDigits + 1 } : Accumulator).countDigit
      else
        match (I64.checkedMul acc.mantissa 10).bind
            (I64.checkedSub · (Int64.ofNat (byte - 48).toNat)) with
        | some mantissa =>
            .ok ({ acc with mantissa, totalDigits := acc.totalDigits + 1 } : Accumulator).countDigit
        | none => .error .overflow := by
  have hne : ¬ (Int64.ofNat (byte - 48).toNat = 0 ∧ acc.mantissa = 0) := by
    rintro ⟨h0, hm⟩
    refine hzero ⟨?_, hm⟩
    have := toInt_digit hd
    rw [h0, Int64.toInt_zero] at this
    omega
  unfold feed
  exact (if_pos (show 48 ≤ byte ∧ byte ≤ 57 from hd)).trans (if_neg hne)

/-- The checked step of the 19th digit is exact or out of range. -/
theorem checkedStep_eq_some {m d m' : Int64} :
    (I64.checkedMul m 10).bind (I64.checkedSub · d) = some m' ↔
      I64.Fits (m.toInt * 10) ∧ m'.toInt = m.toInt * 10 - d.toInt := by
  rw [Option.bind_eq_some_iff]
  constructor
  · rintro ⟨p, hp, hm'⟩
    rw [I64.checkedMul, I64.checked_eq_some] at hp
    rw [I64.checkedSub, I64.checked_eq_some, hp] at hm'
    exact ⟨hp ▸ I64.fits_toInt p, hm'⟩
  · rintro ⟨hfits, hm'⟩
    refine ⟨Int64.ofInt (m.toInt * 10), I64.checked_of_fits hfits, ?_⟩
    rw [I64.checkedSub, I64.checked_eq_some, I64.toInt_ofInt hfits]
    exact hm'

/-- A leading zero is only counted as a digit. -/
theorem feed_leadingZero (h : acc.Reads b) (hd : IsDigit byte) (hdigit : digitOf byte = 0)
    (hm : acc.mantissa = 0) :
    ∃ acc', acc.feed byte = .ok acc' ∧ acc'.Reads (b.append [byte]) := by
  have h0 : value b.all = 0 := h.mantissa_eq_zero.mp hm
  have hsnoc : value (b.all ++ [byte]) = 0 := by rw [value_snoc, h0, hdigit]
  have hfeed : acc.feed byte = .ok acc.countDigit := by
    have hz : Int64.ofNat (byte - 48).toNat = 0 := by
      rw [show (byte - 48).toNat = 0 from hdigit]
      rfl
    simp only [feed]
    rw [if_pos (show 48 ≤ byte ∧ byte ≤ 57 from hd), if_pos ⟨hz, hm⟩]
  have hmant : acc.mantissa.toInt = -(value (b.all ++ [byte]) : Int) := by
    rw [h.mantissa, hsnoc, h0]
  refine ⟨_, hfeed, h.countDigit hd hmant h.total_le ?_ ?_⟩
  · rw [hsnoc]
    exact Nat.pow_pos (by omega)
  · rw [h.total_bounds.1 h0]
    exact Nat.le_max_left _ _

/-- Any other digit moves the count, the bounds on the value and the exact mantissa on. -/
theorem Reads.counted (h : acc.Reads b) (hzero : ¬ (digitOf byte = 0 ∧ acc.mantissa = 0))
    (hd : IsDigit byte) :
    (acc.totalDigits + 1).toNat = acc.totalDigits.toNat + 1 ∧
      value (b.all ++ [byte]) < 10 ^ (acc.totalDigits + 1).toNat ∧
      10 ^ (acc.totalDigits + 1).toNat ≤ max 1 (10 * value (b.all ++ [byte])) ∧
      acc.mantissa.toInt * 10 - digitOf byte = -(value (b.all ++ [byte]) : Int) := by
  have hsnoc := value_snoc b.all byte
  have hdigit := digitOf_lt hd
  have hcount : (acc.totalDigits + 1).toNat = acc.totalDigits.toNat + 1 := by
    have := h.total_le
    rw [UInt8.toNat_add]
    change (acc.totalDigits.toNat + 1) % 256 = _
    omega
  refine ⟨hcount, ?_, ?_, ?_⟩
  · have := h.lt_total
    rw [hsnoc, hcount, pow_succ]
    omega
  · have := h.total_lt
    have hd0 : value b.all = 0 → digitOf byte ≠ 0 := fun h0 hdig =>
      hzero ⟨hdig, h.mantissa_eq_zero.mpr h0⟩
    rw [hsnoc, hcount, pow_succ]
    omega
  · rw [h.mantissa, hsnoc]
    push_cast
    ring

/-- The checked step refuses only digits that exceed `2^63`. -/
theorem checkedStep_eq_none {m d : Int64} {n : Nat}
    (h : (I64.checkedMul m 10).bind (I64.checkedSub · d) = none)
    (hexact : m.toInt * 10 - d.toInt = -(n : Int)) (hm : m.toInt ≤ 0) (hd : 0 ≤ d.toInt) :
    2 ^ 63 < n := by
  by_contra hle
  -- within range both checks would have passed
  have hfits : I64.Fits (-(n : Int)) := by constructor <;> omega
  have hprod : I64.Fits (m.toInt * 10) := by constructor <;> omega
  have hstep := I64.toInt_ofInt hfits
  rw [← hexact] at hstep
  rw [checkedStep_eq_some.mpr ⟨hprod, hstep⟩] at h
  cases h

/-- **A digit.** It is read, or the digits with it exceed `2^63`. -/
theorem feed_digit (h : acc.Reads b) (hd : IsDigit byte) :
    (∃ acc', acc.feed byte = .ok acc' ∧ acc'.Reads (b.append [byte])) ∨
      2 ^ 63 < value (b.all ++ [byte]) ∧ ∃ e, acc.feed byte = .error e := by
  by_cases hzero : digitOf byte = 0 ∧ acc.mantissa = 0
  · exact Or.inl (feed_leadingZero h hd hzero.1 hzero.2)
  · obtain ⟨hcount, hup, hlow, hexact⟩ := h.counted hzero hd
    rw [feed_of_counted hd hzero]
    by_cases hover : (19 : UInt8) < acc.totalDigits + 1
    · -- the 20th digit counted
      rw [if_pos hover]
      refine Or.inr ⟨?_, _, rfl⟩
      rw [UInt8.lt_iff_toNat_lt, hcount] at hover
      change 19 < _ at hover
      have hvalue := h.total_bounds.2.2 (by have := h.total_le; omega)
      have hsnoc := value_snoc b.all byte
      omega
    · rw [if_neg hover]
      have hle : (acc.totalDigits + 1).toNat ≤ 19 := by
        rw [UInt8.lt_iff_toNat_lt] at hover
        exact Nat.le_of_not_lt hover
      by_cases hsmall : acc.totalDigits + 1 ≤ (18 : UInt8)
      · -- below 19 digits the plain operators are exact
        have hfits := (h.feedFits byte).mantissa hd hzero (by
          rw [UInt8.le_iff_toNat_le, hcount] at hsmall
          exact hsmall)
        have hten : (acc.mantissa * 10).toInt = acc.mantissa.toInt * 10 := I64.toInt_mul hfits.1
        rw [if_pos hsmall]
        refine Or.inl ⟨_, rfl, h.countDigit hd ?_ hle hup hlow⟩
        rw [I64.toInt_sub (by rw [hten, toInt_digit hd]; exact hfits.2), hten, toInt_digit hd,
          hexact]
      · rw [if_neg hsmall]
        rw [← toInt_digit hd] at hexact
        cases hstep : (I64.checkedMul acc.mantissa 10).bind
            (I64.checkedSub · (Int64.ofNat (byte - 48).toNat)) with
        | some m =>
            have hm := (checkedStep_eq_some.mp hstep).2
            exact Or.inl ⟨_, rfl, h.countDigit hd (hm.trans hexact) hle hup hlow⟩
        | none =>
            refine Or.inr ⟨checkedStep_eq_none hstep hexact ?_ ?_, _, rfl⟩
            · rw [h.mantissa]
              omega
            · rw [toInt_digit hd]
              omega

theorem feed_dot (h : acc.Reads b) (hfrac : b.frac = none) :
    ∃ acc', acc.feed 46 = .ok acc' ∧ acc'.Reads ⟨b.whole, some []⟩ := by
  have hsaw : acc.sawDot = false := by rw [h.sawDot, hfrac]; rfl
  have hall : (⟨b.whole, some []⟩ : Digits).all = b.all := by simp [Digits.all, hfrac]
  have hplaces : (⟨b.whole, some []⟩ : Digits).places = b.places := by simp [Digits.places, hfrac]
  refine ⟨{ acc with sawDot := true }, ?_, ?_⟩
  · simp [feed, hsaw]
  · exact ⟨hall ▸ h.isDigit, hall ▸ h.mantissa, h.total_le, hall ▸ h.lt_total, hall ▸ h.total_lt,
      hplaces ▸ h.fracDigits, rfl, hall ▸ h.sawAnyDigit⟩

/-- Only a digit or the first dot is read. -/
theorem feed_ok (h : acc.Reads b) (hok : acc.feed byte = .ok acc') :
    ∃ b', acc'.Reads b' ∧ b'.bytes = b.bytes ++ [byte] := by
  by_cases hd : IsDigit byte
  · rcases feed_digit h hd with ⟨acc₁, hfeed, hreads⟩ | ⟨-, e, hfeed⟩
    · obtain rfl : acc₁ = acc' := Except.ok.inj (hfeed.symm.trans hok)
      exact ⟨_, hreads, Digits.bytes_append b [byte]⟩
    · rw [hfeed] at hok
      cases hok
  · have hrest := hok
    simp only [feed] at hrest
    rw [if_neg (show ¬ (48 ≤ byte ∧ byte ≤ 57) from hd)] at hrest
    split at hrest
    · next hdot =>
        split at hrest
        · cases hrest
        · next hsaw =>
            have hfrac : b.frac = none := by
              rw [h.sawDot] at hsaw
              simpa using hsaw
            rw [hdot] at hok ⊢
            obtain ⟨acc₁, hfeed, hreads⟩ := feed_dot h hfrac
            obtain rfl : acc₁ = acc' := Except.ok.inj (hfeed.symm.trans hok)
            exact ⟨_, hreads, by simp [Digits.bytes, hfrac]⟩
    · cases hrest

/-- **Soundness of the scan.** What the loop accepts are digits with at most one dot. -/
theorem feedAll_ok {bytes : List UInt8} (h : acc.Reads b) (hok : acc.feedAll bytes = .ok acc') :
    ∃ b', acc'.Reads b' ∧ b'.bytes = b.bytes ++ bytes := by
  induction bytes generalizing acc b with
  | nil =>
      cases hok
      exact ⟨b, h, (List.append_nil _).symm⟩
  | cons byte bytes ih =>
      simp only [feedAll] at hok
      cases hfeed : acc.feed byte with
      | error e =>
          rw [hfeed] at hok
          cases hok
      | ok acc₁ =>
          rw [hfeed] at hok
          obtain ⟨b₁, hreads, hbytes⟩ := feed_ok h hfeed
          obtain ⟨b', hreads', hbytes'⟩ := ih hreads hok
          exact ⟨b', hreads', by rw [hbytes', hbytes, List.append_assoc, List.singleton_append]⟩

theorem feedAll_append (acc : Accumulator) (xs ys : List UInt8) :
    acc.feedAll (xs ++ ys) =
      match acc.feedAll xs with
      | .ok acc => acc.feedAll ys
      | .error e => .error e := by
  induction xs generalizing acc with
  | nil => rfl
  | cons x xs ih =>
      simp only [List.cons_append, feedAll]
      cases acc.feed x with
      | ok acc₁ => exact ih acc₁
      | error e => rfl

/-- **Completeness of the scan**, for a run of digits: prefixes of a number within range
are within range. -/
theorem feedAll_digits {ds : List UInt8} (h : acc.Reads b) (hds : ∀ d ∈ ds, IsDigit d)
    (hle : value (b.all ++ ds) ≤ 2 ^ 63) :
    ∃ acc', acc.feedAll ds = .ok acc' ∧ acc'.Reads (b.append ds) := by
  induction ds generalizing acc b with
  | nil =>
      refine ⟨acc, rfl, ?_⟩
      obtain ⟨whole, frac⟩ := b
      cases frac <;> simpa [Digits.append] using h
  | cons d ds ih =>
      rw [← List.singleton_append, ← List.append_assoc] at hle
      have hprefix := value_le_append (b.all ++ [d]) ds
      rcases feed_digit h (hds d List.mem_cons_self) with ⟨acc₁, hfeed, hreads⟩ | ⟨hover, -⟩
      · obtain ⟨acc', hall, hreads'⟩ := ih hreads (fun x hx => hds x (List.mem_cons_of_mem d hx))
          (by rw [Digits.all_append]; exact hle)
        refine ⟨acc', ?_, ?_⟩
        · simp only [feedAll]
          rw [hfeed]
          exact hall
        · rwa [Digits.append_append, List.singleton_append] at hreads'
      · omega

/-- Completeness for digits with at most one dot. -/
theorem feedAll_bytes (hb : ∀ d ∈ b.all, IsDigit d) (hle : value b.all ≤ 2 ^ 63) :
    ∃ acc, new.feedAll b.bytes = .ok acc ∧ acc.Reads b := by
  obtain ⟨whole, frac⟩ := b
  have hwhole : ∀ d ∈ whole, IsDigit d := fun d hd => hb d (List.mem_append_left _ hd)
  have hwle : value whole ≤ 2 ^ 63 := le_trans (value_le_append whole (frac.getD [])) hle
  obtain ⟨acc₁, hfeed₁, hreads₁⟩ := feedAll_digits (b := ⟨[], none⟩) reads_new hwhole hwle
  cases frac with
  | none => exact ⟨acc₁, hfeed₁, hreads₁⟩
  | some frac =>
      obtain ⟨acc₂, hfeed₂, hreads₂⟩ := feed_dot hreads₁ rfl
      have hfrac : ∀ d ∈ frac, IsDigit d := fun d hd => hb d (List.mem_append_right _ hd)
      obtain ⟨acc₃, hfeed₃, hreads₃⟩ := feedAll_digits (b := ⟨whole, some []⟩) hreads₂
        hfrac (by simpa [Digits.all] using hle)
      refine ⟨acc₃, ?_, hreads₃⟩
      simp only [Digits.bytes]
      rw [feedAll_append, hfeed₁]
      simp only [feedAll]
      rw [hfeed₂]
      exact hfeed₃

end Accumulator

namespace FixedI64

variable {D : Nat}

/-- The sign and the digits of a slice, whatever the bytes are. -/
theorem splitSign_spec (bytes : List UInt8) :
    ∃ sign : Option Sign, bytes = (sign.map Sign.byte).toList ++ (splitSign bytes).2 ∧
      (splitSign bytes).1 = (sign == some .minus) := by
  cases bytes with
  | nil => exact ⟨none, rfl, rfl⟩
  | cons byte bytes =>
      simp only [splitSign]
      split
      · next h => exact ⟨some .minus, by rw [h]; rfl, rfl⟩
      · split
        · next h => exact ⟨some .plus, by rw [h]; rfl, rfl⟩
        · exact ⟨none, rfl, rfl⟩

/-- Digits do not start with a sign. -/
theorem head_ne_sign {b : Digits} (hb : ∀ d ∈ b.all, IsDigit d) {byte : UInt8} {bytes : List UInt8}
    (h : b.bytes = byte :: bytes) : byte ≠ 45 ∧ byte ≠ 43 := by
  obtain ⟨whole, frac⟩ := b
  have hdigit : ∀ d ∈ whole, d ≠ 45 ∧ d ≠ 43 := by
    intro d hd
    have := hb d (List.mem_append_left _ hd)
    constructor <;> rintro rfl <;> exact absurd this (by decide)
  cases whole with
  | cons d whole =>
      have hd := hdigit d List.mem_cons_self
      cases frac <;> cases h <;> exact hd
  | nil =>
      cases frac with
      | none => cases h
      | some frac =>
          cases h
          exact ⟨by decide, by decide⟩

theorem splitSign_bytes (n : Numeral) :
    splitSign n.bytes = (n.negative, n.toDigits.bytes) := by
  simp only [Numeral.bytes, Numeral.negative]
  cases hsign : n.sign with
  | some sign => cases sign <;> rfl
  | none =>
      cases hbytes : n.toDigits.bytes with
      | nil => rfl
      | cons byte bytes =>
          obtain ⟨hminus, hplus⟩ := head_ne_sign n.isDigit hbytes
          simp [splitSign, hminus, hplus]

/-- The signed mantissa, if there is one. -/
theorem signedMantissa_eq_some {acc : Accumulator} {b : Digits} (h : acc.Reads b)
    (negative : Bool) (m : Int64) :
    (if negative then some acc.mantissa else I64.checkedNeg acc.mantissa) = some m ↔
      m.toInt = signFactor negative * value b.all := by
  have hmant := h.mantissa
  cases negative with
  | true =>
      simp only [if_true, Option.some.injEq, signFactor, ← Int64.toInt_inj, hmant]
      omega
  | false =>
      simp only [Bool.false_eq_true, if_false, I64.checkedNeg, I64.checked_eq_some, signFactor, hmant]
      omega

/-- The padding with zeros, if there is room for them. -/
theorem pad_eq_ok {pad : Nat} (hpad : pad ≤ 18) (m : Int64) (v : FixedI64 D) :
    (if pad = 0 then .ok ⟨m⟩
      else match I64.checkedMul m (pow10I64 pad) with
        | some scaled => .ok ⟨scaled⟩
        | none => .error .overflow : Except ParseFixedError (FixedI64 D)) = .ok v ↔
      v.raw.toInt = m.toInt * 10 ^ pad := by
  obtain ⟨raw⟩ := v
  by_cases h0 : pad = 0
  · rw [if_pos h0, h0, pow_zero, mul_one, Int64.toInt_inj]
    simp [eq_comm]
  · rw [if_neg h0, ← toInt_pow10I64 hpad]
    cases hscaled : I64.checkedMul m (pow10I64 pad) with
    | none =>
        simp only [reduceCtorEq, false_iff]
        intro hv
        rw [I64.checkedMul, I64.checked_eq_none, ← hv] at hscaled
        exact hscaled (I64.fits_toInt raw)
    | some scaled =>
        rw [I64.checkedMul, I64.checked_eq_some] at hscaled
        rw [← hscaled, Int64.toInt_inj]
        simp [eq_comm]

/-- **Rescaling is exact.** It succeeds when the fractional digits fit the scale and the
scaled number is an `i64`. -/
theorem rescale_eq_ok {acc : Accumulator} {b : Digits} (hD : D ≤ 18) (h : acc.Reads b)
    (negative : Bool) (v : FixedI64 D) :
    rescale negative acc = .ok v ↔
      b.places ≤ D ∧ v.raw.toInt = signFactor negative * value b.all * 10 ^ (D - b.places) := by
  have hfrac := h.fracDigits
  simp only [rescale]
  by_cases hprec : D < acc.fracDigits.toNat
  · rw [if_pos hprec]
    simp only [reduceCtorEq, false_iff, not_and]
    intro hle
    omega
  · have hplaces : acc.fracDigits.toNat = b.places := by omega
    rw [if_neg hprec, if_neg (by omega), hplaces]
    have hle : b.places ≤ D := by omega
    simp only [hle, true_and]
    have hsigned := signedMantissa_eq_some h negative
    cases hm : if negative then some acc.mantissa else I64.checkedNeg acc.mantissa with
    | none =>
        simp only [reduceCtorEq, false_iff]
        intro hv
        -- a mantissa that is out of range stays so when it is scaled
        have hpow : (1 : Int) ≤ 10 ^ (D - b.places) := one_le_pow₀ (by norm_num)
        have hfits := I64.fits_toInt v.raw
        rw [hv] at hfits
        have hsome := (hsigned _).mpr (I64.toInt_ofInt (hfits.of_mul hpow))
        rw [hm] at hsome
        cases hsome
    | some m =>
        rw [← (hsigned m).mp hm]
        exact pad_eq_ok (by omega) m v

/-- Every plain operation of `parse_decimal_bytes` has a representable exact result: those
of the loop, on every prefix it accepts, and `D - frac_digits`. -/
structure ParseFits (D : Nat) (bytes : List UInt8) : Prop where
  feed : ∀ pre byte post acc, (splitSign bytes).2 = pre ++ byte :: post →
    Accumulator.new.feedAll pre = .ok acc → acc.FeedFits byte
  pad : ∀ acc, Accumulator.new.feedAll (splitSign bytes).2 = .ok acc →
    rescale (D := D) (splitSign bytes).1 acc ≠ .error .excessPrecision → acc.fracDigits.toNat ≤ D

theorem parseFits (bytes : List UInt8) : ParseFits D bytes where
  feed := by
    intro pre byte post acc _ hacc
    obtain ⟨b, hreads, -⟩ := Accumulator.feedAll_ok Accumulator.reads_new hacc
    exact hreads.feedFits byte
  pad := by
    intro acc _ hprec
    by_contra hlt
    refine hprec ?_
    simp only [rescale]
    rw [if_pos (Nat.lt_of_not_le hlt)]

/-- A numeral that is representable has at most `2^63` as its digits. -/
theorem value_le_of_raw {n : Numeral} {v : FixedI64 D} (hplaces : n.places ≤ D)
    (h : n.toRat * 10 ^ D = v.raw.toInt) :
    v.raw.toInt = signFactor n.negative * value n.all * 10 ^ (D - n.places) ∧
      value n.all ≤ 2 ^ 63 := by
  rw [Numeral.toRat_mul_pow hplaces, Int.cast_inj] at h
  have hpow : (1 : Int) ≤ 10 ^ (D - n.places) := one_le_pow₀ (by norm_num)
  have hfits := I64.fits_toInt v.raw
  rw [← h] at hfits
  obtain ⟨h₁, h₂⟩ := hfits.of_mul hpow
  refine ⟨h.symm, ?_⟩
  cases hneg : n.negative with
  | true =>
      rw [hneg] at h₁
      simp only [signFactor, if_true] at h₁
      omega
  | false =>
      rw [hneg] at h₂
      simp only [signFactor, Bool.false_eq_true, if_false] at h₂
      omega

/-- The bytes accepted are the representable numerals. -/
theorem parseDecimalBytes_eq_ok (hD : D ≤ 18) (bytes : List UInt8) (v : FixedI64 D) :
    parseDecimalBytes bytes = .ok v ↔
      ∃ n : Numeral, n.bytes = bytes ∧ n.places ≤ D ∧ n.toRat * 10 ^ D = v.raw.toInt := by
  constructor
  · intro hok
    obtain ⟨sign, hbytes, hneg⟩ := splitSign_spec bytes
    simp only [parseDecimalBytes] at hok
    split at hok
    · cases hok
    · split at hok
      · cases hok
      · next acc hacc =>
          obtain ⟨b, hreads, hb⟩ := Accumulator.feedAll_ok Accumulator.reads_new hacc
          split at hok
          · next hany =>
              have hne : b.all ≠ [] := by
                rw [hreads.sawAnyDigit] at hany
                simpa using hany
              obtain ⟨hplaces, hraw⟩ := (rescale_eq_ok hD hreads _ v).mp hok
              refine ⟨⟨b, sign, hreads.isDigit, hne⟩, ?_, hplaces, ?_⟩
              · rw [hbytes]
                exact congrArg ((sign.map Sign.byte).toList ++ ·) hb
              · rw [Numeral.toRat_mul_pow hplaces, hraw, hneg]
                rfl
          · cases hok
  · rintro ⟨n, rfl, hplaces, hnum⟩
    obtain ⟨hraw, hle⟩ := value_le_of_raw hplaces hnum
    obtain ⟨acc, hacc, hreads⟩ := Accumulator.feedAll_bytes n.isDigit hle
    have hany : acc.sawAnyDigit = true := by
      rw [hreads.sawAnyDigit]
      simpa using n.nonempty
    have hne : ¬ n.toDigits.bytes.isEmpty = true := by
      intro hempty
      rw [List.isEmpty_iff.mp hempty] at hacc
      cases hacc
      cases hany
    simp only [parseDecimalBytes, splitSign_bytes]
    rw [if_neg hne, hacc]
    simp only [hany, if_true]
    exact (rescale_eq_ok hD hreads _ v).mpr ⟨hplaces, hraw⟩

/-- **The parser is exact on its grammar.** At every scale up to 18 and on every byte
string, the bytes are accepted exactly when they are a decimal numeral with at most `D`
fractional digits whose number times `10^D` is an `i64`, and the raw value is that
integer. No operation on the way overflows. -/
theorem parseDecimalBytes_exact (hD : D ≤ 18) (bytes : List UInt8) :
    (∀ v : FixedI64 D, parseDecimalBytes bytes = .ok v ↔
      ∃ n : Numeral, n.bytes = bytes ∧ n.places ≤ D ∧ n.toRat * 10 ^ D = v.raw.toInt) ∧
    ParseFits D bytes :=
  ⟨parseDecimalBytes_eq_ok hD bytes, parseFits bytes⟩

/-- The value with no positive counterpart, with zeros on both sides. -/
theorem parseDecimalBytes_exact_min :
    6 ≤ 18 ∧ parseDecimalBytes "-009223372036854.775808".toUTF8.data.toList =
      .ok (⟨Int64.minValue⟩ : FixedI64 6) := by
  refine ⟨by decide, ((parseDecimalBytes_exact (by decide) _).1 _).mpr
    ⟨⟨⟨"009223372036854".toUTF8.data.toList, some "775808".toUTF8.data.toList⟩, some .minus,
      Digits.isDigit_of_all (by decide), by decide⟩, by decide, by decide, ?_⟩⟩
  rw [Numeral.toRat_mul_pow (by decide)]
  exact_mod_cast congrArg (Int.cast (R := ℚ)) (by decide)

end FixedI64

end Mantis
