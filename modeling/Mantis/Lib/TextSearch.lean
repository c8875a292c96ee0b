import Mathlib.Data.List.Infix
import Mathlib.Tactic.Common

/-!
# Searching text and its UTF-8 bytes

`afterFirst` is substring search: what follows the first occurrence of a pattern.
`bytes` is UTF-8. A pattern of ASCII characters is found in the bytes of a text exactly
where it is found in the text (`afterFirst_bytes`), since no other character has an ASCII
byte in its encoding; so reasoning about a search in bytes moves to characters and stays
there.
-/

namespace TextSearch

/-! ### Substring search -/

section

variable {α : Type*}

/-- What cannot start a pattern does not matter to whether the text ends in it. -/
theorem suffix_append_iff {x : α} {xs gap : List α} (h : x ∉ gap) (rest : List α) :
    x :: xs <:+ gap ++ rest ↔ x :: xs <:+ rest := by
  induction gap with
  | nil => rfl
  | cons a gap ih =>
      rw [List.mem_cons, not_or] at h
      rw [List.cons_append, List.suffix_cons_iff, ih h.2]
      refine or_iff_right ?_
      intro heq
      exact h.1 (List.cons.inj heq).1

variable [DecidableEq α]

/-- What follows the first occurrence of a pattern that is not empty. -/
def afterFirst (pattern : List α) : List α → Option (List α)
  | [] => none
  | a :: as =>
      if pattern <+: a :: as then some ((a :: as).drop pattern.length) else afterFirst pattern as

theorem afterFirst_append {pattern rest : List α} (h : pattern ≠ []) :
    afterFirst pattern (pattern ++ rest) = some rest := by
  cases pattern with
  | nil => exact absurd rfl h
  | cons x xs =>
      have hpre : x :: xs <+: x :: (xs ++ rest) := List.prefix_append (x :: xs) rest
      rw [List.cons_append, afterFirst, if_pos hpre]
      exact congrArg some (List.drop_left' rfl)

theorem afterFirst_step {pattern : List α} {a : α} {as : List α}
    (h : ¬ pattern <+: a :: as) : afterFirst pattern (a :: as) = afterFirst pattern as := if_neg h

/-- The search steps over what cannot start the pattern. -/
theorem afterFirst_skip {x : α} {xs gap : List α} (h : x ∉ gap) (rest : List α) :
    afterFirst (x :: xs) (gap ++ rest) = afterFirst (x :: xs) rest := by
  induction gap with
  | nil => rfl
  | cons a gap ih =>
      rw [List.mem_cons, not_or] at h
      rw [List.cons_append, afterFirst_step, ih h.2]
      intro hpre
      exact h.1 (List.cons_prefix_cons.mp hpre).1

theorem afterFirst_eq_none_of_length {pattern text : List α} (h : text.length < pattern.length) :
    afterFirst pattern text = none := by
  induction text with
  | nil => rfl
  | cons a as ih =>
      rw [afterFirst_step]
      · exact ih (by rw [List.length_cons] at h; omega)
      · intro hpre
        exact absurd hpre.length_le (by omega)

/-- The text before the first `stop`, if there is one. -/
def before (stop : α) (text : List α) : Option (List α) :=
  if stop ∈ text then some (text.takeWhile (· ≠ stop)) else none

/-- A `stop` that is there ends the text. -/
theorem before_append_cons (stop : α) (text rest : List α) :
    before stop (text ++ stop :: rest) = some (text.takeWhile (· ≠ stop)) := by
  have hmem : stop ∈ text ++ stop :: rest := List.mem_append_right _ List.mem_cons_self
  rw [before, if_pos hmem]
  refine congrArg some ?_
  induction text with
  | nil => exact List.takeWhile_cons_of_neg (by simp)
  | cons a text ih =>
      rw [List.cons_append, List.takeWhile_cons, List.takeWhile_cons]
      split
      · rw [ih (List.mem_append_right _ List.mem_cons_self)]
      · rfl

end

/-! ### UTF-8 -/

/-- The UTF-8 encoding. -/
def bytes (text : List Char) : List UInt8 := text.flatMap String.utf8EncodeChar

@[simp] theorem bytes_nil : bytes [] = [] := rfl

@[simp] theorem bytes_cons (c : Char) (cs : List Char) :
    bytes (c :: cs) = String.utf8EncodeChar c ++ bytes cs := rfl

@[simp] theorem bytes_append (cs ds : List Char) : bytes (cs ++ ds) = bytes cs ++ bytes ds :=
  List.flatMap_append

/-- Characters of one byte. -/
def IsAscii (c : Char) : Prop := c.toNat < 128

instance (c : Char) : Decidable (IsAscii c) := inferInstanceAs (Decidable (c.toNat < 128))

theorem encode_of_ascii {c : Char} (h : IsAscii c) :
    String.utf8EncodeChar c = [UInt8.ofNat c.toNat] := by
  have hle : c.val.toNat ≤ 0x7f := Nat.le_of_lt_succ h
  simp only [String.utf8EncodeChar, hle, if_true]
  rfl

/-- No other character has a byte in common with them. -/
theorem le_of_mem_encode {c : Char} (h : ¬ IsAscii c) {b : UInt8}
    (hb : b ∈ String.utf8EncodeChar c) : 128 ≤ b.toNat := by
  have hle : ¬ c.val.toNat ≤ 0x7f := fun hle => h (Nat.lt_succ_of_le hle)
  have hlarge : ∀ n : Nat, 128 ≤ n → n < 256 → 128 ≤ (UInt8.ofNat n).toNat := by
    intro n hge hlt
    rw [UInt8.toNat_ofNat', Nat.mod_eq_of_lt hlt]
    exact hge
  simp only [String.utf8EncodeChar, hle, if_false] at hb
  split at hb
  · simp only [List.mem_cons, List.not_mem_nil, or_false] at hb
    rcases hb with rfl | rfl <;> exact hlarge _ (by omega) (by omega)
  · split at hb
    · simp only [List.mem_cons, List.not_mem_nil, or_false] at hb
      rcases hb with rfl | rfl | rfl <;> exact hlarge _ (by omega) (by omega)
    · simp only [List.mem_cons, List.not_mem_nil, or_false] at hb
      rcases hb with rfl | rfl | rfl | rfl <;> exact hlarge _ (by omega) (by omega)

theorem ofNat_toNat_inj {c d : Char} (hc : IsAscii c) (hd : IsAscii d) :
    UInt8.ofNat c.toNat = UInt8.ofNat d.toNat ↔ c = d := by
  constructor
  · intro h
    have hval := congrArg UInt8.toNat h
    rw [UInt8.toNat_ofNat', UInt8.toNat_ofNat', Nat.mod_eq_of_lt (Nat.lt_trans hc (by omega)),
      Nat.mod_eq_of_lt (Nat.lt_trans hd (by omega))] at hval
    exact Char.toNat_inj.mp hval
  · rintro rfl
    rfl

/-- An ASCII character is found in an encoding only as itself. -/
theorem mem_encode_iff {c : Char} (hc : IsAscii c) (d : Char) :
    UInt8.ofNat c.toNat ∈ String.utf8EncodeChar d ↔ c = d := by
  by_cases hd : IsAscii d
  · rw [encode_of_ascii hd, List.mem_singleton, ofNat_toNat_inj hc hd]
  · constructor
    · intro hmem
      have hle := le_of_mem_encode hd hmem
      rw [UInt8.toNat_ofNat', Nat.mod_eq_of_lt (Nat.lt_trans hc (by omega))] at hle
      exact absurd hc (by unfold IsAscii; omega)
    · rintro rfl
      exact absurd hc hd

theorem mem_bytes_iff {c : Char} (hc : IsAscii c) (text : List Char) :
    UInt8.ofNat c.toNat ∈ bytes text ↔ c ∈ text := by
  simp only [bytes, List.mem_flatMap, mem_encode_iff hc]
  constructor
  · rintro ⟨d, hd, rfl⟩
    exact hd
  · intro h
    exact ⟨c, h, rfl⟩

/-! ### Searching the bytes -/

/-- An ASCII pattern is a prefix of the bytes exactly when it is one of the text. -/
theorem bytes_prefix_iff {pattern : List Char} (hpattern : ∀ c ∈ pattern, IsAscii c)
    (text : List Char) : bytes pattern <+: bytes text ↔ pattern <+: text := by
  induction pattern generalizing text with
  | nil => simp
  | cons c pattern ih =>
      have hc := hpattern c List.mem_cons_self
      have hrest : ∀ d ∈ pattern, IsAscii d := fun d hd => hpattern d (List.mem_cons_of_mem c hd)
      rw [bytes_cons, encode_of_ascii hc, List.singleton_append]
      cases text with
      | nil => simp
      | cons d text =>
          rw [bytes_cons, List.cons_prefix_cons]
          by_cases hd : IsAscii d
          · rw [encode_of_ascii hd, List.singleton_append, List.cons_prefix_cons, ih hrest,
              ofNat_toNat_inj hc hd]
          · refine iff_of_false ?_ fun h => hd (h.1 ▸ hc)
            intro hpre
            have hmem := (mem_encode_iff hc d).mp ?_
            · exact hd (hmem ▸ hc)
            · cases hbytes : String.utf8EncodeChar d with
              | nil => exact absurd hbytes String.utf8EncodeChar_ne_nil
              | cons b bs =>
                  rw [hbytes, List.cons_append, List.cons_prefix_cons] at hpre
                  rw [hpre.1]
                  exact List.mem_cons_self

/-- **Search commutes with encoding.** -/
theorem afterFirst_bytes {pattern : List Char} (hne : pattern ≠ [])
    (hpattern : ∀ c ∈ pattern, IsAscii c) (text : List Char) :
    afterFirst (bytes pattern) (bytes text) = (afterFirst pattern text).map bytes := by
  obtain ⟨c, cs, rfl⟩ := List.exists_cons_of_ne_nil hne
  have hc := hpattern c List.mem_cons_self
  have hhead : bytes (c :: cs) = UInt8.ofNat c.toNat :: bytes cs := by
    rw [bytes_cons, encode_of_ascii hc, List.singleton_append]
  induction text with
  | nil => rfl
  | cons d text ih =>
      by_cases hpre : c :: cs <+: d :: text
      · obtain ⟨rest, hrest⟩ := hpre
        rw [← hrest, afterFirst_append hne, bytes_append,
          afterFirst_append (by rw [hhead]; exact List.cons_ne_nil _ _)]
        rfl
      · rw [afterFirst_step hpre, ← ih, bytes_cons d]
        by_cases hd : IsAscii d
        · rw [encode_of_ascii hd, List.singleton_append, afterFirst_step]
          rw [← bytes_prefix_iff hpattern, bytes_cons d, encode_of_ascii hd] at hpre
          exact hpre
        · rw [hhead]
          refine afterFirst_skip ?_ _
          rw [mem_encode_iff hc]
          rintro rfl
          exact hd hc

theorem takeWhile_bytes {stop : Char} (hstop : IsAscii stop) (text : List Char) :
    (bytes text).takeWhile (· ≠ UInt8.ofNat stop.toNat) =
      bytes (text.takeWhile (· ≠ stop)) := by
  induction text with
  | nil => rfl
  | cons d text ih =>
      rw [bytes_cons]
      by_cases hd : d = stop
      · rw [hd, encode_of_ascii hstop, List.singleton_append, List.takeWhile_cons_of_neg (by simp),
          List.takeWhile_cons_of_neg (by simp)]
        rfl
      · have hother : ∀ b ∈ String.utf8EncodeChar d, decide (b ≠ UInt8.ofNat stop.toNat) = true := by
          intro b hb
          refine decide_eq_true ?_
          rintro rfl
          exact hd ((mem_encode_iff hstop d).mp hb).symm
        rw [List.takeWhile_append_of_pos hother, ih, List.takeWhile_cons_of_pos (by simpa using hd)]
        rfl

/-- The text before an ASCII character, in bytes. -/
theorem before_bytes {stop : Char} (hstop : IsAscii stop) (text : List Char) :
    before (UInt8.ofNat stop.toNat) (bytes text) = (before stop text).map bytes := by
  unfold before
  rw [takeWhile_bytes hstop]
  simp only [mem_bytes_iff hstop]
  split <;> rfl

/-- Bytes below 128, read as characters, are encoded as themselves. -/
theorem bytes_map_ofNat {bs : List UInt8} (h : ∀ b ∈ bs, b.toNat < 128) :
    bytes (bs.map fun b => Char.ofNat b.toNat) = bs := by
  induction bs with
  | nil => rfl
  | cons b bs ih =>
      have hb : b.toNat < 128 := h b List.mem_cons_self
      have hvalid : b.toNat.isValidChar := Or.inl (by omega)
      have hchar : (Char.ofNat b.toNat).toNat = b.toNat := by
        rw [Char.ofNat, dif_pos hvalid]
        rfl
      rw [List.map_cons, bytes_cons, encode_of_ascii (by rw [IsAscii, hchar]; exact hb), hchar,
        ih fun c hc => h c (List.mem_cons_of_mem b hc), UInt8.ofNat_toNat]
      rfl

/-! ### Strings -/

theorem bytes_toList (s : String) : bytes s.toList = s.toUTF8.data.toList := by
  rw [String.toUTF8_eq_toByteArray, ← String.utf8Encode_toList, List.utf8Encode,
    List.toList_data_toByteArray]
  rfl

theorem fromUTF8?_bytes (text : List Char) :
    String.fromUTF8? ⟨(bytes text).toArray⟩ = some (String.ofList text) := by
  have hencode : (⟨(bytes text).toArray⟩ : ByteArray) = text.utf8Encode := by
    refine ByteArray.ext ?_
    rw [List.utf8Encode, List.data_toByteArray]
    rfl
  have hvalid : (⟨(bytes text).toArray⟩ : ByteArray).IsValidUTF8 := ⟨text, hencode⟩
  rw [String.fromUTF8?, dif_pos hvalid]
  refine congrArg some (String.toByteArray_inj.mp ?_)
  rw [String.toByteArray_ofList, ← hencode]
  rfl

end TextSearch
