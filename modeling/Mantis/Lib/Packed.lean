import Mathlib.Logic.Equiv.Defs
import Mathlib.Data.List.Basic
import Mathlib.Tactic.Ring

/-!
# Packed records

A **layout** says how the values of a type lie in memory: every value takes the same number
of bytes, and every block of that many bytes is a value. So writing a record to memory and
reading the block back is the identity in both directions; there is no padding to lose and
no block to reject.

Layouts are put together field by field (`prod`, `iso`), down to little-endian words. A file
of records is a concatenation of blocks (`readBlocks_append`).
-/

namespace Packed

/-! ### Little-endian numbers -/

/-- The `n` low bytes of a number, least significant first. -/
def littleEndian : Nat → Nat → List UInt8
  | 0, _ => []
  | n + 1, x => UInt8.ofNat x :: littleEndian n (x / 256)

/-- The number with the bytes `bs`. -/
def ofLittleEndian : List UInt8 → Nat
  | [] => 0
  | b :: bs => b.toNat + 256 * ofLittleEndian bs

@[simp] theorem length_littleEndian (n x : Nat) : (littleEndian n x).length = n := by
  induction n generalizing x with
  | zero => rfl
  | succ n ih => rw [littleEndian, List.length_cons, ih]

theorem ofLittleEndian_littleEndian (n x : Nat) :
    ofLittleEndian (littleEndian n x) = x % 256 ^ n := by
  induction n generalizing x with
  | zero => rw [pow_zero, Nat.mod_one]; rfl
  | succ n ih =>
      have hlow : (UInt8.ofNat x).toNat = x % 256 := UInt8.toNat_ofNat'
      rw [littleEndian, ofLittleEndian, ih, hlow, Nat.pow_succ']
      exact (Nat.mod_mul (x := x) (a := 256) (b := 256 ^ n)).symm

theorem littleEndian_ofLittleEndian (bs : List UInt8) :
    littleEndian bs.length (ofLittleEndian bs) = bs := by
  induction bs with
  | nil => rfl
  | cons b bs ih =>
      have hlt := b.toNat_lt
      have hlow : UInt8.ofNat (b.toNat + 256 * ofLittleEndian bs) = b := by
        rw [← UInt8.toNat_inj, UInt8.toNat_ofNat']
        omega
      have hhigh : (b.toNat + 256 * ofLittleEndian bs) / 256 = ofLittleEndian bs := by omega
      rw [ofLittleEndian, List.length_cons, littleEndian, hlow, hhigh, ih]

theorem ofLittleEndian_lt (bs : List UInt8) : ofLittleEndian bs < 256 ^ bs.length := by
  induction bs with
  | nil => exact Nat.one_pos
  | cons b bs ih =>
      have hlt := b.toNat_lt
      rw [ofLittleEndian, List.length_cons, Nat.pow_succ']
      omega

/-! ### Writing in place -/

/-- A file with `bs` copied to offset `off`. -/
def overwrite (file : List UInt8) (off : Nat) (bs : List UInt8) : List UInt8 :=
  file.take off ++ bs ++ file.drop (off + bs.length)

theorem length_overwrite {file bs : List UInt8} {off : Nat}
    (h : off + bs.length ≤ file.length) : (overwrite file off bs).length = file.length := by
  rw [overwrite, List.length_append, List.length_append, List.length_take, List.length_drop]
  omega

/-- Written behind what is there, the bytes extend it into the blank part. -/
theorem overwrite_append (front blank bs : List UInt8) :
    overwrite (front ++ blank) front.length bs = front ++ bs ++ blank.drop bs.length := by
  rw [overwrite, List.take_left, List.drop_append]
  have hfront : front.drop (front.length + bs.length) = [] :=
    List.drop_eq_nil_of_le (Nat.le_add_right ..)
  rw [hfront, List.nil_append, Nat.add_sub_cancel_left]

/-! ### Layouts -/

/-- Values of `α` as blocks of `size` bytes. -/
structure Layout (α : Type*) where
  size : Nat
  encode : α → List UInt8
  decode : List UInt8 → α
  length_encode : ∀ a, (encode a).length = size
  decode_encode : ∀ a, decode (encode a) = a
  encode_decode : ∀ bs, bs.length = size → encode (decode bs) = bs

namespace Layout

variable {α β : Type*}

/-- A word of `n` bytes. -/
def word (n : Nat) (toNat : α → Nat) (ofNat : Nat → α) (hlt : ∀ a, toNat a < 256 ^ n)
    (hof : ∀ a, ofNat (toNat a) = a) (hto : ∀ x, x < 256 ^ n → toNat (ofNat x) = x) :
    Layout α where
  size := n
  encode a := littleEndian n (toNat a)
  decode bs := ofNat (ofLittleEndian bs)
  length_encode _ := length_littleEndian ..
  decode_encode a := by rw [ofLittleEndian_littleEndian, Nat.mod_eq_of_lt (hlt a), hof]
  encode_decode bs h := by
    subst h
    rw [hto _ (ofLittleEndian_lt bs), littleEndian_ofLittleEndian]

/-- The same bytes under another name. -/
def iso (l : Layout α) (e : β ≃ α) : Layout β where
  size := l.size
  encode b := l.encode (e b)
  decode bs := e.symm (l.decode bs)
  length_encode b := l.length_encode (e b)
  decode_encode b := by rw [l.decode_encode, e.symm_apply_apply]
  encode_decode bs h := by rw [e.apply_symm_apply, l.encode_decode bs h]

/-- One field after the other. -/
def prod (l : Layout α) (m : Layout β) : Layout (α × β) where
  size := l.size + m.size
  encode p := l.encode p.1 ++ m.encode p.2
  decode bs := (l.decode (bs.take l.size), m.decode (bs.drop l.size))
  length_encode p := by rw [List.length_append, l.length_encode, m.length_encode]
  decode_encode p := by
    rw [List.take_left' (l.length_encode p.1), List.drop_left' (l.length_encode p.1),
      l.decode_encode, m.decode_encode]
  encode_decode bs h := by
    rw [l.encode_decode _ (by rw [List.length_take]; omega),
      m.encode_decode _ (by rw [List.length_drop]; omega), List.take_append_drop]

/-- An array of bytes. -/
def bytes (n : Nat) : Layout (Vector UInt8 n) where
  size := n
  encode v := v.toList
  decode bs := if h : bs.length = n then ⟨bs.toArray, by simpa using h⟩ else Vector.replicate n 0
  length_encode v := v.length_toList
  decode_encode v := by
    rw [dif_pos v.length_toList]
    exact Vector.toList_inj.mp rfl
  encode_decode bs h := by
    rw [dif_pos h]
    rfl

def uint8 : Layout UInt8 :=
  word 1 UInt8.toNat UInt8.ofNat UInt8.toNat_lt (fun _ => UInt8.ofNat_toNat) fun _ h =>
    UInt8.toNat_ofNat_of_lt' h

def uint16 : Layout UInt16 :=
  word 2 UInt16.toNat UInt16.ofNat UInt16.toNat_lt (fun _ => UInt16.ofNat_toNat) fun _ h =>
    UInt16.toNat_ofNat_of_lt' h

def uint32 : Layout UInt32 :=
  word 4 UInt32.toNat UInt32.ofNat UInt32.toNat_lt (fun _ => UInt32.ofNat_toNat) fun _ h =>
    UInt32.toNat_ofNat_of_lt' h

def uint64 : Layout UInt64 :=
  word 8 UInt64.toNat UInt64.ofNat UInt64.toNat_lt (fun _ => UInt64.ofNat_toNat) fun _ h =>
    UInt64.toNat_ofNat_of_lt' h

/-! ### Files of records -/

variable (l : Layout α)

/-- The first `n` records of a block of memory. -/
def readBlocks : Nat → List UInt8 → List α
  | 0, _ => []
  | n + 1, bs => l.decode (bs.take l.size) :: readBlocks n (bs.drop l.size)

/-- **Records written one after the other are read back**, and reading goes on behind them. -/
theorem readBlocks_append (records : List α) (n : Nat) (rest : List UInt8) :
    l.readBlocks (records.length + n) (records.flatMap l.encode ++ rest) =
      records ++ l.readBlocks n rest := by
  induction records with
  | nil => rw [List.length_nil, Nat.zero_add, List.flatMap_nil, List.nil_append, List.nil_append]
  | cons r records ih =>
      rw [List.flatMap_cons, List.length_cons, Nat.succ_add, readBlocks, List.append_assoc,
        List.take_left' (l.length_encode r), List.drop_left' (l.length_encode r), ih,
        l.decode_encode, List.cons_append]

/-- Untouched memory reads as blank records. -/
theorem readBlocks_replicate (n : Nat) (b : UInt8) (rest : List UInt8) :
    l.readBlocks n (List.replicate (n * l.size) b ++ rest) =
      List.replicate n (l.decode (List.replicate l.size b)) := by
  induction n with
  | zero => rfl
  | succ n ih =>
      rw [Nat.succ_mul, Nat.add_comm (n * l.size), List.replicate_add, List.append_assoc,
        readBlocks, List.take_left' List.length_replicate,
        List.drop_left' List.length_replicate, ih, List.replicate_succ]

theorem length_flatMap_encode (records : List α) :
    (records.flatMap l.encode).length = records.length * l.size := by
  induction records with
  | nil => rw [List.flatMap_nil, List.length_nil, List.length_nil, Nat.zero_mul]
  | cons r records ih =>
      rw [List.flatMap_cons, List.length_append, l.length_encode, ih, List.length_cons,
        Nat.succ_mul, Nat.add_comm]

@[simp] theorem length_readBlocks (n : Nat) (bs : List UInt8) :
    (l.readBlocks n bs).length = n := by
  induction n generalizing bs with
  | zero => rfl
  | succ n ih => rw [readBlocks, List.length_cons, ih]

/-- **Whole blocks survive being read and written again.** -/
theorem flatMap_readBlocks (n : Nat) {bs : List UInt8} (h : n * l.size ≤ bs.length) :
    (l.readBlocks n bs).flatMap l.encode = bs.take (n * l.size) := by
  induction n generalizing bs with
  | zero => rw [readBlocks, List.flatMap_nil, Nat.zero_mul, List.take_zero]
  | succ n ih =>
      rw [Nat.succ_mul] at h ⊢
      have hblock : (bs.take l.size).length = l.size := List.length_take_of_le (by omega)
      rw [readBlocks, List.flatMap_cons, l.encode_decode _ hblock,
        ih (by rw [List.length_drop]; omega), Nat.add_comm (n * l.size), List.take_add]

/-- Reading stops where the records do. -/
theorem readBlocks_take (n k : Nat) (bs : List UInt8) :
    (l.readBlocks n bs).take k = l.readBlocks (min k n) bs := by
  induction n generalizing k bs with
  | zero => rw [readBlocks, List.take_nil, Nat.min_zero, readBlocks]
  | succ n ih =>
      cases k with
      | zero => rw [List.take_zero, Nat.zero_min, readBlocks]
      | succ k => rw [readBlocks, List.take_succ_cons, ih, Nat.succ_min_succ, readBlocks]

end Layout

end Packed
