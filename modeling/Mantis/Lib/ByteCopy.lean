import Mathlib.Data.List.Basic

/-!
# Copying between two memories

A source and a destination that do not overlap, each addressed from the pointer a copy is
given, with a record of the offsets read and written. Copying two adjacent ranges is
copying their union (`copyRange_copyRange`), so a routine that copies in pieces is compared
with a single copy by equality.
-/

namespace ByteCopy

/-- The two memories and what was touched. -/
@[ext]
structure Memories (α : Type) where
  src : Nat → α
  dst : Nat → α
  reads : List Nat
  writes : List Nat

namespace Memories

variable {α : Type} (m : Memories α)

/-- Copy `len` cells at offset `off`. -/
def copyRange (off len : Nat) : Memories α :=
  { m with
    dst := fun i => if off ≤ i ∧ i < off + len then m.src i else m.dst i
    reads := m.reads ++ List.range' off len
    writes := m.writes ++ List.range' off len }

/-- An empty range. -/
theorem copyRange_zero (off : Nat) : m.copyRange off 0 = m := by
  ext i
  · rfl
  · show (if off ≤ i ∧ i < off + 0 then m.src i else m.dst i) = _
    rw [if_neg (by omega)]
  · simp [copyRange]
  · simp [copyRange]

/-- **Adjacent ranges make one range.** -/
theorem copyRange_copyRange (off a b : Nat) :
    (m.copyRange off a).copyRange (off + a) b = m.copyRange off (a + b) := by
  ext i
  · rfl
  · simp only [copyRange]
    by_cases hfirst : off ≤ i ∧ i < off + a
    · rw [if_neg (by omega), if_pos hfirst, if_pos (by omega)]
    · by_cases hsecond : off + a ≤ i ∧ i < off + a + b
      · rw [if_pos hsecond, if_pos (by omega)]
      · rw [if_neg hsecond, if_neg hfirst, if_neg (by omega)]
  · simp only [copyRange, List.append_assoc, List.range'_append_1]
  · simp only [copyRange, List.append_assoc, List.range'_append_1]

/-- Both memories before anything is touched. -/
def untouched (src dst : Nat → α) : Memories α := ⟨src, dst, [], []⟩

/-- The first `n` cells were copied, and nothing beyond them was touched. -/
structure Copied (src dst : Nat → α) (n : Nat) (m : Memories α) : Prop where
  src_eq : m.src = src
  copied : ∀ i, i < n → m.dst i = src i
  kept : ∀ i, n ≤ i → m.dst i = dst i
  reads_lt : ∀ i ∈ m.reads, i < n
  writes_lt : ∀ i ∈ m.writes, i < n

theorem copied_copyRange (src dst : Nat → α) (n : Nat) :
    Copied src dst n ((untouched src dst).copyRange 0 n) where
  src_eq := rfl
  copied i hi := if_pos ⟨Nat.zero_le i, by omega⟩
  kept i hi := if_neg (by omega)
  reads_lt i hi := by
    have hmem : i ∈ List.range' 0 n := hi
    rw [List.mem_range'_1] at hmem
    omega
  writes_lt i hi := by
    have hmem : i ∈ List.range' 0 n := hi
    rw [List.mem_range'_1] at hmem
    omega

end Memories

end ByteCopy
