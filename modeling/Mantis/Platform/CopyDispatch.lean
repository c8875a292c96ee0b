import Mantis.Lib.ByteCopy

/-!
# Mantis.Platform.CopyDispatch

The copy kernels behind `CopyDispatcher<T, N>`
(`crates/platform/src/intrinsics/copy_dispatch.rs`): exact kernels of one to four 128-bit
moves, a kernel with such a prefix and a scalar tail, and the plain copy.

Every kernel whose prefix is not longer than the value is one copy of `N` bytes. The
dispatcher sends `9..=15` bytes to the kernel with a prefix of 16, which copies past the
value and then computes a negative tail length.
-/

namespace Mantis

open ByteCopy

/-- What the source asks of `target_arch`: `other` is any that has no 128-bit kernels. -/
inductive Arch
  | x86_64
  | aarch64
  | other
  deriving DecidableEq, Repr

/-- The 128-bit kernels are compiled in. -/
def Arch.simd : Arch → Bool
  | .x86_64 | .aarch64 => true
  | .other => false

/-- The bytes behind `src` and `dst`, and whether a length computation went below zero,
which panics with overflow checks and is a huge length without them; nothing after it is
modelled. -/
@[ext]
structure CopyMachine extends Memories UInt8 where
  underflow : Bool

namespace CopyMachine

/-! ### Kernels -/

/-- `load128`: 16 bytes at `src + off`. -/
def load128 (m : CopyMachine) (off : Nat) : CopyMachine × (Fin 16 → UInt8) :=
  ({ m with reads := m.reads ++ List.range' off 16 }, fun k => m.src (off + k))

/-- `store128`: 16 bytes at `dst + off`. -/
def store128 (m : CopyMachine) (off : Nat) (v : Fin 16 → UInt8) : CopyMachine :=
  { m with
    dst := fun i => if h : off ≤ i ∧ i < off + 16 then v ⟨i - off, by omega⟩ else m.dst i
    writes := m.writes ++ List.range' off 16 }

/-- One iteration of an exact kernel. -/
def moveChunk (m : CopyMachine) (i : Nat) : CopyMachine :=
  let (m, v) := m.load128 (i * 16)
  m.store128 (i * 16) v

/-- `define_copy_exact!`: `chunks` moves of 16 bytes. -/
def copyExact (chunks : Nat) (m : CopyMachine) : CopyMachine :=
  (List.range chunks).foldl moveChunk m

def copy16 : CopyMachine → CopyMachine := copyExact 1
def copy32 : CopyMachine → CopyMachine := copyExact 2
def copy48 : CopyMachine → CopyMachine := copyExact 3
def copy64 : CopyMachine → CopyMachine := copyExact 4

/-- `ptr::copy_nonoverlapping` of `len` bytes at offset `off`. -/
def copyNonoverlapping (m : CopyMachine) (off len : Nat) : CopyMachine :=
  { m with toMemories := m.toMemories.copyRange off len }

/-- `copy_bucket`: a prefix of `base` bytes in 128-bit moves, then the tail. -/
def copyBucket (base n : Nat) (m : CopyMachine) : CopyMachine :=
  let m := match base with
    | 16 => m.copy16
    | 32 => m.copy32
    | 48 => m.copy48
    | _ => m
  if n < base then { m with underflow := true } else m.copyNonoverlapping base (n - base)

/-- `CopyDispatcher::copy` for a type of `n` bytes. -/
def copy (arch : Arch) (n : Nat) (m : CopyMachine) : CopyMachine :=
  if arch.simd then
    if n ≤ 8 then m.copyNonoverlapping 0 n
    else if n = 16 then m.copy16
    else if n = 32 then m.copy32
    else if n = 48 then m.copy48
    else if n = 64 then m.copy64
    else if n < 32 then m.copyBucket 16 n
    else if n < 48 then m.copyBucket 32 n
    else if n < 64 then m.copyBucket 48 n
    else m.copyNonoverlapping 0 n
  else m.copyNonoverlapping 0 n

/-! ### Kernels are copies -/

/-- A load and the store of what was loaded. -/
theorem moveChunk_eq (m : CopyMachine) (i : Nat) :
    m.moveChunk i = m.copyNonoverlapping (i * 16) 16 := by
  ext k
  · rfl
  · simp only [moveChunk, load128, store128, copyNonoverlapping, Memories.copyRange]
    split
    · next h => rw [Nat.add_sub_cancel' h.1]
    · rfl
  · rfl
  · rfl
  · rfl

theorem copyNonoverlapping_append (m : CopyMachine) (off a b : Nat) :
    (m.copyNonoverlapping off a).copyNonoverlapping (off + a) b =
      m.copyNonoverlapping off (a + b) := by
  simp only [copyNonoverlapping, Memories.copyRange_copyRange]

/-- **An exact kernel copies its size.** -/
theorem copyExact_eq (chunks : Nat) (m : CopyMachine) :
    m.copyExact chunks = m.copyNonoverlapping 0 (chunks * 16) := by
  induction chunks with
  | zero =>
      simp only [copyExact, copyNonoverlapping, Nat.zero_mul, Memories.copyRange_zero]
      rfl
  | succ chunks ih =>
      rw [copyExact, List.range_succ, List.foldl_append, ← copyExact, ih]
      show moveChunk _ chunks = _
      rw [moveChunk_eq]
      have happend := copyNonoverlapping_append m 0 (chunks * 16) 16
      rw [Nat.zero_add] at happend
      rw [happend, Nat.succ_mul]

/-- The prefixes `copy_bucket` knows. -/
def IsBase (base : Nat) : Prop := base = 16 ∨ base = 32 ∨ base = 48

theorem copyBucket_split {base : Nat} (h : IsBase base) (n : Nat) (m : CopyMachine) :
    m.copyBucket base n =
      if n < base then { m.copyNonoverlapping 0 base with underflow := true }
      else (m.copyNonoverlapping 0 base).copyNonoverlapping base (n - base) := by
  rcases h with rfl | rfl | rfl
  · rw [copyBucket, copy16, copyExact_eq]
  · rw [copyBucket, copy32, copyExact_eq]
  · rw [copyBucket, copy48, copyExact_eq]

/-- **A prefix and its tail copy the value**, if the prefix is not longer. -/
theorem copyBucket_eq {base n : Nat} (h : IsBase base) (hle : base ≤ n) (m : CopyMachine) :
    m.copyBucket base n = m.copyNonoverlapping 0 n := by
  have happend := copyNonoverlapping_append m 0 base (n - base)
  rw [Nat.zero_add, Nat.add_sub_cancel' hle] at happend
  rw [copyBucket_split h, if_neg (by omega), happend]

theorem copyBucket_underflow {base n : Nat} (h : IsBase base) (hlt : n < base)
    (m : CopyMachine) : (m.copyBucket base n).underflow = true := by
  rw [copyBucket_split h, if_pos hlt]

/-! ### The dispatcher -/

/-- The sizes sent to a kernel whose prefix is too long. -/
def Overlong (arch : Arch) (n : Nat) : Prop := arch.simd = true ∧ 8 < n ∧ n < 16

theorem copy_of_overlong {arch : Arch} {n : Nat} (h : Overlong arch n) (m : CopyMachine) :
    m.copy arch n = m.copyBucket 16 n := by
  obtain ⟨hsimd, hlo, hhi⟩ := h
  simp only [copy]
  rw [if_pos hsimd, if_neg (by omega), if_neg (by omega), if_neg (by omega), if_neg (by omega),
    if_neg (by omega), if_pos (by omega)]

/-- Outside of these, whatever the kernel, the dispatcher copies the value. -/
theorem copy_eq {arch : Arch} {n : Nat} (h : ¬ Overlong arch n) (m : CopyMachine) :
    m.copy arch n = m.copyNonoverlapping 0 n := by
  -- one line for each row of the dispatch table
  refine ite_eq_iff'.mpr ⟨fun hsimd => ?_, fun _ => rfl⟩
  refine ite_eq_iff'.mpr ⟨fun _ => rfl, fun h8 => ?_⟩
  refine ite_eq_iff'.mpr ⟨fun h16 => by rw [h16, copy16, copyExact_eq], fun _ => ?_⟩
  refine ite_eq_iff'.mpr ⟨fun h32 => by rw [h32, copy32, copyExact_eq], fun _ => ?_⟩
  refine ite_eq_iff'.mpr ⟨fun h48 => by rw [h48, copy48, copyExact_eq], fun _ => ?_⟩
  refine ite_eq_iff'.mpr ⟨fun h64 => by rw [h64, copy64, copyExact_eq], fun _ => ?_⟩
  have hbase : 16 ≤ n := by
    by_contra hlt
    exact h ⟨hsimd, by omega, by omega⟩
  refine ite_eq_iff'.mpr ⟨fun _ => copyBucket_eq (Or.inl rfl) hbase m, fun hge32 => ?_⟩
  refine ite_eq_iff'.mpr
    ⟨fun _ => copyBucket_eq (Or.inr (Or.inl rfl)) (by omega) m, fun hge48 => ?_⟩
  exact ite_eq_iff'.mpr ⟨fun _ => copyBucket_eq (Or.inr (Or.inr rfl)) (by omega) m, fun _ => rfl⟩

/-- The machine before a copy. -/
def start (src dst : Nat → UInt8) : CopyMachine := ⟨.untouched src dst, false⟩

/-- The copy of `n` bytes: the first `n` bytes of `dst` are those of `src`, no other byte is
read or written, and no length went below zero. -/
structure CopiesExactly (n : Nat) (src dst : Nat → UInt8) (m : CopyMachine) : Prop where
  copied : Memories.Copied src dst n m.toMemories
  no_underflow : m.underflow = false

/-- **The dispatcher copies exactly `N` bytes, except for 9 to 15 bytes in 128-bit moves.**
On every architecture, for every size and all contents. -/
theorem copy_exact_iff (arch : Arch) (n : Nat) (src dst : Nat → UInt8) :
    CopiesExactly n src dst ((start src dst).copy arch n) ↔
      ¬ (arch.simd = true ∧ 8 < n ∧ n < 16) := by
  constructor
  · rintro ⟨-, hunderflow⟩ h
    rw [copy_of_overlong h, copyBucket_underflow (Or.inl rfl) h.2.2] at hunderflow
    cases hunderflow
  · intro h
    rw [copy_eq h]
    exact ⟨Memories.copied_copyRange src dst n, rfl⟩

/-- A value of 12 bytes on `x86_64`: 16 bytes are read and written, the four behind the value
included, and the tail length is `12 - 16`. -/
theorem twelve_bytes_overrun :
    let m := (start (fun _ => 1) (fun _ => 0)).copy .x86_64 12
    m.dst 12 = 1 ∧ 15 ∈ m.reads ∧ 15 ∈ m.writes ∧ m.underflow = true ∧
      ¬ CopiesExactly 12 (fun _ => 1) (fun _ => 0) m := by
  refine ⟨by decide, by decide, by decide, by decide, ?_⟩
  rintro ⟨-, hunderflow⟩
  exact absurd hunderflow (by decide)

end CopyMachine

end Mantis
