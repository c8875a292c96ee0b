import Mantis.Lib.Runs
import Mathlib.Data.Fin.VecNotation
import Mathlib.Data.Nat.ModEq
import Mathlib.Logic.Function.Basic

/-!
# Mantis.SeqLock

The sequence lock (`crates/seqlock/src/raw/seqlock.rs`): one writer, any number of
readers, a value of `n` words behind a sequence counter of `w` bits that wraps.

Each access to shared memory is one step, and a schedule is any list of steps, so a run
covers every sequentially consistent order. The model also records what no thread can
see: the values stored so far, how many stores have completed, when each attempt of a
reader began and what it returned.

The counter is even exactly while the data is whole, and it is twice the number of
completed stores, modulo `2 ^ w`. `Inv` adds what a reader may rely on in the middle of
its copy: as long as no store has begun since it read the counter, the words copied so
far are those of the data. An attempt that finds the counter unchanged has therefore seen
a single value, unless the counter went around once in the meantime.
-/

namespace Mantis

open Runs

/-- Where a `store` stands. -/
inductive WriterPc (w n : Nat) (W : Type)
  | idle
  /-- Read the sequence counter. -/
  | readSeq (val : Fin n → W)
  /-- Make the counter odd. -/
  | mark (val : Fin n → W) (seq : BitVec w)
  /-- Copy word `k` in, or make the counter even after the last one. -/
  | copy (val : Fin n → W) (seq : BitVec w) (k : Nat)

/-- The writer is between the two writes of the counter. -/
def WriterPc.copying {w n : Nat} {W : Type} : WriterPc w n W → Bool
  | .copy .. => true
  | _ => false

/-- Where a `load` stands. -/
inductive ReaderPc (w : Nat)
  | idle
  /-- Read the sequence counter, and again while it is odd. -/
  | readSeq1
  /-- Copy word `k` out, or read the counter again after the last one. -/
  | copy (seq1 : BitVec w) (k : Nat)

/-- A reader with the local buffer it copies to. -/
structure Reader (w n : Nat) (W : Type) where
  pc : ReaderPc w
  dst : Fin n → W
  /-- The stores completed when the current attempt read the counter. -/
  start : Nat
  /-- Every value returned, with the stores completed by then. -/
  returned : List (Nat × (Fin n → W))

/-- The lock with its threads. -/
structure SeqLock (w n : Nat) (W ι : Type) where
  seq : BitVec w
  data : Fin n → W
  writer : WriterPc w n W
  readers : ι → Reader w n W
  /-- The initial value and the value of every `store` called, oldest first. -/
  history : List (Fin n → W)
  /-- The number of stores completed. -/
  completed : Nat

namespace SeqLock

variable {w n : Nat} {W ι : Type}

/-- A new lock. The local buffers of the readers hold anything. -/
def new (initial : Fin n → W) (dst : ι → Fin n → W) : SeqLock w n W ι :=
  ⟨0#w, initial, .idle, fun i => ⟨.idle, dst i, 0, []⟩, [initial], 0⟩

/-- The sequence number: even is consistent, odd is a write in progress. -/
def version (s : SeqLock w n W ι) : BitVec w := s.seq

/-- `seq & 1 != 0`. -/
def isOdd (seq : BitVec w) : Bool := seq &&& 1#w != 0#w

/-- The writer's next step. -/
def writerStep (s : SeqLock w n W ι) : SeqLock w n W ι :=
  match s.writer with
  | .idle => s
  | .readSeq val => { s with writer := .mark val s.seq }
  | .mark val seq => { s with seq := seq + 1#w, writer := .copy val seq 0 }
  | .copy val seq k =>
      if h : k < n then
        { s with
          data := Function.update s.data ⟨k, h⟩ (val ⟨k, h⟩)
          writer := .copy val seq (k + 1) }
      else { s with seq := seq + 2#w, writer := .idle, completed := s.completed + 1 }

/-- A reader's next step. -/
def readerNext (s : SeqLock w n W ι) (r : Reader w n W) : Reader w n W :=
  match r.pc with
  | .idle => r
  | .readSeq1 =>
      let seq1 := s.seq
      -- writer active: spin
      if isOdd seq1 then r else { r with pc := .copy seq1 0, start := s.completed }
  | .copy seq1 k =>
      if h : k < n then
        { r with
          dst := Function.update r.dst ⟨k, h⟩ (s.data ⟨k, h⟩)
          pc := .copy seq1 (k + 1) }
      else
        let seq2 := s.seq
        if seq1 = seq2 then
          { r with pc := .idle, returned := r.returned ++ [(s.completed, r.dst)] }
        else { r with pc := .readSeq1 }

/-- One step of the schedule: a thread starts a call or takes its next step. -/
inductive Action (n : Nat) (W ι : Type)
  | store (val : Fin n → W)
  | writer
  | load (i : ι)
  | reader (i : ι)

section

variable [DecidableEq ι]

/-- Replace the state of one reader. -/
def setReader (s : SeqLock w n W ι) (i : ι) (r : Reader w n W) : SeqLock w n W ι :=
  { s with readers := Function.update s.readers i r }

/-- A thread that is in a call starts no other. -/
def step (s : SeqLock w n W ι) : Action n W ι → SeqLock w n W ι
  | .store val =>
      match s.writer with
      | .idle => { s with writer := .readSeq val, history := s.history ++ [val] }
      | _ => s
  | .writer => s.writerStep
  | .load i =>
      match (s.readers i).pc with
      | .idle => s.setReader i { s.readers i with pc := .readSeq1 }
      | _ => s
  | .reader i => s.setReader i (s.readerNext (s.readers i))

end

/-! ### The counter -/

theorem toNat_one (hw : 0 < w) : (1#w).toNat = 1 := by
  rw [BitVec.toNat_ofNat]
  exact Nat.mod_eq_of_lt (Nat.one_lt_two_pow (by omega))

/-- Wrapping keeps the parity. -/
theorem isOdd_ofNat (hw : 0 < w) (m : Nat) : isOdd (BitVec.ofNat w m) = decide (m % 2 = 1) := by
  have hdvd : 2 ∣ 2 ^ w := dvd_pow_self 2 (by omega)
  have hand : (BitVec.ofNat w m &&& 1#w).toNat = m % 2 := by
    rw [BitVec.toNat_and, toNat_one hw, Nat.and_one_is_mod, BitVec.toNat_ofNat,
      Nat.mod_mod_of_dvd m hdvd]
  have hzero : BitVec.ofNat w m &&& 1#w = 0#w ↔ m % 2 = 0 := by
    rw [← BitVec.toNat_inj, hand, BitVec.toNat_ofNat, Nat.zero_mod]
  rw [Bool.eq_iff_iff, decide_eq_true_iff]
  simp only [isOdd, bne_iff_ne, ne_eq, hzero]
  omega

/-- Less than half a round apart, twice a count determines the count. -/
theorem eq_of_double_eq (hw : 0 < w) {a b : Nat} (hle : a ≤ b) (hlt : b < a + 2 ^ (w - 1))
    (h : BitVec.ofNat w (2 * a) = BitVec.ofNat w (2 * b)) : a = b := by
  have hmod : 2 * a ≡ 2 * b [MOD 2 ^ w] := by
    have := congrArg BitVec.toNat h
    rwa [BitVec.toNat_ofNat, BitVec.toNat_ofNat] at this
  have hpow : 2 ^ w = 2 * 2 ^ (w - 1) := by
    rw [← Nat.pow_succ']
    congr 1
    omega
  have hdvd : 2 ^ w ∣ 2 * b - 2 * a := (Nat.modEq_iff_dvd' (by omega)).mp hmod
  have hzero := Nat.eq_zero_of_dvd_of_lt hdvd (by omega)
  omega

/-! ### The invariant -/

/-- The stores that have begun to write: those completed, and the one in progress. -/
def marked (s : SeqLock w n W ι) : Nat := s.completed + if s.writer.copying then 1 else 0

/-- The counter, the data and the history at each point of a `store`. -/
def WriterOk (s : SeqLock w n W ι) : WriterPc w n W → Prop
  | .idle =>
      s.seq = BitVec.ofNat w (2 * s.completed) ∧ s.history.length = s.completed + 1 ∧
        s.history[s.completed]? = some s.data
  | .readSeq val =>
      s.seq = BitVec.ofNat w (2 * s.completed) ∧ s.history.length = s.completed + 2 ∧
        s.history[s.completed]? = some s.data ∧ s.history[s.completed + 1]? = some val
  | .mark val seq =>
      s.seq = BitVec.ofNat w (2 * s.completed) ∧ s.history.length = s.completed + 2 ∧
        s.history[s.completed]? = some s.data ∧ s.history[s.completed + 1]? = some val ∧
        seq = BitVec.ofNat w (2 * s.completed)
  | .copy val seq k =>
      s.seq = BitVec.ofNat w (2 * s.completed + 1) ∧ s.history.length = s.completed + 2 ∧
        s.history[s.completed + 1]? = some val ∧ seq = BitVec.ofNat w (2 * s.completed) ∧
        k ≤ n ∧ ∀ j : Fin n, j.val < k → s.data j = val j

/-- What a reader knows of its attempt, and what it has returned. -/
structure ReaderOk (s : SeqLock w n W ι) (r : Reader w n W) : Prop where
  /-- Unless a store has begun since the attempt did, the words copied are the data. -/
  attempt : ∀ seq1 k, r.pc = .copy seq1 k →
    seq1 = BitVec.ofNat w (2 * r.start) ∧ r.start ≤ s.completed ∧ k ≤ n ∧
      (s.marked = r.start → ∀ j : Fin n, j.val < k → r.dst j = s.data j)
  returned : ∀ e ∈ r.returned, s.history[e.1]? = some e.2 ∧ e.1 ≤ s.completed
  ordered : (r.returned.map Prod.fst).Pairwise (· ≤ ·)

structure Inv (s : SeqLock w n W ι) : Prop where
  writer : s.WriterOk s.writer
  readers : ∀ i, s.ReaderOk (s.readers i)

theorem inv_new (initial : Fin n → W) (dst : ι → Fin n → W) :
    (new initial dst : SeqLock w n W ι).Inv where
  writer := ⟨rfl, rfl, rfl⟩
  readers _ := ⟨nofun, nofun, .nil⟩

/-- Outside the two writes of the counter, the counter is even and the data is the value
of the last completed store. -/
theorem WriterOk.whole {s : SeqLock w n W ι} (h : s.WriterOk s.writer)
    (hcopying : s.writer.copying = false) :
    s.seq = BitVec.ofNat w (2 * s.completed) ∧ s.history[s.completed]? = some s.data := by
  cases hpc : s.writer with
  | idle =>
      rw [hpc] at h
      exact ⟨h.1, h.2.2⟩
  | readSeq val =>
      rw [hpc] at h
      exact ⟨h.1, h.2.2.1⟩
  | mark val seq =>
      rw [hpc] at h
      exact ⟨h.1, h.2.2.1⟩
  | copy val seq k =>
      rw [hpc] at hcopying
      cases hcopying

/-- The counter is odd exactly between its two writes. -/
theorem WriterOk.isOdd_seq (hw : 0 < w) {s : SeqLock w n W ι} (h : s.WriterOk s.writer) :
    isOdd s.seq = s.writer.copying := by
  cases hcopying : s.writer.copying with
  | false =>
      rw [(h.whole hcopying).1, isOdd_ofNat hw]
      simp
  | true =>
      cases hpc : s.writer with
      | copy val seq k =>
          rw [hpc] at h
          rw [h.1, isOdd_ofNat hw]
          simp
      | _ =>
          rw [hpc] at hcopying
          cases hcopying

/-! ### Steps of the writer -/

/-- What a step of the writer may do, seen from a reader: the data changes only if a store
has begun that had not completed before. -/
structure Frame (s s' : SeqLock w n W ι) : Prop where
  completed_le : s.completed ≤ s'.completed
  marked_le : s.marked ≤ s'.marked
  history : s.history <+: s'.history
  data : s'.marked = s.completed → s'.data = s.data

theorem ReaderOk.frame {s s' : SeqLock w n W ι} {r : Reader w n W} (h : s.ReaderOk r)
    (hframe : s.Frame s') : s'.ReaderOk r := by
  refine ⟨?_, ?_, h.ordered⟩
  · intro seq1 k hpc
    obtain ⟨hseq, hstart, hk, hcopied⟩ := h.attempt seq1 k hpc
    refine ⟨hseq, Nat.le_trans hstart hframe.completed_le, hk, ?_⟩
    intro hmarked j hj
    have hle := hframe.marked_le
    have hcompleted : s.completed ≤ s.marked := Nat.le_add_right ..
    rw [hframe.data (by omega)]
    exact hcopied (by omega) j hj
  · intro e he
    obtain ⟨hvalue, hle⟩ := h.returned e he
    refine ⟨?_, Nat.le_trans hle hframe.completed_le⟩
    obtain ⟨later, hlater⟩ := hframe.history
    rw [← hlater, List.getElem?_append_left (List.getElem?_eq_some_iff.mp hvalue).1]
    exact hvalue

/-- **A step of the writer.** -/
theorem Inv.writerStep {s : SeqLock w n W ι} (h : s.Inv) : s.writerStep.Inv := by
  have hwriter := h.writer
  simp only [SeqLock.writerStep]
  cases hpc : s.writer with
  | idle => exact h
  | readSeq val =>
      rw [hpc] at hwriter
      obtain ⟨hseq, hlength, hdata, hval⟩ := hwriter
      refine ⟨⟨hseq, hlength, hdata, hval, hseq⟩, fun i => (h.readers i).frame ?_⟩
      exact ⟨le_rfl, by simp [marked, hpc, WriterPc.copying], List.prefix_rfl, fun _ => rfl⟩
  | mark val seq =>
      rw [hpc] at hwriter
      obtain ⟨-, hlength, -, hval, rfl⟩ := hwriter
      refine ⟨⟨?_, hlength, hval, rfl, Nat.zero_le n, fun j hj => absurd hj (Nat.not_lt_zero _)⟩,
        fun i => (h.readers i).frame ?_⟩
      · rw [BitVec.ofNat_add]
      · exact ⟨le_rfl, by simp [marked, hpc, WriterPc.copying], List.prefix_rfl, fun _ => rfl⟩
  | copy val seq k =>
      rw [hpc] at hwriter
      obtain ⟨hseq, hlength, hval, rfl, hk, hcopied⟩ := hwriter
      dsimp only
      split
      · next hlt =>
          refine ⟨⟨hseq, hlength, hval, rfl, hlt, ?_⟩, fun i => (h.readers i).frame ?_⟩
          · intro j hj
            by_cases hjk : j = ⟨k, hlt⟩
            · rw [hjk]
              exact Function.update_self ..
            · have hne : j.val ≠ k := fun heq => hjk (Fin.ext heq)
              refine (Function.update_of_ne hjk ..).trans (hcopied j ?_)
              omega
          · refine ⟨le_rfl, by simp [marked, hpc, WriterPc.copying], List.prefix_rfl, ?_⟩
            intro hmarked
            simp [marked, WriterPc.copying] at hmarked
      · next hge =>
          -- every word is in place
          have hwhole : s.data = val := funext fun j => hcopied j (by omega)
          refine ⟨⟨?_, hlength, ?_⟩, fun i => (h.readers i).frame ?_⟩
          · show BitVec.ofNat w (2 * s.completed) + 2#w = BitVec.ofNat w (2 * (s.completed + 1))
            rw [← BitVec.ofNat_add]
            rfl
          · show s.history[s.completed + 1]? = some s.data
            rw [hval, hwhole]
          · refine ⟨Nat.le_succ _, by simp [marked, hpc, WriterPc.copying], List.prefix_rfl, ?_⟩
            intro _
            rfl

/-- A `store` call puts its value at the end of the history. -/
theorem Inv.startStore {s : SeqLock w n W ι} (h : s.Inv) (hidle : s.writer = .idle)
    (val : Fin n → W) : ({ s with writer := .readSeq val, history := s.history ++ [val] } :
      SeqLock w n W ι).Inv := by
  have hwriter := h.writer
  rw [hidle] at hwriter
  obtain ⟨hseq, hlength, hdata⟩ := hwriter
  refine ⟨⟨hseq, ?_, ?_, ?_⟩, fun i => (h.readers i).frame ?_⟩
  · show (s.history ++ [val]).length = s.completed + 2
    rw [List.length_append, hlength, List.length_singleton]
  · show (s.history ++ [val])[s.completed]? = some s.data
    rw [List.getElem?_append_left (by omega), hdata]
  · show (s.history ++ [val])[s.completed + 1]? = some val
    rw [← hlength, List.getElem?_concat_length]
  · exact ⟨le_rfl, by simp [marked, hidle, WriterPc.copying], List.prefix_append .., fun _ => rfl⟩

/-! ### Steps of a reader -/

/-- A reader that is about to read the counter again has seen fewer than `2 ^ (w - 1)`
stores complete since it read it first. -/
def InTime (s : SeqLock w n W ι) (r : Reader w n W) : Prop :=
  match r.pc with
  | .copy _ k => k = n → s.completed < r.start + 2 ^ (w - 1)
  | _ => True

instance (s : SeqLock w n W ι) (r : Reader w n W) : Decidable (s.InTime r) :=
  match r with
  | ⟨.copy _ k, _, start, _⟩ =>
      inferInstanceAs (Decidable (k = n → s.completed < start + 2 ^ (w - 1)))
  | ⟨.idle, _, _, _⟩ | ⟨.readSeq1, _, _, _⟩ => isTrue trivial

/-- An attempt that finds the counter unchanged has copied the data of one moment, the
value of the last completed store. -/
theorem ReaderOk.unchanged (hw : 0 < w) {s : SeqLock w n W ι} (hwriter : s.WriterOk s.writer)
    {r : Reader w n W} (h : s.ReaderOk r) (htime : s.InTime r) {k : Nat}
    (hpc : r.pc = .copy s.seq k) (hk : ¬ k < n) : s.history[s.completed]? = some r.dst := by
  obtain ⟨hseq, hstart, hkn, hcopied⟩ := h.attempt s.seq k hpc
  have hlast : k = n := by omega
  simp only [InTime] at htime
  rw [hpc] at htime
  -- the counter was even, so no store is in progress
  have hcopying : s.writer.copying = false := by
    rw [← hwriter.isOdd_seq hw, hseq, isOdd_ofNat hw]
    simp
  obtain ⟨hseq', hdata⟩ := hwriter.whole hcopying
  have hsame : r.start = s.completed :=
    eq_of_double_eq hw hstart (htime hlast) (hseq.symm.trans hseq')
  have hmarked : s.marked = r.start := by
    simp only [marked, hcopying, hsame]
    rfl
  have hdst : r.dst = s.data := by
    funext j
    exact hcopied hmarked j (by omega)
  rw [hdata, hdst]

/-- **A step of a reader.** -/
theorem ReaderOk.next (hw : 0 < w) {s : SeqLock w n W ι} (hwriter : s.WriterOk s.writer)
    {r : Reader w n W} (h : s.ReaderOk r) (htime : s.InTime r) :
    s.ReaderOk (s.readerNext r) := by
  simp only [SeqLock.readerNext]
  cases hpc : r.pc with
  | idle => exact h
  | readSeq1 =>
      dsimp only
      split
      · exact h
      · next heven =>
          refine ⟨?_, h.returned, h.ordered⟩
          intro seq1 k hnext
          cases hnext
          have hcopying : s.writer.copying = false := by
            rw [← hwriter.isOdd_seq hw]
            simpa using heven
          refine ⟨(hwriter.whole hcopying).1, le_rfl, Nat.zero_le n, ?_⟩
          intro _ j hj
          exact absurd hj (Nat.not_lt_zero _)
  | copy seq1 k =>
      obtain ⟨hseq, hstart, hk, hcopied⟩ := h.attempt seq1 k hpc
      dsimp only
      split
      · next hlt =>
          refine ⟨?_, h.returned, h.ordered⟩
          intro seq1' k' hnext
          cases hnext
          refine ⟨hseq, hstart, hlt, ?_⟩
          intro hmarked j hj
          show Function.update r.dst ⟨k, hlt⟩ (s.data ⟨k, hlt⟩) j = s.data j
          by_cases hjk : j = ⟨k, hlt⟩
          · rw [hjk]
            exact Function.update_self ..
          · have hne : j.val ≠ k := fun heq => hjk (Fin.ext heq)
            refine (Function.update_of_ne hjk ..).trans (hcopied hmarked j ?_)
            omega
      · next hge =>
          split
          · next hunchanged =>
              rw [hunchanged] at hpc
              have hvalue := h.unchanged hw hwriter htime hpc hge
              refine ⟨nofun, ?_, ?_⟩
              · intro e he
                rcases List.mem_append.mp he with he | he
                · exact h.returned e he
                · rw [List.mem_singleton.mp he]
                  exact ⟨hvalue, le_rfl⟩
              · show ((r.returned ++ [(s.completed, r.dst)]).map Prod.fst).Pairwise (· ≤ ·)
                rw [List.map_append, List.pairwise_append]
                refine ⟨h.ordered, List.pairwise_singleton .., ?_⟩
                intro a ha b hb
                obtain ⟨e, he, rfl⟩ := List.mem_map.mp ha
                obtain rfl : b = s.completed := by simpa using hb
                exact (h.returned e he).2
          · exact ⟨nofun, h.returned, h.ordered⟩

section

variable [DecidableEq ι]

theorem Inv.setReader {s : SeqLock w n W ι} (h : s.Inv) {i : ι} {r : Reader w n W}
    (hr : s.ReaderOk r) : (s.setReader i r).Inv := by
  refine ⟨h.writer, ?_⟩
  intro j
  have hreader : s.ReaderOk (Function.update s.readers i r j) := by
    by_cases hji : j = i
    · rw [hji, Function.update_self]
      exact hr
    · rw [Function.update_of_ne hji]
      exact h.readers j
  exact ⟨hreader.attempt, hreader.returned, hreader.ordered⟩

/-- The step is not a reader's second read of the counter, or that reader is in time. -/
def Admissible (s : SeqLock w n W ι) : Action n W ι → Prop
  | .reader i => s.InTime (s.readers i)
  | _ => True

instance (s : SeqLock w n W ι) (act : Action n W ι) : Decidable (s.Admissible act) :=
  match act with
  | .reader i => inferInstanceAs (Decidable (s.InTime (s.readers i)))
  | .store _ | .writer | .load _ => isTrue trivial

/-- **One step of the schedule.** -/
theorem Inv.step (hw : 0 < w) {s : SeqLock w n W ι} (h : s.Inv) {act : Action n W ι}
    (hact : s.Admissible act) : (s.step act).Inv := by
  cases act with
  | store val =>
      simp only [SeqLock.step]
      split
      · next hidle => exact h.startStore hidle val
      · exact h
  | writer => exact h.writerStep
  | load i =>
      simp only [SeqLock.step]
      split
      · have hreader := h.readers i
        exact h.setReader ⟨nofun, hreader.returned, hreader.ordered⟩
      · exact h
  | reader i => exact h.setReader ((h.readers i).next hw h.writer hact)

end

/-- What the lock promises in every state. Each value a reader has returned is the whole
value number `e.1` of the history, one of the stores that had completed by then; a reader
never goes back in the history; and the version is odd exactly between the two writes of
the counter by a store. -/
structure Consistent (s : SeqLock w n W ι) : Prop where
  whole : ∀ i, ∀ e ∈ (s.readers i).returned, s.history[e.1]? = some e.2 ∧ e.1 ≤ s.completed
  monotone : ∀ i, ((s.readers i).returned.map Prod.fst).Pairwise (· ≤ ·)
  version_odd : isOdd s.version = s.writer.copying

theorem Inv.consistent (hw : 0 < w) {s : SeqLock w n W ι} (h : s.Inv) : s.Consistent :=
  ⟨fun i => (h.readers i).returned, fun i => (h.readers i).ordered, h.writer.isOdd_seq hw⟩

/-- **Loads are never torn and never go back.** For every counter width, value size, number
of readers and schedule in which fewer than `2 ^ (w - 1)` stores complete during one
attempt of a load, every state passed through is consistent. -/
theorem load_consistent [DecidableEq ι] (hw : 0 < w) (initial : Fin n → W)
    (dst : ι → Fin n → W) (schedule : List (Action n W ι))
    (htime : AllSteps step Admissible (new initial dst : SeqLock w n W ι) schedule) :
    Always step Consistent (new initial dst : SeqLock w n W ι) schedule := by
  have hinv : Always step Inv (new initial dst : SeqLock w n W ι) schedule :=
    always_of_allSteps (fun _ _ hs hact => hs.step hw hact) (inv_new initial dst) htime
  intro pre hpre
  exact (hinv pre hpre).consistent hw

/-- A load that copies one word before and one word after a store is retried, and returns
the stored value. -/
def tornThenRetried : List (Action 2 Nat Unit) :=
  [.load (), .reader (), .reader (), .store ![1, 2], .writer, .writer, .writer, .writer, .writer,
    .reader (), .reader (), .reader (), .reader (), .reader (), .reader ()]

theorem load_consistent_retried :
    Always step Consistent (new ![0, 0] (fun _ => ![0, 0]) : SeqLock 64 2 Nat Unit)
      tornThenRetried :=
  load_consistent (by decide) _ _ _ (by decide +kernel)

example : ((run step (new ![0, 0] (fun _ => ![0, 0]) : SeqLock 64 2 Nat Unit)
    tornThenRetried).readers ()).returned.map (fun e => (e.1, e.2 0, e.2 1)) = [(1, 1, 2)] := by
  decide +kernel

end SeqLock

end Mantis
