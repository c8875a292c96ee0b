import Mantis.SeqLock

/-!
# Mantis.SeqLock.Progress

How long the calls of a sequence lock take, counted in steps of the calling thread. The
documentation promises a wait-free `store` and a lock-free `load`.

A `store` takes `n + 3` steps for a value of `n` words, whatever the readers do. A `load`
spins while the counter is odd and starts over when the counter has changed, so it depends
on the writer: with the counter even and the writer at rest it takes at most `2 * n + 3`
steps, and it never starts over more often than stores have made the counter odd, in any
schedule and without a bound on how many of them fall into one attempt.
-/

namespace Mantis

open Runs

namespace SeqLock

variable {w n : Nat} {W ι : Type}

/-! ### Parity -/

theorem isOdd_add_one (hw : 0 < w) (seq : BitVec w) : isOdd (seq + 1#w) = !isOdd seq := by
  obtain ⟨m, rfl⟩ : ∃ m, seq = BitVec.ofNat w m := ⟨seq.toNat, by simp⟩
  rw [← BitVec.ofNat_add, isOdd_ofNat hw, isOdd_ofNat hw]
  rcases Nat.mod_two_eq_zero_or_one m with hm | hm <;> simp [Nat.add_mod, hm]

theorem isOdd_add_two (hw : 0 < w) (seq : BitVec w) : isOdd (seq + 2#w) = isOdd seq := by
  obtain ⟨m, rfl⟩ : ∃ m, seq = BitVec.ofNat w m := ⟨seq.toNat, by simp⟩
  rw [← BitVec.ofNat_add, isOdd_ofNat hw, isOdd_ofNat hw, Nat.add_mod_right]

/-- The counter is odd exactly between its two writes, and every attempt of a load has seen
it even. Unlike `Inv` this takes no bound on the number of stores. -/
structure Parity (s : SeqLock w n W ι) : Prop where
  writer : match s.writer with
    | .idle | .readSeq _ => isOdd s.seq = false
    | .mark _ seq => isOdd s.seq = false ∧ seq = s.seq
    | .copy _ seq _ => isOdd s.seq = true ∧ isOdd seq = false
  readers : ∀ i seq1 k, (s.readers i).pc = .copy seq1 k → isOdd seq1 = false

theorem parity_new (hw : 0 < w) (initial : Fin n → W) (dst : ι → Fin n → W) :
    (new initial dst : SeqLock w n W ι).Parity :=
  ⟨(isOdd_ofNat hw 0).trans (by decide), nofun⟩

theorem Parity.writerStep (hw : 0 < w) {s : SeqLock w n W ι} (h : s.Parity) :
    s.writerStep.Parity := by
  have hwriter := h.writer
  simp only [SeqLock.writerStep]
  cases hpc : s.writer with
  | idle => exact h
  | readSeq val =>
      rw [hpc] at hwriter
      exact ⟨⟨hwriter, rfl⟩, h.readers⟩
  | mark val seq =>
      rw [hpc] at hwriter
      obtain ⟨heven, rfl⟩ := hwriter
      refine ⟨⟨?_, heven⟩, h.readers⟩
      rw [isOdd_add_one hw, heven, Bool.not_false]
  | copy val seq k =>
      rw [hpc] at hwriter
      dsimp only
      split
      · exact ⟨hwriter, h.readers⟩
      · refine ⟨?_, h.readers⟩
        show isOdd (seq + 2#w) = false
        rw [isOdd_add_two hw, hwriter.2]

section

variable [DecidableEq ι]

@[simp] theorem setReader_seq (s : SeqLock w n W ι) (i : ι) (r : Reader w n W) :
    (s.setReader i r).seq = s.seq := rfl

@[simp] theorem setReader_self (s : SeqLock w n W ι) (i : ι) (r : Reader w n W) :
    (s.setReader i r).readers i = r := Function.update_self ..

theorem setReader_of_ne (s : SeqLock w n W ι) {i j : ι} (h : i ≠ j) (r : Reader w n W) :
    (s.setReader j r).readers i = s.readers i := Function.update_of_ne h ..

theorem Parity.setReader {s : SeqLock w n W ι} (h : s.Parity) {i : ι} {r : Reader w n W}
    (hr : ∀ seq1 k, r.pc = .copy seq1 k → isOdd seq1 = false) : (s.setReader i r).Parity := by
  refine ⟨h.writer, fun j => ?_⟩
  by_cases hji : j = i
  · rw [hji, setReader_self]
    exact hr
  · rw [setReader_of_ne s hji]
    exact h.readers j

theorem Parity.step (hw : 0 < w) {s : SeqLock w n W ι} (h : s.Parity) (act : Action n W ι) :
    (s.step act).Parity := by
  cases act with
  | writer => exact h.writerStep hw
  | store val =>
      have hwriter := h.writer
      simp only [SeqLock.step]
      split
      · next hidle =>
          rw [hidle] at hwriter
          exact ⟨hwriter, h.readers⟩
      · exact h
  | load i =>
      simp only [SeqLock.step]
      split
      · exact h.setReader fun _ _ hcopy => by cases hcopy
      · exact h
  | reader i =>
      refine h.setReader ?_
      simp only [SeqLock.readerNext]
      cases hpc : (s.readers i).pc with
      | idle => simp [hpc]
      | readSeq1 =>
          dsimp only
          split
          · simp [hpc]
          · next heven =>
              rintro seq1 k ⟨⟩
              simpa using heven
      | copy seq1 k =>
          have hseq1 := h.readers i seq1 k hpc
          dsimp only
          split
          · rintro seq1' k' ⟨⟩
            exact hseq1
          · split <;> exact fun _ _ hcopy => by cases hcopy

end

/-! ### Stores -/

/-- How many more steps a store takes. -/
def storeRank : WriterPc w n W → Nat
  | .idle => 0
  | .readSeq _ => n + 3
  | .mark _ _ => n + 2
  | .copy _ _ k => n - k + 1

theorem storeRank_le (pc : WriterPc w n W) : storeRank pc ≤ n + 3 := by
  cases pc with
  | copy val seq k =>
      simp only [storeRank]
      omega
  | _ => simp [storeRank]

theorem storeRank_writerStep {s : SeqLock w n W ι} (hrunning : storeRank s.writer ≠ 0) :
    storeRank s.writerStep.writer < storeRank s.writer := by
  simp only [SeqLock.writerStep]
  cases hpc : s.writer with
  | idle =>
      rw [hpc] at hrunning
      exact absurd rfl hrunning
  | readSeq val => exact Nat.lt_succ_self _
  | mark val seq => exact Nat.lt_succ_self _
  | copy val seq k =>
      dsimp only
      by_cases hlt : k < n
      · rw [dif_pos hlt]
        simp only [storeRank]
        omega
      · rw [dif_neg hlt]
        exact Nat.succ_pos _

/-! ### Loads -/

/-- How many more steps a load takes at most while the counter stays at `seq` and is even. -/
def loadRank (n : Nat) (seq : BitVec w) : ReaderPc w → Nat
  | .idle => 0
  | .readSeq1 => n + 2
  | .copy seq1 k => n - k + 1 + if seq1 = seq then 0 else n + 2

theorem loadRank_le (seq : BitVec w) (pc : ReaderPc w) : loadRank n seq pc ≤ 2 * n + 3 := by
  cases pc with
  | copy seq1 k =>
      simp only [loadRank]
      split <;> omega
  | idle => exact Nat.zero_le _
  | readSeq1 =>
      simp only [loadRank]
      omega

theorem loadRank_readerNext {s : SeqLock w n W ι} {r : Reader w n W} (heven : isOdd s.seq = false)
    (hrunning : loadRank n s.seq r.pc ≠ 0) :
    loadRank n s.seq (s.readerNext r).pc < loadRank n s.seq r.pc := by
  simp only [SeqLock.readerNext]
  cases hpc : r.pc with
  | idle =>
      rw [hpc] at hrunning
      exact absurd rfl hrunning
  | readSeq1 => simp [heven, loadRank]
  | copy seq1 k =>
      dsimp only
      by_cases hlt : k < n
      · rw [dif_pos hlt]
        simp only [loadRank]
        omega
      · rw [dif_neg hlt]
        by_cases hsame : seq1 = s.seq <;> simp [hsame, loadRank]

/-! ### The steps of other threads -/

/-- Whether an action is a step of the writer. -/
def Action.isWriter : Action n W ι → Bool
  | .writer => true
  | _ => false

section

variable [DecidableEq ι] {s : SeqLock w n W ι} {act : Action n W ι} {i : ι}

/-- Whether an action is a step of reader `i`. -/
def Action.isReader (i : ι) : Action n W ι → Bool
  | .reader j => j = i
  | _ => false

/-- Nothing but its own steps moves a writer that is in a call. -/
theorem writer_step (hrunning : storeRank s.writer ≠ 0) (hact : act.isWriter = false) :
    (s.step act).writer = s.writer := by
  cases act with
  | writer => cases hact
  | store val =>
      simp only [SeqLock.step]
      split
      · next hidle =>
          rw [hidle] at hrunning
          exact absurd rfl hrunning
      · rfl
  | load j =>
      simp only [SeqLock.step]
      split <;> rfl
  | reader j => rfl

/-- Only the writer writes the counter. -/
theorem seq_step (hact : act.isWriter = false) : (s.step act).seq = s.seq := by
  cases act with
  | writer => cases hact
  | store val | load j =>
      simp only [SeqLock.step]
      split <;> rfl
  | reader j => rfl

/-- Nothing but its own steps moves a reader that is in a call. -/
theorem reader_step (hrunning : (s.readers i).pc ≠ .idle) (hact : act.isReader i = false) :
    (s.step act).readers i = s.readers i := by
  cases act with
  | writer =>
      simp only [SeqLock.step, SeqLock.writerStep]
      split
      · rfl
      · rfl
      · rfl
      · split <;> rfl
  | store val =>
      simp only [SeqLock.step]
      split <;> rfl
  | load j =>
      simp only [SeqLock.step]
      split
      · next hidle =>
          have hij : i ≠ j := by
            rintro rfl
            exact hrunning hidle
          exact setReader_of_ne s hij _
      · rfl
  | reader j =>
      have hij : i ≠ j := by
        rintro rfl
        simp [Action.isReader] at hact
      exact setReader_of_ne s hij _

/-! ### Attempts that fail -/

/-- The step at which reader `i` finds that the counter has changed. -/
def startsOver (i : ι) (s : SeqLock w n W ι) : Action n W ι → Bool
  | .reader j =>
      match (s.readers j).pc with
      | .copy seq1 k => j = i ∧ ¬ k < n ∧ seq1 ≠ s.seq
      | _ => false
  | _ => false

/-- The step at which a store makes the counter odd. -/
def marks (s : SeqLock w n W ι) : Action n W ι → Bool
  | .writer =>
      match s.writer with
      | .mark _ _ => true
      | _ => false
  | _ => false

/-- One if the attempt at `pc` is going to fail. -/
def doomed (seq : BitVec w) : ReaderPc w → Nat
  | .copy seq1 _ => if seq1 = seq then 0 else 1
  | _ => 0

theorem doomed_le (seq : BitVec w) (pc : ReaderPc w) : doomed seq pc ≤ 1 := by
  cases pc with
  | copy seq1 k =>
      simp only [doomed]
      split <;> omega
  | _ => exact Nat.zero_le 1

omit [DecidableEq ι] in
/-- A step of the writer dooms an attempt only when it makes the counter odd. -/
theorem Parity.doomed_writer (h : s.Parity) (i : ι) :
    doomed s.writerStep.seq (s.readers i).pc ≤
      doomed s.seq (s.readers i).pc + (s.marks .writer).toNat := by
  have hwriter := h.writer
  have hle := doomed_le s.writerStep.seq (s.readers i).pc
  simp only [SeqLock.writerStep, marks] at hle ⊢
  cases hpc : s.writer with
  | idle | readSeq val => exact Nat.le_add_right ..
  | mark val seq =>
      simp only [hpc] at hle
      exact hle.trans (Nat.le_add_left ..)
  | copy val seq k =>
      rw [hpc] at hwriter
      simp only [hpc] at hle
      dsimp only
      by_cases hlt : k < n
      · rw [dif_pos hlt]
        exact Nat.le_add_right ..
      · rw [dif_neg hlt] at hle ⊢
        cases hreader : (s.readers i).pc with
        | idle | readSeq1 => exact Nat.zero_le _
        | copy seq1 j =>
            -- the counter is odd, and the attempt has seen it even
            have hne : seq1 ≠ s.seq := by
              rintro rfl
              rw [h.readers i _ j hreader] at hwriter
              cases hwriter.1
            rw [hreader] at hle
            simp only [doomed, if_neg hne] at hle ⊢
            exact hle

/-- A reader that starts over had been doomed, and is so no longer. -/
theorem doomed_reader (s : SeqLock w n W ι) (i : ι) :
    (s.startsOver i (.reader i)).toNat + doomed s.seq (s.readerNext (s.readers i)).pc ≤
      doomed s.seq (s.readers i).pc := by
  simp only [SeqLock.readerNext, startsOver]
  cases hpc : (s.readers i).pc with
  | idle => simp [hpc, doomed]
  | readSeq1 =>
      dsimp only
      split <;> simp [hpc, doomed]
  | copy seq1 k =>
      dsimp only
      by_cases hlt : k < n
      · simp [hlt, doomed]
      · by_cases hsame : seq1 = s.seq <;> simp [hlt, hsame, doomed]

omit [DecidableEq ι] in
theorem writerStep_readers (s : SeqLock w n W ι) : s.writerStep.readers = s.readers := by
  simp only [SeqLock.writerStep]
  split
  · rfl
  · rfl
  · rfl
  · split <;> rfl

/-- **One step.** An attempt that fails is paid for by a store. -/
theorem Parity.doomed_step (h : s.Parity) (i : ι) (act : Action n W ι) :
    (s.startsOver i act).toNat + doomed (s.step act).seq ((s.step act).readers i).pc ≤
      doomed s.seq (s.readers i).pc + (s.marks act).toNat := by
  cases act with
  | writer =>
      have hquiet : s.startsOver i .writer = false := rfl
      rw [hquiet, Bool.toNat_false, Nat.zero_add]
      show doomed s.writerStep.seq (s.writerStep.readers i).pc ≤ _
      rw [s.writerStep_readers]
      exact h.doomed_writer i
  | store val =>
      have hquiet : s.startsOver i (.store val) = false := rfl
      simp only [SeqLock.step, hquiet, Bool.toNat_false, Nat.zero_add]
      split <;> exact Nat.le_add_right ..
  | load j =>
      have hquiet : s.startsOver i (.load j) = false := rfl
      simp only [SeqLock.step, hquiet, Bool.toNat_false, Nat.zero_add]
      split
      · by_cases hij : i = j
        · rw [hij, setReader_self]
          exact Nat.zero_le _
        · rw [setReader_of_ne s hij]
          exact Nat.le_add_right ..
      · exact Nat.le_add_right ..
  | reader j =>
      simp only [SeqLock.step, setReader_seq]
      by_cases hij : i = j
      · subst hij
        rw [setReader_self]
        exact (s.doomed_reader i).trans (Nat.le_add_right ..)
      · have hquiet : s.startsOver i (.reader j) = false := by
          simp only [startsOver]
          split
          · simp [Ne.symm hij]
          · rfl
        rw [hquiet, Bool.toNat_false, Nat.zero_add, setReader_of_ne s hij]
        exact Nat.le_add_right ..

/-- A store is finished after `n + 3` steps of the writer. -/
theorem exists_store_finished (s : SeqLock w n W ι) {schedule : List (Action n W ι)}
    (hsteps : n + 3 ≤ schedule.countP Action.isWriter) :
    ∃ pre, pre <+: schedule ∧ (run step s pre).writer = .idle := by
  have hall : AllSteps step (fun _ _ => True) s schedule :=
    allSteps_of_forall (fun _ _ => trivial) s
  obtain ⟨pre, hpre, hzero⟩ := exists_prefix_rank_eq_zero (J := fun _ => True)
    (fun s : SeqLock w n W ι => storeRank s.writer) Action.isWriter (fun _ _ _ _ => trivial)
    (fun s act _ _ hown hrunning => by
      cases act <;> cases hown
      exact storeRank_writerStep hrunning)
    (fun s act _ _ hother hrunning => (writer_step hrunning hother ▸ le_refl _))
    trivial hall ((storeRank_le s.writer).trans hsteps)
  refine ⟨pre, hpre, ?_⟩
  cases hpc : (run step s pre).writer with
  | idle => rfl
  | _ => simp [hpc, storeRank] at hzero

/-- A load is finished after `2 * n + 3` steps of its reader while no store is in progress. -/
theorem exists_load_finished (s : SeqLock w n W ι) (i : ι) {schedule : List (Action n W ι)}
    (heven : isOdd s.version = false) (hquiet : schedule.countP Action.isWriter = 0)
    (hsteps : 2 * n + 3 ≤ schedule.countP (Action.isReader i)) :
    ∃ pre, pre <+: schedule ∧ ((run step s pre).readers i).pc = .idle := by
  have hall : AllSteps step (fun _ act => act.isWriter = false) s schedule :=
    allSteps_of_forall (fun act hact => by
      simpa using List.countP_eq_zero.mp hquiet act hact) s
  obtain ⟨pre, hpre, hzero⟩ := exists_prefix_rank_eq_zero
    (J := fun s : SeqLock w n W ι => isOdd s.seq = false)
    (fun s : SeqLock w n W ι => loadRank n s.seq (s.readers i).pc) (Action.isReader i)
    (fun s act hs hact => (congrArg isOdd (seq_step hact)).trans hs)
    (fun s act hs hact hown hrunning => by
      rw [seq_step hact]
      cases act with
      | reader j =>
          obtain rfl : j = i := by simpa [Action.isReader] using hown
          simp only [SeqLock.step, setReader_self]
          exact loadRank_readerNext hs hrunning
      | _ => cases hown)
    (fun s act _ hact hother hrunning => by
      have hpc : (s.readers i).pc ≠ .idle := fun hidle => hrunning (by rw [hidle]; rfl)
      rw [seq_step hact, reader_step hpc hother])
    heven hall ((loadRank_le s.seq _).trans hsteps)
  refine ⟨pre, hpre, ?_⟩
  cases hpc : ((run step s pre).readers i).pc with
  | idle => rfl
  | _ => simp [hpc, loadRank] at hzero

/-- **Progress.** From any state a schedule with `n + 3` steps of the writer passes through
one in which no store is in progress, whatever the readers do. From any state with an even
version a schedule without steps of the writer and with `2 * n + 3` steps of a reader passes
through one in which that reader is in no load. And in every schedule of a new lock a reader
starts over at most as often as stores make the counter odd. -/
theorem calls_progress (hw : 0 < w) :
    (∀ (s : SeqLock w n W ι) (schedule : List (Action n W ι)),
        n + 3 ≤ schedule.countP Action.isWriter →
          ∃ pre, pre <+: schedule ∧ (run step s pre).writer = .idle) ∧
      (∀ (s : SeqLock w n W ι) (i : ι) (schedule : List (Action n W ι)),
        isOdd s.version = false → schedule.countP Action.isWriter = 0 →
          2 * n + 3 ≤ schedule.countP (Action.isReader i) →
            ∃ pre, pre <+: schedule ∧ ((run step s pre).readers i).pc = .idle) ∧
      ∀ (initial : Fin n → W) (dst : ι → Fin n → W) (i : ι) (schedule : List (Action n W ι)),
        let lock : SeqLock w n W ι := new initial dst
        countSteps step (startsOver i) lock schedule ≤ countSteps step marks lock schedule := by
  refine ⟨fun s _ => exists_store_finished s, fun s i _ => exists_load_finished s i, ?_⟩
  intro initial dst i schedule lock
  have hpaid := countSteps_le_of_potential (J := Parity) (p := startsOver i) (q := marks)
    (fun s : SeqLock w n W ι => doomed s.seq (s.readers i).pc)
    (fun _ act h => h.step hw act) (fun _ act h => h.doomed_step i act)
    (parity_new hw initial dst) schedule
  exact hpaid.trans_eq (Nat.zero_add _)

end

/-- A load that starts over once, because of one store. -/
theorem calls_progress_retried :
    countSteps step (startsOver ())
        (new ![0, 0] (fun _ => ![0, 0]) : SeqLock 64 2 Nat Unit) tornThenRetried ≤
      countSteps step marks (new ![0, 0] (fun _ => ![0, 0]) : SeqLock 64 2 Nat Unit)
        tornThenRetried :=
  (calls_progress (by decide)).2.2 _ _ () _

example : countSteps step (startsOver ())
    (new ![0, 0] (fun _ => ![0, 0]) : SeqLock 64 2 Nat Unit) tornThenRetried = 1 := by
  decide +kernel

end SeqLock

end Mantis
