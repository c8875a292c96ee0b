import Mantis.Lib.Linearizable
import Mantis.SeqLock

/-!
# Mantis.SeqLock.Linearizable

The sequence lock is an atomic register. A `store` takes effect when it makes the counter
even again; a `load` takes effect at the second read of the counter that finds it
unchanged. So a load returns the value of the last store completed at one instant between
its call and its return, and loads of different readers agree on the order of the stores.

As for `load_consistent`, fewer than `2 ^ (w - 1)` stores may complete during one attempt of
a load: the counter must not go around.
-/

namespace Mantis

open Linear Runs

namespace SeqLock

/-- The threads of a lock. -/
inductive LockThread (ι : Type)
  | writer
  | reader (i : ι)
  deriving DecidableEq, Repr

/-- The calls of a lock whose value has `n` words. -/
inductive Call (n : Nat) (W : Type)
  | store (val : Fin n → W)
  | load

inductive Answer (n : Nat) (W : Type)
  | stored
  | loaded (val : Fin n → W)

variable {w n : Nat} {W ι : Type}

/-- A register: each call is one step. -/
def registerCall (value : Fin n → W) : Call n W → (Fin n → W) × Answer n W
  | .store val => (val, .stored)
  | .load => (value, .loaded value)

/-- The invocation or response in an action. -/
def events (s : SeqLock w n W ι) :
    Action n W ι → List (Event (LockThread ι) (Call n W) (Answer n W))
  | .store val =>
      match s.writer with
      | .idle => [.invoke .writer (.store val)]
      | _ => []
  | .writer =>
      match s.writer with
      | .copy _ _ k => if k < n then [] else [.respond .writer .stored]
      | _ => []
  | .load i =>
      match (s.readers i).pc with
      | .idle => [.invoke (.reader i) .load]
      | _ => []
  | .reader i =>
      match (s.readers i).pc with
      | .copy seq1 k =>
          if k < n then []
          else if seq1 = s.seq then [.respond (.reader i) (.loaded (s.readers i).dst)]
          else []
      | _ => []

/-! ### The lock and the atomic register -/

/-- A store takes effect at its last step. -/
def WriterShows : WriterPc w n W → Status (Call n W) (Answer n W) → Prop
  | .idle, st => st = .idle
  | .readSeq val, st | .mark val _, st | .copy val _ _, st => st = .pending (.store val)

/-- A load takes effect at its last step. -/
def ReaderShows : ReaderPc w → Status (Call n W) (Answer n W) → Prop
  | .idle, st => st = .idle
  | .readSeq1, st | .copy _ _, st => st = .pending .load

abbrev AtomicRegister (n : Nat) (W ι : Type) : Type :=
  Atomic (LockThread ι) (Fin n → W) (Call n W) (Answer n W)

/-- The status a thread shows. -/
def Shows (s : SeqLock w n W ι) : LockThread ι → Status (Call n W) (Answer n W) → Prop
  | .writer => WriterShows s.writer
  | .reader i => ReaderShows (s.readers i).pc

/-- The value of the last completed store. -/
def Holds (s : SeqLock w n W ι) (value : Fin n → W) : Prop :=
  s.history[s.completed]? = some value

/-- The register holds the value of the last completed store, and every thread stands where
it does there. -/
structure Tracks (s : SeqLock w n W ι) (a : AtomicRegister n W ι) : Prop where
  inv : s.Inv
  stands : Stands s.Holds s.Shows a

theorem tracks_new (initial : Fin n → W) (dst : ι → Fin n → W) :
    (new initial dst : SeqLock w n W ι).Tracks (.init initial) := by
  refine ⟨inv_new initial dst, rfl, fun t => ?_⟩
  cases t <;> rfl

/-- The writer moves alone. -/
theorem shows_of_ne_writer {s s' : SeqLock w n W ι} (hreaders : s'.readers = s.readers) :
    ∀ t, t ≠ LockThread.writer → s'.Shows t = s.Shows t := by
  intro t hne
  cases t with
  | writer => exact absurd rfl hne
  | reader i =>
      show ReaderShows (s'.readers i).pc = _
      rw [hreaders]
      rfl

section

variable [DecidableEq ι] {s : SeqLock w n W ι} {a : AtomicRegister n W ι}

/-- A reader moves alone. -/
theorem shows_of_ne_reader (s : SeqLock w n W ι) {i : ι} (r : Reader w n W) :
    ∀ t, t ≠ LockThread.reader i → (s.setReader i r).Shows t = s.Shows t := by
  intro t hne
  cases t with
  | writer => rfl
  | reader j =>
      have hji : j ≠ i := fun hji => hne (congrArg LockThread.reader hji)
      show ReaderShows (Function.update s.readers i r j).pc = _
      rw [Function.update_of_ne hji]
      rfl

/-- What the reader shows after its move. -/
theorem shows_setReader (s : SeqLock w n W ι) {i : ι} {r : Reader w n W}
    {st : Status (Call n W) (Answer n W)} (h : ReaderShows r.pc st) :
    (s.setReader i r).Shows (.reader i) st := by
  show ReaderShows (Function.update s.readers i r i).pc st
  rwa [Function.update_self]

/-- **A step of the writer.** -/
theorem Tracks.writerStep (h : s.Tracks a) :
    ∃ b, Moves (det registerCall) a (s.events .writer) b ∧
      Stands s.writerStep.Holds s.writerStep.Shows b := by
  have hwriter := h.inv.writer
  have hstatus : WriterShows s.writer (a.status .writer) := h.stands.status .writer
  simp only [SeqLock.writerStep, events]
  cases hpc : s.writer with
  | idle => exact ⟨a, .refl, h.stands⟩
  | readSeq val =>
      rw [hpc] at hstatus
      exact h.stands.stay (shows_of_ne_writer rfl) h.stands.object hstatus
  | mark val seq =>
      rw [hpc] at hstatus
      exact h.stands.stay (shows_of_ne_writer rfl) h.stands.object hstatus
  | copy val seq k =>
      rw [hpc] at hstatus hwriter
      dsimp only
      split
      · exact h.stands.stay (shows_of_ne_writer rfl) h.stands.object hstatus
      · -- the counter becomes even: the store is complete, and returns
        obtain ⟨-, -, hval, -, -, -⟩ := hwriter
        exact h.stands.commit_respond (shows_of_ne_writer rfl) hstatus rfl hval rfl

/-- **A step of a reader.** -/
theorem Tracks.readerStep (hw : 0 < w) (h : s.Tracks a) {i : ι} (htime : s.InTime (s.readers i)) :
    ∃ b, Moves (det registerCall) a (s.events (.reader i)) b ∧
      Stands (s.setReader i (s.readerNext (s.readers i))).Holds
        (s.setReader i (s.readerNext (s.readers i))).Shows b := by
  have hreader := h.inv.readers i
  have hvalue : s.history[s.completed]? = some a.object := h.stands.object
  have hstatus : ReaderShows (s.readers i).pc (a.status (.reader i)) :=
    h.stands.status (.reader i)
  -- a step without an event: whatever the reader has seen, its call is still pending
  have hquiet : ∀ r : Reader w n W, ReaderShows r.pc (a.status (.reader i)) →
      ∃ b, Moves (det registerCall) a [] b ∧
        Stands (s.setReader i r).Holds (s.setReader i r).Shows b := fun r hr =>
    h.stands.stay (shows_of_ne_reader s r) hvalue (shows_setReader s hr)
  simp only [SeqLock.readerNext, events]
  cases hpc : (s.readers i).pc with
  | idle =>
      rw [hpc] at hstatus
      exact hquiet _ (by rw [hpc]; exact hstatus)
  | readSeq1 =>
      rw [hpc] at hstatus
      refine hquiet _ ?_
      by_cases hodd : isOdd s.seq = true
      · rw [if_pos hodd, hpc]
        exact hstatus
      · rw [if_neg hodd]
        exact hstatus
  | copy seq1 k =>
      rw [hpc] at hstatus
      dsimp only
      split
      · exact hquiet _ hstatus
      · next hge =>
          split
          · next hsame =>
              -- the counter has not moved, so what was copied is the value of the register
              rw [hsame] at hpc
              have hcopied := hreader.unchanged hw h.inv.writer htime hpc hge
              have hread : a.object = (s.readers i).dst :=
                Option.some.inj (hvalue.symm.trans hcopied)
              have hspec : det registerCall a.object .load (.loaded (s.readers i).dst) a.object :=
                hread ▸ rfl
              exact h.stands.commit_respond (shows_of_ne_reader s _) hstatus hspec hvalue
                (shows_setReader s rfl)
          · -- a store came between: the load starts over, and nobody has seen it
            exact hquiet _ hstatus

/-- The call of a store. -/
theorem Tracks.startStore (h : s.Tracks a) (val : Fin n → W) :
    ∃ b, Moves (det registerCall) a (s.events (.store val)) b ∧
      Stands (s.step (.store val)).Holds (s.step (.store val)).Shows b := by
  have hvalue : s.history[s.completed]? = some a.object := h.stands.object
  have hstatus : WriterShows s.writer (a.status .writer) := h.stands.status .writer
  simp only [SeqLock.step, events]
  cases hpc : s.writer with
  | idle =>
      rw [hpc] at hstatus
      refine h.stands.invoke (shows_of_ne_writer rfl) hstatus ?_ rfl
      -- the value called for goes after those completed
      show (s.history ++ [val])[s.completed]? = some a.object
      have hlt : s.completed < s.history.length := (List.getElem?_eq_some_iff.mp hvalue).1
      rw [List.getElem?_append_left hlt]
      exact hvalue
  | readSeq val' | mark val' seq | copy val' seq k => exact ⟨a, .refl, h.stands⟩

/-- The call of a load. -/
theorem Tracks.startLoad (h : s.Tracks a) (i : ι) :
    ∃ b, Moves (det registerCall) a (s.events (.load i)) b ∧
      Stands (s.step (.load i)).Holds (s.step (.load i)).Shows b := by
  have hstatus : ReaderShows (s.readers i).pc (a.status (.reader i)) :=
    h.stands.status (.reader i)
  simp only [SeqLock.step, events]
  cases hpc : (s.readers i).pc with
  | idle =>
      rw [hpc] at hstatus
      exact h.stands.invoke (shows_of_ne_reader s _) hstatus h.stands.object
        (shows_setReader s rfl)
  | readSeq1 | copy seq1 k => exact ⟨a, .refl, h.stands⟩

/-- **One action.** -/
theorem Tracks.step (hw : 0 < w) (h : s.Tracks a) {act : Action n W ι} (hact : s.Admissible act) :
    ∃ b, Moves (det registerCall) a (s.events act) b ∧ (s.step act).Tracks b := by
  have hmoves : ∃ b, Moves (det registerCall) a (s.events act) b ∧
      Stands (s.step act).Holds (s.step act).Shows b := by
    cases act with
    | store val => exact h.startStore val
    | writer => exact h.writerStep
    | load i => exact h.startLoad i
    | reader i => exact h.readerStep hw hact
  obtain ⟨b, hevents, hstands⟩ := hmoves
  exact ⟨b, hevents, h.inv.step hw hact, hstands⟩

/-- **The sequence lock is a linearizable register.** For every counter width, value size,
number of readers and schedule in which fewer than `2 ^ (w - 1)` stores complete during one
attempt of a load, the threads see what they would see of a register on which every store
and load happens at one instant between its call and its return. -/
theorem register_linearizable (hw : 0 < w) (initial : Fin n → W) (dst : ι → Fin n → W)
    (schedule : List (Action n W ι))
    (htime : AllSteps step Admissible (new initial dst : SeqLock w n W ι) schedule) :
    Linearizable (det registerCall) initial
      (Linear.history step events (new initial dst : SeqLock w n W ι) schedule) :=
  linearizable_of_simulation (fun _ _ _ htracks hact => htracks.step hw hact)
    (tracks_new initial dst) htime

end

/-- The load that is torn by a store and retried. -/
theorem register_linearizable_retried :
    Linearizable (det registerCall) ![0, 0]
      (Linear.history step events (new ![0, 0] (fun _ => ![0, 0]) : SeqLock 64 2 Nat Unit)
        tornThenRetried) :=
  register_linearizable (by decide) _ _ _ (by decide +kernel)

end SeqLock

end Mantis
