import Mantis.Queue.CopyRing
import Mantis.Queue.Ledger

/-!
# Mantis.Queue.BatchLedger

What a step of `push_batch` or `pop_batch` leaves to report, as `Mantis.Queue.Ledger` says it
for single values. A batch publishes all its elements with one store, so a step publishes
nothing or the first elements of its source, as many as the count it answers
(`Ring.pushBatchStep_ledger`).
-/

namespace Mantis

variable {α : Type}

/-! ### Program counters -/

/-- The source of a batch is what it has copied and what is left to copy. -/
def PushBatchPc.Carries (src : List α) : PushBatchPc α → Prop
  | .compare src' _ | .refresh src' _ => src' = src ∧ src ≠ []
  | .copy _ n _ rest written =>
      n ≠ 0 ∧ n ≤ src.length ∧ written.map Prod.snd ++ rest = src.take n
  | .setLocal _ n => n ≠ 0 ∧ n ≤ src.length

/-- How many elements a batch has published without having returned. -/
def PushBatchPc.published? : PushBatchPc α → Option Nat
  | .setLocal _ n => some n
  | _ => none

/-- What a `pop_batch` moves fits its destination. -/
def PopBatchPc.Carries (dstLen : Nat) : PopBatchPc α → Prop
  | .compare dstLen' _ | .refresh dstLen' _ => dstLen' = dstLen ∧ dstLen ≠ 0
  | .copy _ n _ out => n ≠ 0 ∧ n ≤ dstLen ∧ out.length ≤ n
  | .setLocal _ out => out ≠ [] ∧ out.length ≤ dstLen

/-- What a batch has taken without having returned. -/
def PopBatchPc.taken? : PopBatchPc α → Option (List α)
  | .setLocal _ out => some out
  | _ => none

/-- How many elements a step of a `push_batch` leaves to report, now or later. -/
def Next.published : Next (PushBatchPc α) (Option Nat) → Nat
  | .running pc => pc.published?.getD 0
  | .returned n => n.getD 0

/-- What a step of a `pop_batch` leaves to report. -/
def Next.taken : Next (PopBatchPc α) (Option (List α)) → List α
  | .running pc => pc.taken?.getD []
  | .returned out => out.getD []

/-! ### Steps -/

/-- Entering the copy loop publishes nothing yet. -/
theorem PushBatchPc.begin_carries (cfg : RingConfig) {src : List α} (hsrc : src ≠ [])
    {free : Nat} (hfree : free ≠ 0) (head : Nat) :
    let next : Next (PushBatchPc α) (Option Nat) :=
      .ofOption (PushBatchPc.begin cfg src head free)
    next.published = 0 ∧ ∀ pc', next = .running pc' → pc'.Carries src := by
  have hlen := List.length_pos_iff.mpr hsrc
  simp only [PushBatchPc.begin]
  cases firstChunk cfg.cap head (min src.length free) with
  | none => exact ⟨rfl, fun _ h => by cases h⟩
  | some first =>
      refine ⟨rfl, fun _ h => ?_⟩
      cases h
      exact ⟨by omega, Nat.min_le_left .., List.nil_append _⟩

/-- A step of a `push_batch` publishes exactly what it leaves to report: nothing, or the whole
batch. -/
theorem Ring.pushBatchStep_ledger (cfg : RingConfig) (r : Ring α) {src : List α}
    {pc : PushBatchPc α} (h : pc.Carries src) :
    ∃ new, (r.pushBatchStep cfg pc).1.producer.pushed.map Prod.snd =
        r.producer.pushed.map Prod.snd ++ new ∧
      src.take (pc.published?.getD 0) ++ new = src.take (r.pushBatchStep cfg pc).2.published ∧
      (r.pushBatchStep cfg pc).2.published ≤ src.length ∧
      (r.pushBatchStep cfg pc).1.consumer = r.consumer ∧
      ∀ pc', (r.pushBatchStep cfg pc).2 = .running pc' → pc'.Carries src := by
  cases pc with
  | compare src' head =>
      obtain ⟨rfl, hsrc⟩ := h
      have hlen := List.length_pos_iff.mpr hsrc
      refine ⟨[], ?_⟩
      simp only [Ring.pushBatchStep]
      split
      · simp [PushBatchPc.published?, Next.published]
      · next free _ =>
          split
          · refine ⟨(List.append_nil _).symm, rfl, Nat.zero_le _, rfl, fun _ h => ?_⟩
            cases h
            exact ⟨rfl, hsrc⟩
          · have hfree : free ≠ 0 := by omega
            obtain ⟨hnone, hnext⟩ := PushBatchPc.begin_carries cfg hsrc hfree head
            rw [hnone]
            exact ⟨(List.append_nil _).symm, rfl, Nat.zero_le _, rfl, hnext⟩
  | refresh src' head =>
      obtain ⟨rfl, hsrc⟩ := h
      refine ⟨[], ?_⟩
      simp only [Ring.pushBatchStep]
      split
      · simp [PushBatchPc.published?, Next.published]
      · split
        · simp [PushBatchPc.published?, Next.published]
        · next hfree =>
            obtain ⟨hnone, hnext⟩ := PushBatchPc.begin_carries cfg hsrc hfree head
            rw [hnone]
            exact ⟨(List.append_nil _).symm, rfl, Nat.zero_le _, rfl, hnext⟩
  | copy head n first rest written =>
      obtain ⟨hpos, hle, hvalues⟩ := h
      cases rest with
      | cons value rest =>
          refine ⟨[], (List.append_nil _).symm, rfl, Nat.zero_le _, rfl, fun _ h => ?_⟩
          cases h
          refine ⟨hpos, hle, ?_⟩
          rw [List.map_append, List.append_assoc]
          exact hvalues
      | nil =>
          -- all copied: storing the head publishes the whole batch at once
          rw [List.append_nil] at hvalues
          have hnil : src.take 0 ++ src.take n = src.take n := by
            rw [List.take_zero, List.nil_append]
          refine ⟨src.take n, ?_⟩
          simp only [Ring.pushBatchStep]
          split
          · refine ⟨?_, hnil, hle, rfl, fun _ h => ?_⟩
            · rw [List.map_append, hvalues]
            · cases h
              exact ⟨hpos, hle⟩
          · refine ⟨?_, hnil, hle, rfl, fun _ h => by cases h⟩
            rw [List.map_append, hvalues]
  | setLocal newHead n =>
      exact ⟨[], (List.append_nil _).symm, List.append_nil _, h.2, rfl, fun _ h => by cases h⟩

/-- Entering the copy loop takes nothing yet. -/
theorem PopBatchPc.begin_carries (cfg : RingConfig) {dstLen : Nat} (hdst : dstLen ≠ 0)
    {avail : Nat} (havail : avail ≠ 0) (tail : Nat) :
    let next : Next (PopBatchPc α) (Option (List α)) :=
      .ofOption (PopBatchPc.begin cfg dstLen tail avail)
    next.taken = [] ∧ ∀ pc', next = .running pc' → pc'.Carries dstLen := by
  simp only [PopBatchPc.begin]
  cases firstChunk cfg.cap tail (min dstLen avail) with
  | none => exact ⟨rfl, fun _ h => by cases h⟩
  | some first =>
      refine ⟨rfl, fun _ h => ?_⟩
      cases h
      exact ⟨by omega, Nat.min_le_left .., Nat.zero_le _⟩

/-- A step of a `pop_batch` takes exactly what it leaves to report. -/
theorem Ring.popBatchStep_ledger (cfg : RingConfig) (r : Ring α) {dstLen : Nat}
    {pc : PopBatchPc α} (h : pc.Carries dstLen) :
    ∃ new, (r.popBatchStep cfg pc).1.consumer.popped = r.consumer.popped ++ new ∧
      pc.taken?.getD [] ++ new = (r.popBatchStep cfg pc).2.taken ∧
      (r.popBatchStep cfg pc).2.taken.length ≤ dstLen ∧
      (r.popBatchStep cfg pc).1.producer = r.producer ∧
      ∀ pc', (r.popBatchStep cfg pc).2 = .running pc' → pc'.Carries dstLen := by
  cases pc with
  | compare dstLen' tail =>
      obtain ⟨rfl, hdst⟩ := h
      refine ⟨[], ?_⟩
      simp only [Ring.popBatchStep]
      split
      · simp [PopBatchPc.taken?, Next.taken]
      · next avail _ =>
          split
          · refine ⟨(List.append_nil _).symm, rfl, Nat.zero_le _, rfl, fun _ h => ?_⟩
            cases h
            exact ⟨rfl, hdst⟩
          · have havail : avail ≠ 0 := by omega
            obtain ⟨hnone, hnext⟩ := @PopBatchPc.begin_carries α cfg _ hdst _ havail tail
            rw [hnone]
            exact ⟨(List.append_nil _).symm, rfl, Nat.zero_le _, rfl, hnext⟩
  | refresh dstLen' tail =>
      obtain ⟨rfl, hdst⟩ := h
      refine ⟨[], ?_⟩
      simp only [Ring.popBatchStep]
      split
      · simp [PopBatchPc.taken?, Next.taken]
      · split
        · simp [PopBatchPc.taken?, Next.taken]
        · next havail =>
            obtain ⟨hnone, hnext⟩ := @PopBatchPc.begin_carries α cfg _ hdst _ havail tail
            rw [hnone]
            exact ⟨(List.append_nil _).symm, rfl, Nat.zero_le _, rfl, hnext⟩
  | copy tail n first out =>
      obtain ⟨hpos, hle, hout⟩ := h
      simp only [Ring.popBatchStep]
      split
      · next hlt =>
          refine ⟨[], (List.append_nil _).symm, rfl, Nat.zero_le _, rfl, fun _ h => ?_⟩
          cases h
          refine ⟨hpos, hle, ?_⟩
          rw [List.length_append, List.length_singleton]
          exact hlt
      · next hlt =>
          -- all read: storing the tail takes the whole batch at once
          have hfits : out.length ≤ dstLen := hout.trans hle
          have hne : out ≠ [] := by
            rintro rfl
            exact hlt (Nat.pos_of_ne_zero hpos)
          refine ⟨out, ?_⟩
          split
          · refine ⟨rfl, rfl, hfits, rfl, fun _ h => ?_⟩
            cases h
            exact ⟨hne, hfits⟩
          · exact ⟨rfl, rfl, hfits, rfl, fun _ h => by cases h⟩
  | setLocal newTail out =>
      exact ⟨[], (List.append_nil _).symm, List.append_nil _, h.2, rfl, fun _ h => by cases h⟩

/-- What a batch has published is some of its source. -/
theorem PushBatchPc.Carries.published {src : List α} {pc : PushBatchPc α} (h : pc.Carries src)
    {n : Nat} (hpc : pc.published? = some n) : n ≠ 0 ∧ n ≤ src.length := by
  cases pc with
  | setLocal newHead n' =>
      cases hpc
      exact h
  | compare | refresh | copy => cases hpc

/-- What has been taken fits the buffer. -/
theorem PopBatchPc.Carries.taken {dstLen : Nat} {pc : PopBatchPc α} (h : pc.Carries dstLen)
    {out : List α} (hpc : pc.taken? = some out) : out ≠ [] ∧ out.length ≤ dstLen := by
  cases pc with
  | setLocal newTail out' =>
      cases hpc
      exact h
  | compare | refresh | copy => cases hpc

end Mantis
