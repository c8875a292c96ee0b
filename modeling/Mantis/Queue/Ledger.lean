import Mantis.Queue.Ring

/-!
# Mantis.Queue.Ledger

On `aarch64` a call publishes or takes its value a step before it returns. In between, the
value is in the log of its thread and not yet in an answer: it is unreported.
A step adds to the log exactly what it leaves to report, now or later
(`Ring.pushStep_ledger`, `Ring.popStep_ledger`), so over a run the answers add up to the log.
-/

namespace Mantis

variable {α : Type}

/-- The value a push carries, until it is published. -/
def PushPc.Carries (value : α) : PushPc α → Prop
  | .compare v _ _ | .refresh v _ _ | .write v _ _ | .publish v _ _ => v = value
  | .setLocal _ => True

/-- What a push has published without having returned. -/
def PushPc.unreported (value : α) : PushPc α → List α
  | .setLocal _ => [value]
  | _ => []

/-- What a pop has taken without having returned. -/
def PopPc.unreported : PopPc α → List α
  | .setLocal value _ => [value]
  | _ => []

/-- What a step of a push leaves to report, now or later. -/
def Next.pushed (value : α) : Next (PushPc α) Bool → List α
  | .running pc => pc.unreported value
  | .returned ok => if ok then [value] else []

/-- What a step of a pop leaves to report. -/
def Next.popped : Next (PopPc α) (Option α) → List α
  | .running pc => pc.unreported
  | .returned value => value.toList

/-- A step of a push publishes exactly what it leaves to report. -/
theorem Ring.pushStep_ledger (cfg : RingConfig) (r : Ring α) {value : α} {pc : PushPc α}
    (h : pc.Carries value) :
    ∃ new, (r.pushStep cfg pc).1.producer.pushed.map Prod.snd =
        r.producer.pushed.map Prod.snd ++ new ∧
      pc.unreported value ++ new = (r.pushStep cfg pc).2.pushed value ∧
      (r.pushStep cfg pc).1.consumer = r.consumer ∧
      ∀ pc', (r.pushStep cfg pc).2 = .running pc' → pc'.Carries value := by
  cases pc with
  | compare v head nextHead =>
      refine ⟨[], ?_⟩
      simp only [Ring.pushStep]
      split <;> simp_all [PushPc.unreported, PushPc.Carries, Next.pushed]
  | refresh v head nextHead =>
      refine ⟨[], ?_⟩
      simp only [Ring.pushStep]
      split <;> simp_all [PushPc.unreported, PushPc.Carries, Next.pushed]
  | write v head nextHead =>
      refine ⟨[], ?_⟩
      simp_all [Ring.pushStep, PushPc.unreported, PushPc.Carries, Next.pushed]
  | publish v head nextHead =>
      refine ⟨[value], ?_⟩
      simp only [Ring.pushStep]
      split <;> simp_all [PushPc.unreported, PushPc.Carries, Next.pushed]
  | setLocal nextHead =>
      refine ⟨[], ?_⟩
      simp [Ring.pushStep, PushPc.unreported, Next.pushed]

/-- A step of a pop takes exactly what it leaves to report. -/
theorem Ring.popStep_ledger (cfg : RingConfig) (r : Ring α) (pc : PopPc α) :
    ∃ new, (r.popStep cfg pc).1.consumer.popped = r.consumer.popped ++ new ∧
      pc.unreported ++ new = (r.popStep cfg pc).2.popped ∧
      (r.popStep cfg pc).1.producer = r.producer := by
  cases pc with
  | compare tail =>
      refine ⟨[], ?_⟩
      simp only [Ring.popStep]
      split <;> simp [PopPc.unreported, Next.popped]
  | refresh tail =>
      refine ⟨[], ?_⟩
      simp only [Ring.popStep]
      split <;> simp [PopPc.unreported, Next.popped]
  | read tail => exact ⟨[], by simp [Ring.popStep, PopPc.unreported, Next.popped]⟩
  | publish value nextTail =>
      refine ⟨[value], ?_⟩
      simp only [Ring.popStep]
      split <;> simp [PopPc.unreported, Next.popped]
  | setLocal value nextTail =>
      exact ⟨[], by simp [Ring.popStep, PopPc.unreported, Next.popped]⟩

/-- Only the last step of a push has anything to report. -/
theorem PushPc.unreported_cases (pc : PushPc α) (value : α) :
    pc.unreported value = [] ∨ pc.unreported value = [value] ∧ ∃ head, pc = .setLocal head := by
  cases pc with
  | setLocal head => exact Or.inr ⟨rfl, head, rfl⟩
  | _ => exact Or.inl rfl

/-- Only the last step of a pop has anything to report. -/
theorem PopPc.unreported_cases (pc : PopPc α) :
    pc.unreported = [] ∨ ∃ value tail, pc = .setLocal value tail := by
  cases pc with
  | setLocal value tail => exact Or.inr ⟨value, tail, rfl⟩
  | _ => exact Or.inl rfl

end Mantis
