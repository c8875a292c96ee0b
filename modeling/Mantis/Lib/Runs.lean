import Mathlib.Data.List.Infix

/-!
# Runs of a step function

A deterministic component is a step function `σ → ε → σ`; a run folds it over a
list of inputs. `Always P` says that `P` holds in **every** state a run passes
through, and `AllSteps good` that every step of the run meets `good` in the state
it starts from.

`always_of_allSteps` is the induction rule for safety properties.
`always_iff_allSteps` is its exact form: when `good` says precisely which steps
keep `P`, a run keeps `P` throughout if and only if all of its steps are good, so
the condition on the steps cannot be weakened.
-/

namespace Runs

variable {σ ε : Type*} {step : σ → ε → σ} {J P : σ → Prop} {good valid : σ → ε → Prop}

/-- The state a run ends in. -/
def run (step : σ → ε → σ) (s : σ) (es : List ε) : σ := es.foldl step s

@[simp] theorem run_nil (s : σ) : run step s [] = s := rfl

@[simp] theorem run_cons (s : σ) (e : ε) (es : List ε) :
    run step s (e :: es) = run step (step s e) es := rfl

theorem run_append (s : σ) (es fs : List ε) :
    run step s (es ++ fs) = run step (run step s es) fs := List.foldl_append ..

/-- `P` holds in every state the run passes through, the first and last included. -/
def Always (step : σ → ε → σ) (P : σ → Prop) (s : σ) (es : List ε) : Prop :=
  ∀ pre, pre <+: es → P (run step s pre)

theorem always_nil {s : σ} : Always step P s [] ↔ P s := by
  constructor
  · intro h
    exact h [] List.nil_prefix
  · intro h pre hpre
    rw [List.prefix_nil.mp hpre]
    exact h

theorem always_cons {s : σ} {e : ε} {es : List ε} :
    Always step P s (e :: es) ↔ P s ∧ Always step P (step s e) es := by
  constructor
  · intro h
    refine ⟨h [] List.nil_prefix, ?_⟩
    intro pre hpre
    exact h (e :: pre) (List.prefix_cons_inj e |>.mpr hpre)
  · rintro ⟨hs, hrest⟩ pre hpre
    cases pre with
    | nil => exact hs
    | cons a pre =>
        obtain ⟨rfl, hpre'⟩ := List.cons_prefix_cons.mp hpre
        exact hrest pre hpre'

theorem Always.last {s : σ} {es : List ε} (h : Always step P s es) : P (run step s es) :=
  h es List.prefix_rfl

/-- Every step of the run meets `good` in the state it starts from. -/
def AllSteps (step : σ → ε → σ) (good : σ → ε → Prop) : σ → List ε → Prop
  | _, [] => True
  | s, e :: es => good s e ∧ AllSteps step good (step s e) es

@[simp] theorem allSteps_nil {s : σ} : AllSteps step good s [] := trivial

@[simp] theorem allSteps_cons {s : σ} {e : ε} {es : List ε} :
    AllSteps step good s (e :: es) ↔ good s e ∧ AllSteps step good (step s e) es := Iff.rfl

theorem allSteps_append {s : σ} {es fs : List ε} :
    AllSteps step good s (es ++ fs) ↔
      AllSteps step good s es ∧ AllSteps step good (run step s es) fs := by
  induction es generalizing s with
  | nil => simp
  | cons e es ih => rw [List.cons_append, allSteps_cons, allSteps_cons, ih, and_assoc, run_cons]

instance decidableAllSteps [∀ s e, Decidable (good s e)] :
    ∀ (s : σ) (es : List ε), Decidable (AllSteps step good s es)
  | _, [] => isTrue trivial
  | s, e :: es =>
      haveI := decidableAllSteps (step s e) es
      inferInstanceAs (Decidable (good s e ∧ AllSteps step good (step s e) es))

/-- A condition on the inputs alone is a condition on every step. -/
theorem allSteps_of_forall {q : ε → Prop} {es : List ε} (h : ∀ e ∈ es, q e) (s : σ) :
    AllSteps step (fun _ e => q e) s es := by
  induction es generalizing s with
  | nil => trivial
  | cons e es ih =>
      refine ⟨h e List.mem_cons_self, ih (fun e' he' => h e' ?_) _⟩
      exact List.mem_cons_of_mem e he'

/-- **Invariant rule.** A property kept by every good step holds throughout a run
of good steps. -/
theorem always_of_allSteps (hstep : ∀ s e, P s → good s e → P (step s e)) {s : σ} {es : List ε}
    (h0 : P s) (hgood : AllSteps step good s es) : Always step P s es := by
  induction es generalizing s with
  | nil => exact always_nil.mpr h0
  | cons e es ih =>
      exact always_cons.mpr ⟨h0, ih (hstep s e h0 hgood.1) hgood.2⟩

/-- A property kept by every step holds throughout every run. -/
theorem always_of_step (hstep : ∀ s e, P s → P (step s e)) {s : σ} (h0 : P s) (es : List ε) :
    Always step P s es := by
  have hall : AllSteps step (fun _ _ => True) s es :=
    allSteps_of_forall (fun _ _ => trivial) s
  exact always_of_allSteps (fun s e hs _ => hstep s e hs) h0 hall

/-- What an invariant and the condition on the steps imply together holds at every step. -/
theorem allSteps_of_invariant (hstep : ∀ s e, P s → good s e → P (step s e))
    (himp : ∀ s e, P s → good s e → valid s e) {s : σ} {es : List ε} (h0 : P s)
    (hgood : AllSteps step good s es) : AllSteps step valid s es := by
  induction es generalizing s with
  | nil => trivial
  | cons e es ih =>
      exact ⟨himp s e h0 hgood.1, ih (hstep s e h0 hgood.1) hgood.2⟩

/-- **Exact condition for a run.** `J` is a background invariant of every valid
run, and in its presence `good` says exactly which steps keep `P`. -/
theorem always_iff_allSteps (hJ : ∀ s e, J s → valid s e → J (step s e))
    (hP : ∀ s e, J s → valid s e → P s → (P (step s e) ↔ good s e)) {s : σ} {es : List ε}
    (hj : J s) (hp : P s) (hv : AllSteps step valid s es) :
    Always step P s es ↔ AllSteps step good s es := by
  induction es generalizing s with
  | nil => simpa [always_nil] using hp
  | cons e es ih =>
      obtain ⟨hve, hv⟩ := hv
      have hkeep := hP s e hj hve hp
      have hj' := hJ s e hj hve
      rw [always_cons, allSteps_cons]
      constructor
      · rintro ⟨-, hrest⟩
        have hp' : P (step s e) := hrest [] List.nil_prefix
        exact ⟨hkeep.mp hp', (ih hj' hp' hv).mp hrest⟩
      · rintro ⟨hge, hrest⟩
        have hp' : P (step s e) := hkeep.mpr hge
        exact ⟨hp, (ih hj' hp' hv).mpr hrest⟩

/-- **Exact condition through a break.** Good steps keep an invariant that implies `P`,
and every other step breaks `P` at once. -/
theorem always_iff_allSteps_of_break (hkeep : ∀ s e, J s → good s e → J (step s e))
    (himp : ∀ s, J s → P s) (hbreak : ∀ s e, J s → ¬ good s e → ¬ P (step s e)) {s : σ}
    (hj : J s) (es : List ε) : Always step P s es ↔ AllSteps step good s es := by
  induction es generalizing s with
  | nil => simpa [always_nil] using himp s hj
  | cons e es ih =>
      rw [always_cons, allSteps_cons]
      by_cases hgood : good s e
      · rw [ih (hkeep s e hj hgood)]
        exact ⟨fun h => ⟨hgood, h.2⟩, fun h => ⟨himp s hj, h.2⟩⟩
      · constructor
        · rintro ⟨-, hrest⟩
          exact absurd (hrest [] List.nil_prefix) (hbreak s e hj hgood)
        · rintro ⟨hge, -⟩
          exact absurd hge hgood

/-- **Progress rule.** Until the rank is zero every good step of the own kind lowers it and
no other good step raises it: a run of good steps with as many own steps as the rank passes
through a state of rank zero. -/
theorem exists_prefix_rank_eq_zero (rank : σ → Nat) (own : ε → Bool)
    (hJ : ∀ s e, J s → good s e → J (step s e))
    (hown : ∀ s e, J s → good s e → own e = true → rank s ≠ 0 → rank (step s e) < rank s)
    (hother : ∀ s e, J s → good s e → own e = false → rank s ≠ 0 → rank (step s e) ≤ rank s)
    {s : σ} {es : List ε} (hj : J s) (hgood : AllSteps step good s es)
    (hcount : rank s ≤ es.countP own) : ∃ pre, pre <+: es ∧ rank (run step s pre) = 0 := by
  induction es generalizing s with
  | nil => exact ⟨[], List.prefix_rfl, Nat.le_zero.mp hcount⟩
  | cons e es ih =>
      by_cases hzero : rank s = 0
      · exact ⟨[], List.nil_prefix, hzero⟩
      · have hrest : rank (step s e) ≤ es.countP own := by
          rw [List.countP_cons] at hcount
          cases hkind : own e with
          | true =>
              have hlt := hown s e hj hgood.1 hkind hzero
              rw [if_pos hkind] at hcount
              omega
          | false =>
              have hle := hother s e hj hgood.1 hkind hzero
              rw [if_neg (by simp [hkind])] at hcount
              omega
        obtain ⟨pre, hpre, hdone⟩ := ih (hJ s e hj hgood.1) hgood.2 hrest
        exact ⟨e :: pre, (List.prefix_cons_inj e).mpr hpre, hdone⟩

/-- How many steps of the run meet `p` in the state they start from. -/
def countSteps (step : σ → ε → σ) (p : σ → ε → Bool) : σ → List ε → Nat
  | _, [] => 0
  | s, e :: es => (p s e).toNat + countSteps step p (step s e) es

/-- **Potential rule.** Each step of the first kind is paid for by one of the second, now or
out of what has been saved. -/
theorem countSteps_le_of_potential {p q : σ → ε → Bool} (saved : σ → Nat)
    (hJ : ∀ s e, J s → J (step s e))
    (hpay : ∀ s e, J s → (p s e).toNat + saved (step s e) ≤ saved s + (q s e).toNat)
    {s : σ} (hj : J s) (es : List ε) :
    countSteps step p s es ≤ saved s + countSteps step q s es := by
  induction es generalizing s with
  | nil => exact Nat.zero_le _
  | cons e es ih =>
      have hstep := hpay s e hj
      have hrest := ih (hJ s e hj)
      simp only [countSteps]
      omega

end Runs
