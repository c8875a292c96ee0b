import Mantis.Lib.Runs
import Mathlib.Logic.Function.Basic

/-!
# Linearizability

Threads call a shared object whose calls take many steps and overlap. What the clients
see is a **history** of invocations and responses. It is linearizable with respect to a
sequential object `spec s op result s'` when every operation can be said to take effect
at one instant between its invocation and its response: there is one sequence of
**commits** that the sequential object could have answered, and every prefix of the
history has seen a prefix of it. An operation that had returned before another was called
is therefore before it in that sequence. A deterministic object is given by its calls
(`det`).

`Atomic` is the machine of all such behaviours: a thread is idle, waiting for its
operation to take effect, or holding a result it has not returned yet. An implementation
is linearizable when each of its steps is matched by moves of that machine
(`linearizable_of_simulation`). `Stands` relates the two: a step of one thread changes the
object and the status of that thread, and leaves the other threads where they stand.
-/

namespace Linear

open Runs

/-- What a client sees of a call. -/
inductive Event (ι ω ρ : Type*)
  | invoke (thread : ι) (op : ω)
  | respond (thread : ι) (result : ρ)
  deriving DecidableEq, Repr

/-- An operation that has taken effect. -/
structure Commit (ι ω ρ : Type*) where
  thread : ι
  op : ω
  result : ρ

variable {ι σ ω ρ : Type*} [DecidableEq ι]

/-- The operations a thread has called. -/
def invoked (t : ι) (h : List (Event ι ω ρ)) : List ω :=
  h.filterMap fun
    | .invoke u op => if u = t then some op else none
    | .respond _ _ => none

/-- The results a thread has been given. -/
def responded (t : ι) (h : List (Event ι ω ρ)) : List ρ :=
  h.filterMap fun
    | .invoke _ _ => none
    | .respond u result => if u = t then some result else none

/-- The operations of a thread that have taken effect. -/
def opsOf (t : ι) (cs : List (Commit ι ω ρ)) : List ω :=
  cs.filterMap fun c => if c.thread = t then some c.op else none

def resultsOf (t : ι) (cs : List (Commit ι ω ρ)) : List ρ :=
  cs.filterMap fun c => if c.thread = t then some c.result else none

/-- Only operations already called have taken effect, and all that have returned. -/
structure Explains (h : List (Event ι ω ρ)) (cs : List (Commit ι ω ρ)) : Prop where
  begun : ∀ t, opsOf t cs <+: invoked t h
  seen : ∀ t, responded t h <+: resultsOf t cs

/-- The object whose operations have one answer each. -/
def det (call : σ → ω → σ × ρ) (s : σ) (op : ω) (result : ρ) (s' : σ) : Prop :=
  call s op = (s', result)

/-- The object can answer the commits one after the other, and is then in state `s'`. -/
def Legal (spec : σ → ω → ρ → σ → Prop) : σ → List (Commit ι ω ρ) → σ → Prop
  | s, [], s' => s' = s
  | s, c :: cs, s' => ∃ m, spec s c.op c.result m ∧ Legal spec m cs s'

/-- The clients cannot tell the object from one on which every operation is a single step. -/
def Linearizable (spec : σ → ω → ρ → σ → Prop) (s : σ) (h : List (Event ι ω ρ)) : Prop :=
  ∃ cs : List (Commit ι ω ρ), (∃ s', Legal spec s cs s') ∧
    ∀ h', h' <+: h → ∃ cs', cs' <+: cs ∧ Explains h' cs'

omit [DecidableEq ι] in
theorem Legal.concat {spec : σ → ω → ρ → σ → Prop} {s m s' : σ} {cs : List (Commit ι ω ρ)}
    (h : Legal spec s cs m) {c : Commit ι ω ρ} (hc : spec m c.op c.result s') :
    Legal spec s (cs ++ [c]) s' := by
  induction cs generalizing s with
  | nil =>
      obtain rfl : m = s := h
      exact ⟨s', hc, rfl⟩
  | cons c' cs ih =>
      obtain ⟨m', hfirst, hrest⟩ := h
      exact ⟨m', hfirst, ih hrest⟩

/-! ### One more event, one more commit -/

section Append

variable (t u : ι) (h : List (Event ι ω ρ)) (cs : List (Commit ι ω ρ)) (op : ω) (result : ρ)

@[simp] theorem invoked_invoke :
    invoked t (h ++ [.invoke u op]) = invoked t h ++ if u = t then [op] else [] := by
  rw [invoked, List.filterMap_append]
  by_cases hut : u = t <;> simp [hut, invoked]

@[simp] theorem invoked_respond : invoked t (h ++ [.respond u result]) = invoked t h := by
  simp [invoked]

@[simp] theorem responded_invoke : responded t (h ++ [.invoke u op]) = responded t h := by
  simp [responded]

@[simp] theorem responded_respond :
    responded t (h ++ [.respond u result]) = responded t h ++ if u = t then [result] else [] := by
  rw [responded, List.filterMap_append]
  by_cases hut : u = t <;> simp [hut, responded]

@[simp] theorem opsOf_append :
    opsOf t (cs ++ [⟨u, op, result⟩]) = opsOf t cs ++ if u = t then [op] else [] := by
  rw [opsOf, List.filterMap_append]
  by_cases hut : u = t <;> simp [hut, opsOf]

@[simp] theorem resultsOf_append :
    resultsOf t (cs ++ [⟨u, op, result⟩]) = resultsOf t cs ++ if u = t then [result] else [] := by
  rw [resultsOf, List.filterMap_append]
  by_cases hut : u = t <;> simp [hut, resultsOf]

end Append

/-! ### The atomic machine -/

/-- Where a thread stands with an atomic object. -/
inductive Status (ω ρ : Type*)
  | idle
  /-- Called, without effect so far. -/
  | pending (op : ω)
  /-- Has taken effect, not returned yet. -/
  | done (result : ρ)

structure Atomic (ι σ ω ρ : Type*) where
  object : σ
  status : ι → Status ω ρ

/-- No call in progress. -/
def Atomic.init (s : σ) : Atomic ι σ ω ρ := ⟨s, fun _ => .idle⟩

/-- A move of the machine, with the event it shows. -/
inductive Move (spec : σ → ω → ρ → σ → Prop) (a : Atomic ι σ ω ρ) :
    List (Event ι ω ρ) → Atomic ι σ ω ρ → Prop
  | invoke (t : ι) (op : ω) (hidle : a.status t = .idle) :
      Move spec a [.invoke t op] ⟨a.object, Function.update a.status t (.pending op)⟩
  | commit (t : ι) (op : ω) (hpending : a.status t = .pending op) {result : ρ} {object : σ}
      (hspec : spec a.object op result object) :
      Move spec a [] ⟨object, Function.update a.status t (.done result)⟩
  | respond (t : ι) (result : ρ) (hdone : a.status t = .done result) :
      Move spec a [.respond t result] ⟨a.object, Function.update a.status t .idle⟩

/-- Any number of moves, with the events they show. -/
inductive Moves (spec : σ → ω → ρ → σ → Prop) (a : Atomic ι σ ω ρ) :
    List (Event ι ω ρ) → Atomic ι σ ω ρ → Prop
  | refl : Moves spec a [] a
  | tail {b c : Atomic ι σ ω ρ} {es fs : List (Event ι ω ρ)} (h : Moves spec a es b)
      (hmove : Move spec b fs c) : Moves spec a (es ++ fs) c

variable {spec : σ → ω → ρ → σ → Prop} {s : σ} {a b c : Atomic ι σ ω ρ}
  {es fs h : List (Event ι ω ρ)}

theorem Move.moves (hmove : Move spec a es b) : Moves spec a es b := .tail .refl hmove

theorem Moves.trans (hfirst : Moves spec a es b) (hnext : Moves spec b fs c) :
    Moves spec a (es ++ fs) c := by
  induction hnext with
  | refl => rwa [List.append_nil]
  | tail _ hmove ih =>
      rw [← List.append_assoc]
      exact ih.tail hmove

/-- An operation that takes effect and returns at once. -/
theorem Moves.commit_respond {t : ι} {op : ω} (hpending : a.status t = .pending op) {result : ρ}
    {object : σ} (hspec : spec a.object op result object) :
    Moves spec a [.respond t result] ⟨object, Function.update a.status t .idle⟩ := by
  have hcommit : Move spec a [] ⟨object, Function.update a.status t (.done result)⟩ :=
    .commit t op hpending hspec
  have hrespond : Move spec ⟨object, Function.update a.status t (.done result)⟩
      [.respond t result] _ := .respond t result (Function.update_self ..)
  rw [Function.update_idem] at hrespond
  exact hcommit.moves.tail hrespond

/-- A whole call at once. -/
theorem Moves.at_once {t : ι} (op : ω) (hidle : a.status t = .idle) {result : ρ} {object : σ}
    (hspec : spec a.object op result object) :
    Moves spec a [.invoke t op, .respond t result]
      ⟨object, Function.update a.status t .idle⟩ := by
  have hinvoke := (Move.invoke t op hidle : Move spec a _ _).moves
  have hpending : (⟨a.object, Function.update a.status t (.pending op)⟩ :
      Atomic ι σ ω ρ).status t = .pending op := Function.update_self ..
  have hrest := Moves.commit_respond hpending hspec
  rw [Function.update_idem] at hrest
  exact hinvoke.trans hrest

/-! ### Where the threads stand -/

/-- The status of a call of `op` that has had the given effect, if any, and has still to return
its result. -/
def Status.ofEffect {ε : Type*} (op : ω) (result : ε → ρ) : Option ε → Status ω ρ
  | none => .pending op
  | some effect => .done (result effect)

/-- The machine against the state of an implementation: the object is as it holds, and every
thread has a status that it shows. -/
structure Stands (holds : σ → Prop) (shows : ι → Status ω ρ → Prop) (a : Atomic ι σ ω ρ) :
    Prop where
  object : holds a.object
  status : ∀ t, shows t (a.status t)

section Stands

variable {holds holds' : σ → Prop} {shows shows' : ι → Status ω ρ → Prop} {t : ι} {op : ω}
  {result : ρ} {object : σ}

/-- A move of one thread leaves the others where they stand. -/
theorem Stands.update (h : Stands holds shows a) (hothers : ∀ u, u ≠ t → shows' u = shows u)
    (hobject : holds' object) {st : Status ω ρ} (hshows : shows' t st) :
    Stands holds' shows' ⟨object, Function.update a.status t st⟩ := by
  refine ⟨hobject, fun u => ?_⟩
  show shows' u (Function.update a.status t st u)
  by_cases hut : u = t
  · subst hut
    rw [Function.update_self]
    exact hshows
  · rw [Function.update_of_ne hut, hothers u hut]
    exact h.status u

/-- A step of a thread that the machine does not see. -/
theorem Stands.stay (h : Stands holds shows a) (hothers : ∀ u, u ≠ t → shows' u = shows u)
    (hobject : holds' a.object) (hshows : shows' t (a.status t)) :
    ∃ b, Moves spec a [] b ∧ Stands holds' shows' b := by
  have hupdate := h.update hothers hobject hshows
  rw [Function.update_eq_self] at hupdate
  exact ⟨a, .refl, hupdate⟩

theorem Stands.invoke (h : Stands holds shows a) (hothers : ∀ u, u ≠ t → shows' u = shows u)
    (hidle : a.status t = .idle) (hobject : holds' a.object) (hshows : shows' t (.pending op)) :
    ∃ b, Moves spec a [.invoke t op] b ∧ Stands holds' shows' b :=
  ⟨_, (Move.invoke t op hidle).moves, h.update hothers hobject hshows⟩

theorem Stands.commit (h : Stands holds shows a) (hothers : ∀ u, u ≠ t → shows' u = shows u)
    (hpending : a.status t = .pending op) (hspec : spec a.object op result object)
    (hobject : holds' object) (hshows : shows' t (.done result)) :
    ∃ b, Moves spec a [] b ∧ Stands holds' shows' b :=
  ⟨_, (Move.commit t op hpending hspec).moves, h.update hothers hobject hshows⟩

theorem Stands.respond (h : Stands holds shows a) (hothers : ∀ u, u ≠ t → shows' u = shows u)
    (hdone : a.status t = .done result) (hobject : holds' a.object) (hshows : shows' t .idle) :
    ∃ b, Moves spec a [.respond t result] b ∧ Stands holds' shows' b :=
  ⟨_, (Move.respond t result hdone).moves, h.update hothers hobject hshows⟩

theorem Stands.commit_respond (h : Stands holds shows a)
    (hothers : ∀ u, u ≠ t → shows' u = shows u) (hpending : a.status t = .pending op)
    (hspec : spec a.object op result object) (hobject : holds' object) (hshows : shows' t .idle) :
    ∃ b, Moves spec a [.respond t result] b ∧ Stands holds' shows' b :=
  ⟨_, .commit_respond hpending hspec, h.update hothers hobject hshows⟩

theorem Stands.at_once (h : Stands holds shows a) (hothers : ∀ u, u ≠ t → shows' u = shows u)
    (hidle : a.status t = .idle) (hspec : spec a.object op result object)
    (hobject : holds' object) (hshows : shows' t .idle) :
    ∃ b, Moves spec a [.invoke t op, .respond t result] b ∧ Stands holds' shows' b :=
  ⟨_, .at_once op hidle hspec, h.update hothers hobject hshows⟩

end Stands

/-! ### Every behaviour of the machine is linearizable -/

/-- What a thread has called and been given, against its commits. -/
def Status.Fits (ops : List ω) (results : List ρ) (called : List ω) (given : List ρ) :
    Status ω ρ → Prop
  | .idle => called = ops ∧ results = given
  | .pending op => called = ops ++ [op] ∧ results = given
  | .done result => called = ops ∧ results = given ++ [result]

theorem Status.Fits.explains {ops called : List ω} {results given : List ρ} {st : Status ω ρ}
    (hfits : st.Fits ops results called given) : ops <+: called ∧ given <+: results := by
  cases st with
  | idle => exact ⟨hfits.1 ▸ List.prefix_rfl, hfits.2 ▸ List.prefix_rfl⟩
  | pending op => exact ⟨hfits.1 ▸ List.prefix_append .., hfits.2 ▸ List.prefix_rfl⟩
  | done result => exact ⟨hfits.1 ▸ List.prefix_rfl, hfits.2 ▸ List.prefix_append ..⟩

/-- The commits behind a history and the state of the machine after it. -/
structure Accounts (spec : σ → ω → ρ → σ → Prop) (s : σ) (h : List (Event ι ω ρ))
    (cs : List (Commit ι ω ρ)) (a : Atomic ι σ ω ρ) : Prop where
  legal : Legal spec s cs a.object
  status : ∀ t, (a.status t).Fits (opsOf t cs) (resultsOf t cs) (invoked t h) (responded t h)
  prefixes : ∀ h', h' <+: h → ∃ cs', cs' <+: cs ∧ Explains h' cs'

theorem accounts_init (s : σ) : Accounts spec s ([] : List (Event ι ω ρ)) [] (.init s) where
  legal := rfl
  status _ := ⟨rfl, rfl⟩
  prefixes h' hprefix := by
    obtain rfl := List.prefix_nil.mp hprefix
    exact ⟨[], List.prefix_rfl, fun _ => List.prefix_rfl, fun _ => List.prefix_rfl⟩

variable {cs : List (Commit ι ω ρ)}

/-- An event that leaves the object alone is explained by the commits so far. -/
theorem Accounts.event (hacc : Accounts spec s h cs a) {e : Event ι ω ρ} {status : ι → Status ω ρ}
    (hstatus : ∀ t, (status t).Fits (opsOf t cs) (resultsOf t cs) (invoked t (h ++ [e]))
      (responded t (h ++ [e]))) :
    Accounts spec s (h ++ [e]) cs ⟨a.object, status⟩ := by
  refine ⟨hacc.legal, hstatus, ?_⟩
  intro h' hprefix
  rcases List.prefix_concat_iff.mp hprefix with rfl | hprefix
  · exact ⟨cs, List.prefix_rfl, fun t => (hstatus t).explains.1, fun t => (hstatus t).explains.2⟩
  · exact hacc.prefixes h' hprefix

/-- **One move.** -/
theorem Accounts.move (hacc : Accounts spec s h cs a) (hmove : Move spec a es b) :
    ∃ cs', Accounts spec s (h ++ es) cs' b := by
  cases hmove with
  | invoke t op hidle =>
      refine ⟨cs, hacc.event fun u => ?_⟩
      have hfits := hacc.status u
      rw [invoked_invoke, responded_invoke]
      by_cases htu : u = t
      · subst htu
        rw [hidle] at hfits
        rw [Function.update_self, if_pos rfl, hfits.1, hfits.2]
        exact ⟨rfl, rfl⟩
      · rw [Function.update_of_ne htu, if_neg (Ne.symm htu), List.append_nil]
        exact hfits
  | @commit t op hpending result object hspec =>
      refine ⟨cs ++ [⟨t, op, result⟩], hacc.legal.concat hspec, ?_, ?_⟩
      · intro u
        have hfits := hacc.status u
        rw [opsOf_append, resultsOf_append, List.append_nil]
        dsimp only
        by_cases htu : u = t
        · subst htu
          rw [hpending] at hfits
          rw [Function.update_self, if_pos rfl, if_pos rfl, ← hfits.2]
          exact ⟨hfits.1, rfl⟩
        · rw [Function.update_of_ne htu, if_neg (Ne.symm htu), if_neg (Ne.symm htu),
            List.append_nil, List.append_nil]
          exact hfits
      · intro h' hprefix
        rw [List.append_nil] at hprefix
        obtain ⟨cs', hcs', hexplains⟩ := hacc.prefixes h' hprefix
        exact ⟨cs', hcs'.trans (List.prefix_append ..), hexplains⟩
  | respond t result hdone =>
      refine ⟨cs, hacc.event fun u => ?_⟩
      have hfits := hacc.status u
      rw [invoked_respond, responded_respond]
      by_cases htu : u = t
      · subst htu
        rw [hdone] at hfits
        rw [Function.update_self, if_pos rfl]
        exact hfits
      · rw [Function.update_of_ne htu, if_neg (Ne.symm htu), List.append_nil]
        exact hfits

theorem Moves.accounts (hmoves : Moves spec (.init s) h a) : ∃ cs, Accounts spec s h cs a := by
  induction hmoves with
  | refl => exact ⟨[], accounts_init s⟩
  | tail _ hmove ih =>
      obtain ⟨cs, hacc⟩ := ih
      exact hacc.move hmove

theorem Moves.linearizable (hmoves : Moves spec (.init s) h a) : Linearizable spec s h := by
  obtain ⟨cs, hacc⟩ := hmoves.accounts
  exact ⟨cs, ⟨_, hacc.legal⟩, hacc.prefixes⟩

/-! ### Implementations -/

section Implementation

variable {γ α : Type*} {step : γ → α → γ} {events : γ → α → List (Event ι ω ρ)}
  {good : γ → α → Prop} {R : γ → Atomic ι σ ω ρ → Prop}

/-- What the clients see of a run. -/
def history (step : γ → α → γ) (events : γ → α → List (Event ι ω ρ)) :
    γ → List α → List (Event ι ω ρ)
  | _, [] => []
  | g, act :: acts => events g act ++ history step events (step g act) acts

theorem moves_of_simulation
    (hstep : ∀ g a act, R g a → good g act →
      ∃ b, Moves spec a (events g act) b ∧ R (step g act) b)
    {g : γ} (hrel : R g a) {acts : List α} (hgood : AllSteps step good g acts) :
    ∃ b, Moves spec a (history step events g acts) b := by
  induction acts generalizing g a with
  | nil => exact ⟨a, .refl⟩
  | cons act acts ih =>
      obtain ⟨b, hmoves, hrel'⟩ := hstep g a act hrel hgood.1
      obtain ⟨c, hrest⟩ := ih hrel' hgood.2
      exact ⟨c, hmoves.trans hrest⟩

/-- **Simulation rule.** When moves of the atomic machine match every good step, with the
events it shows, the history of every run of good steps is linearizable. -/
theorem linearizable_of_simulation
    (hstep : ∀ g a act, R g a → good g act →
      ∃ b, Moves spec a (events g act) b ∧ R (step g act) b)
    {g : γ} (hrel : R g (.init s)) {acts : List α} (hgood : AllSteps step good g acts) :
    Linearizable spec s (history step events g acts) := by
  obtain ⟨b, hmoves⟩ := moves_of_simulation hstep hrel hgood
  exact hmoves.linearizable

end Implementation

end Linear
