import Mathlib.Tactic.Common

set_option autoImplicit false

/-! # Transition systems

A system is given by its initial states and its step relation. `Reachable.invariant` is the rule by
which all safety results are proved: what holds initially and is kept by every step holds of every
reachable state.

For a machine given by a step function on events, `AllSteps` says that something holds of every step
of a run. `AllSteps.of_inv` and `allSteps_iff` are the rules for results about runs that go well under
a condition, and exactly under a condition. -/

/-- A transition system on the states `σ`. -/
structure Transition (σ : Type) where
  init : σ → Prop
  step : σ → σ → Prop

namespace Transition

variable {σ : Type} {T : Transition σ}

inductive Reachable (T : Transition σ) : σ → Prop where
  | init {s : σ} (h : T.init s) : Reachable T s
  | step {s t : σ} (hs : Reachable T s) (h : T.step s t) : Reachable T t

/-- **The invariant rule.** A step may use that the state it starts from is reachable. -/
theorem Reachable.invariant {P : σ → Prop} (hinit : ∀ s, T.init s → P s)
    (hstep : ∀ s t, Reachable T s → P s → T.step s t → P t) {s : σ} (hs : Reachable T s) : P s := by
  induction hs with
  | init h => exact hinit _ h
  | step hr h ih => exact hstep _ _ hr ih h

end Transition

/-! ## Runs of a machine -/

section Machine

variable {σ ε : Type} {step : σ → ε → σ}

/-- `P` holds of every step that the machine takes on the events `es` from the state `s` on. -/
def AllSteps (step : σ → ε → σ) (P : σ → ε → Prop) (s : σ) : List ε → Prop
  | [] => True
  | e :: es => P s e ∧ AllSteps step P (step s e) es

instance AllSteps.decidable (P : σ → ε → Prop) [∀ s e, Decidable (P s e)] (s : σ) (es : List ε) :
    Decidable (AllSteps step P s es) :=
  match es with
  | [] => isTrue trivial
  | e :: es =>
    have := AllSteps.decidable P (step s e) es
    inferInstanceAs (Decidable (_ ∧ _))

/-- **The rule for runs.** What every step from a state with the invariant has, if `Q` holds of it
    and keeps the invariant, every step of a run has. -/
theorem AllSteps.of_inv (I : σ → Prop) {P Q : σ → ε → Prop}
    (hstep : ∀ s e, I s → Q s e → P s e ∧ I (step s e)) {s : σ} (hs : I s) {es : List ε}
    (h : AllSteps step Q s es) : AllSteps step P s es := by
  induction es generalizing s with
  | nil => trivial
  | cons e es ih =>
    obtain ⟨hp, hi⟩ := hstep s e hs h.1
    exact ⟨hp, ih hi h.2⟩

theorem AllSteps.foldl_inv (I : σ → Prop) {Q : σ → ε → Prop}
    (hstep : ∀ s e, I s → Q s e → I (step s e)) {s : σ} (hs : I s) {es : List ε}
    (h : AllSteps step Q s es) : I (es.foldl step s) := by
  induction es generalizing s with
  | nil => exact hs
  | cons e es ih => exact ih (hstep s e hs h.1) h.2

/-- **The rule for exact conditions.** If `P` and `Q` agree on every step from a state with the
    invariant, and steps with `Q` keep the invariant, they agree on whole runs. -/
theorem allSteps_iff (I : σ → Prop) {P Q : σ → ε → Prop}
    (hiff : ∀ s e, I s → (P s e ↔ Q s e)) (hinv : ∀ s e, I s → Q s e → I (step s e))
    {s : σ} (hs : I s) (es : List ε) : AllSteps step P s es ↔ AllSteps step Q s es :=
  ⟨fun h => h.of_inv I (fun s e hi hp =>
      ⟨(hiff s e hi).mp hp, hinv s e hi ((hiff s e hi).mp hp)⟩) hs,
    fun h => h.of_inv I (fun s e hi hq => ⟨(hiff s e hi).mpr hq, hinv s e hi hq⟩) hs⟩

end Machine
