/-
**Runs of a step function.**

A system is a partial step function `step : State → Label → Option State`: a label names who moves
and every choice of the environment, `none` says that the step is not enabled. A run is the list of
its labels (`exec`), so that concrete runs can be evaluated and every prefix of a run is a run.
-/

import Mathlib.Tactic.Ring
import Mathlib.Data.List.Basic

namespace KernelImx.Lib

open Option

variable {State Label : Type*}

/-- The state after the labels of a run, `none` when one of its steps is not enabled. -/
def exec (step : State → Label → Option State) : State → List Label → Option State
  | state, [] => some state
  | state, label :: rest => (step state label).bind fun next => exec step next rest

/-- Every step of the run meets `good` in the state it is taken from. -/
def Along (step : State → Label → Option State) (good : State → Label → Prop) :
    State → List Label → Prop
  | _, [] => True
  | state, label :: rest =>
    good state label ∧ ∀ next, step state label = some next → Along step good next rest

/-- Whether the steps of a run meet a condition can be decided by following the run. -/
instance decidableAlong (step : State → Label → Option State) (good : State → Label → Prop)
    [∀ state label, Decidable (good state label)] :
    ∀ state labels, Decidable (Along step good state labels)
  | _, [] => isTrue trivial
  | state, label :: rest =>
    match taken : step state label with
    | none => decidable_of_iff (good state label) (by simp [Along, taken])
    | some next =>
      have := decidableAlong step good next rest
      decidable_of_iff (good state label ∧ Along step good next rest) (by simp [Along, taken])

variable {step : State → Label → Option State} {good : State → Label → Prop} {state last : State}
  {label : Label} {labels rest : List Label}

@[simp] theorem exec_nil (state : State) : exec step state [] = some state := rfl

theorem exec_cons : exec step state (label :: rest) = some last ↔
      ∃ next, step state label = some next ∧ exec step next rest = some last := by
  simp [exec, bind_eq_some_iff]

/-- A run splits at every point. -/
theorem exec_append (front back : List Label) :
    exec step state (front ++ back) = some last ↔
      ∃ middle, exec step state front = some middle ∧ exec step middle back = some last := by
  induction front generalizing state with
  | nil => simp
  | cons label rest ih =>
    rw [List.cons_append, exec_cons]
    constructor
    · rintro ⟨next, taken, run⟩
      obtain ⟨middle, first, second⟩ := ih.mp run
      exact ⟨middle, exec_cons.mpr ⟨next, taken, first⟩, second⟩
    · rintro ⟨middle, first, second⟩
      obtain ⟨next, taken, run⟩ := exec_cons.mp first
      exact ⟨next, taken, ih.mpr ⟨middle, run, second⟩⟩

variable (inv : State → Prop)

/-- **The invariant rule under a condition on the steps.** -/
theorem exec_invariant_along
    (preserved : ∀ state label next, inv state → good state label → step state label = some next → inv next)
    (holds : inv state) (along : Along step good state labels)
    (run : exec step state labels = some last) : inv last := by
  induction labels generalizing state with
  | nil =>
    cases run
    exact holds
  | cons label rest ih =>
    obtain ⟨next, taken, run⟩ := exec_cons.mp run
    exact ih (preserved state label next holds along.1 taken) (along.2 next taken) run

/-- **The rule for systems whose good steps are always enabled.** -/
theorem exec_defined_along
    (enabled : ∀ state label, inv state → good state label → ∃ next, step state label = some next ∧ inv next)
    (holds : inv state) (along : Along step good state labels) :
    ∃ last, exec step state labels = some last ∧ inv last := by
  induction labels generalizing state with
  | nil => exact ⟨state, rfl, holds⟩
  | cons label rest ih =>
    obtain ⟨next, taken, holds'⟩ := enabled state label holds along.1
    obtain ⟨last, run, holds''⟩ := ih holds' (along.2 next taken)
    exact ⟨last, exec_cons.mpr ⟨next, taken, run⟩, holds''⟩

/-- **The rule for systems that stop at steps of one kind only.** -/
theorem exec_or_stuck (stuck : State → Label → Prop)
    (enabled : ∀ state label, inv state →
      (∃ next, step state label = some next ∧ inv next) ∨ stuck state label)
    (labels : List Label) (holds : inv state) :
    (∃ last, exec step state labels = some last ∧ inv last) ∨
      ∃ front label back middle, labels = front ++ label :: back ∧
        exec step state front = some middle ∧ inv middle ∧ stuck middle label := by
  induction labels generalizing state with
  | nil => exact .inl ⟨state, rfl, holds⟩
  | cons label rest ih =>
    rcases enabled state label holds with ⟨next, taken, holds'⟩ | stops
    · rcases ih holds' with ⟨last, run, holds''⟩ | ⟨front, other, back, middle, rfl, run, last⟩
      · exact .inl ⟨last, exec_cons.mpr ⟨next, taken, run⟩, holds''⟩
      · exact .inr ⟨label :: front, other, back, middle, rfl,
          exec_cons.mpr ⟨next, taken, run⟩, last⟩
    · exact .inr ⟨[], label, rest, state, rfl, rfl, holds, stops⟩

/-- **The rule for an exact condition**: a step keeps the property exactly when it meets the
condition, and what is lost is not regained. -/
theorem along_iff_exec (inv safe : State → Prop)
    (preserved : ∀ state label next, inv state → step state label = some next → inv next)
    (lasting : ∀ state label next, inv state → step state label = some next → safe next → safe state)
    (exact_step : ∀ state label next, inv state → safe state → step state label = some next →
      (good state label ↔ safe next))
    (holds : inv state) (ok : safe state) (run : exec step state labels = some last) :
    Along step good state labels ↔ safe last := by
  have lasting_run : ∀ {labels state}, inv state → exec step state labels = some last →
      safe last → safe state := by
    intro labels
    induction labels with
    | nil =>
      intro state _ run ok
      cases run
      exact ok
    | cons label rest ih =>
      intro state holds run ok
      obtain ⟨next, taken, run⟩ := exec_cons.mp run
      exact lasting state label next holds taken (ih (preserved _ _ _ holds taken) run ok)
  induction labels generalizing state with
  | nil =>
    cases run
    exact iff_of_true trivial ok
  | cons label rest ih =>
    obtain ⟨next, taken, run⟩ := exec_cons.mp run
    have holds' := preserved _ _ _ holds taken
    have here := exact_step _ _ _ holds ok taken
    constructor
    · intro along
      exact (ih holds' (here.mp along.1) run).mp (along.2 next taken)
    intro ok'
    have safe_next := lasting_run holds' run ok'
    refine ⟨here.mpr safe_next, fun next' taken' => ?_⟩
    obtain rfl : next = next' := some.inj (taken.symm.trans taken')
    exact (ih holds' safe_next run).mpr ok'

/-- Every step of the run is enabled and is `safe`. -/
def Throughout (step : State → Label → Option State) (safe : State → Label → State → Prop) :
    State → List Label → Prop
  | _, [] => True
  | state, label :: rest =>
    ∃ next, step state label = some next ∧ safe state label next ∧ Throughout step safe next rest

/-- **The rule for a condition that is exact at every step**, when what a step breaks may be whole
again later. -/
theorem along_iff_throughout {safe : State → Label → State → Prop}
    (forward : ∀ state label, inv state → good state label →
      ∃ next, step state label = some next ∧ safe state label next ∧ inv next)
    (backward : ∀ state label next, inv state → step state label = some next →
      safe state label next → good state label)
    (holds : inv state) : Along step good state labels ↔ Throughout step safe state labels := by
  induction labels generalizing state with
  | nil => exact Iff.rfl
  | cons label rest ih =>
    constructor
    · intro along
      obtain ⟨next, taken, ok, holds'⟩ := forward state label holds along.1
      exact ⟨next, taken, ok, (ih holds').mp (along.2 next taken)⟩
    rintro ⟨next, taken, ok, through⟩
    have here := backward state label next holds taken ok
    obtain ⟨next', taken', -, holds'⟩ := forward state label holds here
    obtain rfl : next = next' := some.inj (taken.symm.trans taken')
    refine ⟨here, fun other taken'' => ?_⟩
    obtain rfl : next = other := some.inj (taken.symm.trans taken'')
    exact (ih holds').mpr through

theorem along_true (state : State) (labels : List Label) :
    Along step (fun _ _ => True) state labels := by
  induction labels generalizing state with
  | nil => trivial
  | cons label rest ih => exact ⟨trivial, fun next _ => ih next⟩

/-- **The invariant rule.** -/
theorem exec_invariant
    (preserved : ∀ state label next, inv state → step state label = some next → inv next)
    (holds : inv state) (run : exec step state labels = some last) : inv last :=
  exec_invariant_along inv (fun state label next holds _ => preserved state label next holds)
    holds (along_true state labels) run

end KernelImx.Lib
