import Mathlib.Data.List.Basic
import Mathlib.Logic.Relation

/-!
# Runs of partial step functions

A concurrent program is modelled here as a step function that is undefined
where an action is not enabled.  This file holds the induction rules for whole
runs: an invariant from its step lemma, a property that holds along a run
whose steps all meet a condition, and the converse reading of such a property.
Nothing in it refers to the modelled program.
-/

namespace ArmsTiering.Transition

variable {State Action : Type*}

/-- Execute a list of actions.  The run is undefined as soon as one action is
not enabled. -/
def run (step : State → Action → Option State) : State → List Action → Option State
  | state, [] => some state
  | state, action :: actions =>
      (step state action).bind fun next => run step next actions

/-- Every state visited by the run satisfies `P`, the first one included. -/
def Along (step : State → Action → Option State) (P : State → Prop) :
    State → List Action → Prop
  | state, [] => P state
  | state, action :: actions =>
      P state ∧ ∀ next, step state action = some next → Along step P next actions

/-- Every step that the run takes meets the condition `C`. -/
def Meets (step : State → Action → Option State) (C : State → Action → Prop) :
    State → List Action → Prop
  | _, [] => True
  | state, action :: actions =>
      ∀ next, step state action = some next →
        C state action ∧ Meets step C next actions

/-- States that some run reaches from an initial state. -/
def Reachable (init : State → Prop) (step : State → Action → Option State)
    (state : State) : Prop :=
  ∃ start actions, init start ∧ run step start actions = some state

variable {step : State → Action → Option State}

@[simp]
theorem run_nil (state : State) : run step state [] = some state := rfl

theorem run_cons_eq_some {state final : State} {action : Action}
    {actions : List Action} :
    run step state (action :: actions) = some final ↔
      ∃ next, step state action = some next ∧ run step next actions = some final := by
  simp [run, Option.bind_eq_some_iff]

theorem run_append {state : State} {first second : List Action} :
    run step state (first ++ second) =
      (run step state first).bind fun middle => run step middle second := by
  induction first generalizing state with
  | nil => rfl
  | cons action actions ih =>
      simp only [List.cons_append, run]
      cases step state action with
      | none => rfl
      | some next => simpa using ih

/-- Run lemma: what every step preserves, every run preserves. -/
theorem run_preserves (Inv : State → Prop)
    (hstep : ∀ state action next, Inv state →
      step state action = some next → Inv next)
    {state final : State} {actions : List Action}
    (hinv : Inv state) (hrun : run step state actions = some final) :
    Inv final := by
  induction actions generalizing state with
  | nil =>
      obtain rfl : state = final := by simpa using hrun
      exact hinv
  | cons action actions ih =>
      obtain ⟨next, hnext, hrest⟩ := run_cons_eq_some.mp hrun
      exact ih (hstep state action next hinv hnext) hrest

theorem Reachable.invariant {init : State → Prop} (Inv : State → Prop)
    (hinit : ∀ state, init state → Inv state)
    (hstep : ∀ state action next, Inv state →
      step state action = some next → Inv next)
    {state : State} (hreach : Reachable init step state) : Inv state := by
  obtain ⟨start, actions, hstart, hrun⟩ := hreach
  exact run_preserves Inv hstep (hinit start hstart) hrun

theorem Reachable.start {init : State → Prop} {state : State} (hstart : init state) :
    Reachable init step state :=
  ⟨state, [], hstart, rfl⟩

theorem Reachable.tail {init : State → Prop} {state next : State} {action : Action}
    (hreach : Reachable init step state) (hstep : step state action = some next) :
    Reachable init step next := by
  obtain ⟨start, actions, hstart, hrun⟩ := hreach
  refine ⟨start, actions ++ [action], hstart, ?_⟩
  rw [run_append, hrun]
  exact run_cons_eq_some.mpr ⟨next, hstep, rfl⟩

/-- A property that follows from an invariant holds along every run whose
steps meet the condition under which the invariant is preserved. -/
theorem along_of_meets (Inv : State → Prop) {P : State → Prop}
    {C : State → Action → Prop}
    (himplies : ∀ state, Inv state → P state)
    (hstep : ∀ state action next, Inv state → C state action →
      step state action = some next → Inv next)
    {state : State} {actions : List Action} (hinv : Inv state)
    (hmeets : Meets step C state actions) : Along step P state actions := by
  induction actions generalizing state with
  | nil => exact himplies state hinv
  | cons action actions ih =>
      refine ⟨himplies state hinv, fun next hnext => ?_⟩
      obtain ⟨hcond, hrest⟩ := hmeets next hnext
      exact ih (hstep state action next hinv hcond hnext) hrest

/-- A condition that the actions meet in every state. -/
theorem meets_of_forall {C : State → Action → Prop} {state : State} {actions : List Action}
    (hforall : ∀ action ∈ actions, ∀ state, C state action) : Meets step C state actions := by
  induction actions generalizing state with
  | nil => trivial
  | cons action actions ih =>
      intro next _
      exact ⟨hforall action List.mem_cons_self state,
        ih fun other hother => hforall other (List.mem_cons_of_mem _ hother)⟩

/-- The condition is checked along the one run that the actions have. -/
theorem Meets.cons {C : State → Action → Prop} {state next : State} {action : Action}
    {actions : List Action} (hstep : step state action = some next) (hcond : C state action)
    (hrest : Meets step C next actions) : Meets step C state (action :: actions) := by
  intro other hother
  obtain rfl := Option.some.inj (hstep.symm.trans hother)
  exact ⟨hcond, hrest⟩

/-- A condition that can be checked in each state can be checked along a run. -/
instance decidableMeets (C : State → Action → Prop) [∀ state action, Decidable (C state action)] :
    (state : State) → (actions : List Action) → Decidable (Meets step C state actions)
  | _, [] => isTrue trivial
  | state, action :: actions =>
      match hstep : step state action with
      | none => isTrue fun next hnext => by
          rw [hstep] at hnext
          cases hnext
      | some next =>
          match decidableMeets C next actions with
          | isTrue hrest =>
              if hcond : C state action then isTrue (Meets.cons hstep hcond hrest)
              else isFalse fun hmeets => hcond (hmeets next hstep).1
          | isFalse hrest => isFalse fun hmeets => hrest (hmeets next hstep).2

theorem Along.head {P : State → Prop} {state : State} {actions : List Action}
    (halong : Along step P state actions) : P state := by
  cases actions with
  | nil => exact halong
  | cons action actions => exact halong.1

theorem Along.mono {P Q : State → Prop} (himplies : ∀ state, P state → Q state)
    {state : State} {actions : List Action}
    (halong : Along step P state actions) : Along step Q state actions := by
  induction actions generalizing state with
  | nil => exact himplies state halong
  | cons action actions ih =>
      exact ⟨himplies state halong.1, fun next hnext => ih (halong.2 next hnext)⟩

/-- A property that follows from an invariant of every step holds along every
run. -/
theorem along_of_step (Inv : State → Prop) {P : State → Prop}
    (himplies : ∀ state, Inv state → P state)
    (hstep : ∀ state action next, Inv state →
      step state action = some next → Inv next)
    {state : State} {actions : List Action} (hinv : Inv state) :
    Along step P state actions := by
  induction actions generalizing state with
  | nil => exact himplies state hinv
  | cons action actions ih =>
      exact ⟨himplies state hinv, fun next hnext =>
        ih (hstep state action next hinv hnext)⟩

/-- If each step out of an invariant state keeps `P` exactly when it meets
`C`, then `P` holds along a run exactly when all its steps meet `C`. -/
theorem along_iff_meets (Inv : State → Prop) {P : State → Prop}
    {C : State → Action → Prop}
    (himplies : ∀ state, Inv state → P state)
    (hstep : ∀ state action next, Inv state → C state action →
      step state action = some next → Inv next)
    (hneeded : ∀ state action next, Inv state →
      step state action = some next → P next → C state action)
    {state : State} {actions : List Action} (hinv : Inv state) :
    Along step P state actions ↔ Meets step C state actions := by
  refine ⟨fun halong => ?_, along_of_meets Inv himplies hstep hinv⟩
  induction actions generalizing state with
  | nil => trivial
  | cons action actions ih =>
      intro next hnext
      have hrest := halong.2 next hnext
      have hcond := hneeded state action next hinv hnext hrest.head
      exact ⟨hcond, ih (hstep state action next hinv hcond hnext) hrest⟩

/-- Every reachable state of a run that meets a condition satisfies what holds
along the run. -/
theorem Along.of_run {P : State → Prop} {state final : State}
    {actions : List Action} (halong : Along step P state actions)
    (hrun : run step state actions = some final) : P final := by
  induction actions generalizing state with
  | nil =>
      obtain rfl : state = final := by simpa using hrun
      exact halong
  | cons action actions ih =>
      obtain ⟨next, hnext, hrest⟩ := run_cons_eq_some.mp hrun
      exact ih (halong.2 next hnext) hrest

/-- A measure that the actions of one thread decrease and all others leave
bounds how many of them a run can have. -/
theorem run_countP_le (Inv : State → Prop) (measure : State → ℕ) (own : Action → Bool)
    (hstep : ∀ state action next, Inv state →
      step state action = some next → Inv next)
    (hown : ∀ state action next, Inv state → step state action = some next →
      own action = true → measure next < measure state)
    (hother : ∀ state action next, Inv state → step state action = some next →
      own action = false → measure next ≤ measure state)
    {state final : State} {actions : List Action} (hinv : Inv state)
    (hrun : run step state actions = some final) :
    actions.countP own + measure final ≤ measure state := by
  induction actions generalizing state with
  | nil =>
      obtain rfl : state = final := by simpa using hrun
      simp
  | cons action actions ih =>
      obtain ⟨next, hnext, hrest⟩ := run_cons_eq_some.mp hrun
      have hbound := ih (hstep state action next hinv hnext) hrest
      rw [List.countP_cons]
      cases haction : own action with
      | true =>
          have hlt := hown state action next hinv hnext haction
          rw [if_pos rfl]
          omega
      | false =>
          have hle := hother state action next hinv hnext haction
          rw [if_neg Bool.false_ne_true]
          omega

end ArmsTiering.Transition
