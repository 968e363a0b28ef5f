import ArmsTiering.Core.Transition

/-!
# Forward simulation

Some steps of a program are visible to its user, as events; a specification is
a partial step function on events.  If a relation between the states of both is
kept by every step, with the specification idle in a silent step, then the
specification accepts the events of every run.
-/

namespace ArmsTiering.Simulation

open Transition

variable {State Action Event Spec : Type*}

/-- The events of a run, up to the first action that is not enabled. -/
def trace (step : State → Action → Option State) (observe : State → Action → Option Event) :
    State → List Action → List Event
  | _, [] => []
  | state, action :: actions =>
      match step state action with
      | some next => (observe state action).toList ++ trace step observe next actions
      | none => []

/-- The relation is kept, and the specification follows what is visible. -/
structure ForwardSimulation (step : State → Action → Option State)
    (observe : State → Action → Option Event) (specStep : Spec → Event → Option Spec)
    (R : State → Spec → Prop) : Prop where
  silent : ∀ state action next spec, R state spec → step state action = some next →
    observe state action = none → R next spec
  visible : ∀ state action next spec event, R state spec → step state action = some next →
    observe state action = some event → ∃ specNext, specStep spec event = some specNext ∧
      R next specNext

variable {step : State → Action → Option State} {observe : State → Action → Option Event}
  {specStep : Spec → Event → Option Spec} {R : State → Spec → Prop}

theorem run_toList_append {spec specNext : Spec} {event : Event} {events : List Event}
    (hstep : specStep spec event = some specNext) :
    run specStep spec ((some event).toList ++ events) = run specStep specNext events := by
  simp [run, hstep]

/-- Run lemma: the specification accepts the trace, and where the run ends the
relation holds. -/
theorem ForwardSimulation.accepts (hsim : ForwardSimulation step observe specStep R)
    {state : State} {spec : Spec} (hrel : R state spec) (actions : List Action) :
    ∃ specFinal, run specStep spec (trace step observe state actions) = some specFinal ∧
      ∀ final, run step state actions = some final → R final specFinal := by
  induction actions generalizing state spec with
  | nil =>
      refine ⟨spec, rfl, fun final hrun => ?_⟩
      obtain rfl : state = final := by simpa using hrun
      exact hrel
  | cons action actions ih =>
      cases hnext : step state action with
      | none =>
          refine ⟨spec, by simp [trace, hnext], fun final hrun => ?_⟩
          simp [run, hnext] at hrun
      | some next =>
          have hrest : ∀ final, run step state (action :: actions) = some final →
              run step next actions = some final := by
            intro final hrun
            simpa [run, hnext] using hrun
          cases hobserve : observe state action with
          | none =>
              obtain ⟨specFinal, hspec, hfinal⟩ :=
                ih (hsim.silent state action next spec hrel hnext hobserve)
              refine ⟨specFinal, ?_, fun final hrun => hfinal final (hrest final hrun)⟩
              simpa [trace, hnext, hobserve] using hspec
          | some event =>
              obtain ⟨specNext, hevent, hrelNext⟩ :=
                hsim.visible state action next spec event hrel hnext hobserve
              obtain ⟨specFinal, hspec, hfinal⟩ := ih hrelNext
              refine ⟨specFinal, ?_, fun final hrun => hfinal final (hrest final hrun)⟩
              simp only [trace, hnext, hobserve]
              rw [run_toList_append hevent]
              exact hspec

end ArmsTiering.Simulation
