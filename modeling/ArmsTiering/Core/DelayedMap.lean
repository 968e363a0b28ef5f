import Mathlib.Logic.Function.Basic
import Mathlib.Data.List.Basic

/-!
# A map that lags behind by a queue of edits

One party edits a map and queues each edit; another applies the queued edits,
oldest first, to a copy of its own.  An edit fits a map when an insertion finds
its key absent and a deletion finds the value it deletes.
-/

namespace ArmsTiering.DelayedMap

variable {Key Value : Type*} [DecidableEq Key]

structure Edit (Key Value : Type*) where
  key : Key
  value : Value
  deletes : Bool

def apply (map : Key → Option Value) (edit : Edit Key Value) : Key → Option Value :=
  Function.update map edit.key (if edit.deletes then none else some edit.value)

def applyAll (map : Key → Option Value) (edits : List (Edit Key Value)) : Key → Option Value :=
  edits.foldl apply map

omit [DecidableEq Key] in
def Fits (map : Key → Option Value) (edit : Edit Key Value) : Prop :=
  map edit.key = if edit.deletes then some edit.value else none

/-- Each edit fits the map that the edits before it leave. -/
def AllFit : (Key → Option Value) → List (Edit Key Value) → Prop
  | _, [] => True
  | map, edit :: rest => Fits map edit ∧ AllFit (apply map edit) rest

theorem applyAll_append (map : Key → Option Value) (first second : List (Edit Key Value)) :
    applyAll map (first ++ second) = applyAll (applyAll map first) second := by
  simp [applyAll]

theorem applyAll_push (map : Key → Option Value) (edits : List (Edit Key Value))
    (edit : Edit Key Value) :
    applyAll map (edits ++ [edit]) = apply (applyAll map edits) edit := by
  rw [applyAll_append]
  rfl

theorem AllFit.push {map : Key → Option Value} {edits : List (Edit Key Value)}
    {edit : Edit Key Value} (hfit : AllFit map edits) (hnew : Fits (applyAll map edits) edit) :
    AllFit map (edits ++ [edit]) := by
  induction edits generalizing map with
  | nil => exact ⟨hnew, trivial⟩
  | cons head rest ih => exact ⟨hfit.1, ih hfit.2 hnew⟩

end ArmsTiering.DelayedMap
