import ArmsTiering.Core.Simulation
import ArmsTiering.Machine.Copying

/-!
# Tiered memory refines flat memory

What the application sees of a run: the pages that appear and disappear, and
the bytes that it reads and writes.  A memory without tiers, one page of bytes
at each address, accepts the same events.
-/

namespace ArmsTiering

open Counting

inductive MemoryEvent
  /-- a page of zeros appears -/
  | fault (va : Va)
  | remove (va : Va)
  | read (va : Va) (offset : ℕ) (value : UInt8)
  | write (va : Va) (offset : ℕ) (byte : UInt8)

abbrev FlatMemory := Va → Option Contents

/-- A read of another value than the stored one is not accepted. -/
def flatStep (flat : FlatMemory) : MemoryEvent → Option FlatMemory
  | .fault va =>
      match flat va with
      | none => some (Function.update flat va (some fun _ => 0))
      | some _ => none
  | .remove va =>
      match flat va with
      | none => none
      | some _ => some (Function.update flat va none)
  | .read va offset value =>
      match flat va with
      | none => none
      | some contents => if contents offset = value then some flat else none
  | .write va offset byte =>
      match flat va with
      | none => none
      | some contents =>
          some (Function.update flat va (some (Function.update contents offset byte)))

/-- What the application sees of a step. -/
def observe (s : Machine) : TieredAction → Option MemoryEvent
  | .fault va => some (.fault va)
  | .remove va => some (.remove va)
  | .other (.load va offset) =>
      (s.mapping va).map fun frame => .read va offset (s.mem frame offset)
  | .other (.store va offset byte) => some (.write va offset byte)
  | .other _ => none

namespace Machine

/-- The contents of the tracked pages, in whatever frames they are. -/
def contents (s : Machine) : FlatMemory :=
  fun va => (s.pages va).map fun p => s.mem (s.frameOf p)

structure Refines (s : Machine) (flat : FlatMemory) : Prop where
  tiered : s.TieredInv
  copying : s.Copying
  contents : s.contents = flat

theorem contents_eq {s : Machine} {va : Va} {p : PageId} (hpages : s.pages va = some p) :
    s.contents va = some (s.mem (s.frameOf p)) := by
  simp [Machine.contents, hpages]

/-- Tracked pages have different frames. -/
theorem MachineInv.frameOf_ne_of_tracked {s : Machine} (hinv : s.MachineInv) {va other : Va}
    {p q : PageId} (hp : s.pages va = some p) (hq : s.pages other = some q) (hne : va ≠ other) :
    s.frameOf p ≠ s.frameOf q := by
  obtain ⟨hlive, hkey⟩ := hinv.live_of_tracked hp
  obtain ⟨hotherLive, hotherKey⟩ := hinv.live_of_tracked hq
  intro hframe
  have hsame := hinv.frameOf_injective (hinv.tiers.no_window_of_present hlive.1)
    (hinv.tiers.no_window_of_present hotherLive.1) hframe
  rw [← hkey, hsame, hotherKey] at hne
  exact hne rfl

/-! ## Faults and removals -/

theorem FaultSpec.contents {s t : Machine} {va : Va} {list : FreeList} {p : PageId}
    (hspec : FaultSpec s va list p t) (hinv : s.MachineInv) :
    t.contents = Function.update s.contents va (some fun _ => 0) := by
  have hframe : ∀ q, t.frameOf q = s.frameOf q := by
    intro q
    simp only [frameOf, hspec.page, Function.update_apply]
    split <;> simp_all
  funext v
  by_cases hv : v = va
  · subst hv
    rw [Function.update_self]
    simp [Machine.contents, hspec.pages, hspec.mem, hframe]
  · rw [Function.update_of_ne hv]
    simp only [Machine.contents, hspec.pages, Function.update_of_ne hv]
    refine Option.map_congr fun q hq => ?_
    have hpresent := (hinv.live_of_tracked hq).1.1
    have hne := hinv.frameOf_ne_of_free hpresent (List.mem_of_mem_head? hspec.head)
    rw [hframe, hspec.mem, Function.update_of_ne hne.symm]

theorem FaultSpec.untracked {s t : Machine} {va : Va} {list : FreeList} {p : PageId}
    (hspec : FaultSpec s va list p t) (hinv : s.MachineInv) : s.contents va = none := by
  cases hpages : s.pages va with
  | none => simp [Machine.contents, hpages]
  | some q =>
      have hmapping := hinv.mapping_of_tracked hpages
      rw [hspec.arises.2.2.1] at hmapping
      cases hmapping

theorem RemoveSpec.contents {s t : Machine} {va : Va} {p : PageId}
    (hspec : RemoveSpec s va p t) : t.contents = Function.update s.contents va none := by
  have hframe : ∀ q, t.frameOf q = s.frameOf q := by
    intro q
    simp only [frameOf, hspec.page, Function.update_apply]
    split <;> simp_all
  funext v
  by_cases hv : v = va
  · simp [Machine.contents, hspec.pages, hv]
  · simp [Machine.contents, hspec.pages, hspec.mem, hframe, hv]

/-! ## The application and the workers -/

theorem contents_store {s : Machine} (hinv : s.MachineInv) {va : Va} {offset : ℕ} {byte : UInt8}
    {p : PageId} (hpages : s.pages va = some p) :
    (s.effect (.store va offset byte)).contents =
      Function.update s.contents va
        (some (Function.update (s.mem (s.frameOf p)) offset byte)) := by
  have hmem : (s.effect (.store va offset byte)).mem =
      Function.update s.mem (s.frameOf p) (Function.update (s.mem (s.frameOf p)) offset byte) := by
    simp [effect, writeByte, hinv.mapping_of_tracked hpages]
  funext v
  have hcontents : (s.effect (.store va offset byte)).contents v =
      (s.pages v).map fun q => (s.effect (.store va offset byte)).mem (s.frameOf q) := rfl
  rw [hcontents, hmem]
  by_cases hv : v = va
  · subst hv
    simp [hpages]
  · rw [Function.update_of_ne hv]
    refine Option.map_congr fun q hq => ?_
    rw [Function.update_of_ne (hinv.frameOf_ne_of_tracked hq hpages hv)]

/-- No other step changes what is in the tracked pages. -/
theorem Copying.contents_effect {s : Machine} {action : MachineAction} (hinv : s.MachineInv)
    (hcopying : s.Copying) (henabled : s.Enabled action) (hclient : action.byClient = false)
    (hstore : ∀ va offset byte, action ≠ .store va offset byte) :
    (s.effect action).contents = s.contents := by
  have hpages : (s.effect action).pages = s.pages :=
    pages_effect (by rintro c q rfl; cases hclient) (by rintro c va q rfl; cases hclient)
  funext va
  simp only [Machine.contents, hpages]
  refine Option.map_congr fun p hp => ?_
  have hpresent := (hinv.live_of_tracked hp).1.1
  cases action with
  | copy i half req oldOffset =>
      have hunmoved : (s.stage i).moved = false := by rw [henabled.2]; rfl
      have hne := hinv.newFrame_ne henabled.1 hunmoved hpresent
      exact mem_effect fun hframe => hne (Option.some.inj hframe)
  | remap i half req oldOffset =>
      by_cases hpage : half.page req = p
      · subst hpage
        have hframe : (s.effect (.remap i half req oldOffset)).frameOf (half.page req) =
            s.newFrame half req := by
          simp [effect, setStage, setPage, mapFrame, frameOf, newFrame]
        rw [hframe]
        exact hcopying.copied i half req oldOffset henabled
      · rw [frameOf_effect (by simpa [MachineAction.reframes] using hpage)]
        rfl
  | give i half req oldOffset =>
      have hne : req.freePage ≠ p := by
        rintro rfl
        rw [(hinv.newFrame_eq henabled.1).2] at hpresent
        cases hpresent
      rw [frameOf_effect (by simpa [MachineAction.reframes] using hne)]
      rfl
  | store va offset byte => exact absurd rfl (hstore va offset byte)
  | zeroAndMap => cases hclient
  | _ =>
      rw [frameOf_effect (by simp [MachineAction.reframes])]
      rfl

/-! ## The simulation -/

theorem Refines.fault {s next : Machine} {flat : FlatMemory} {va : Va} (hrefines : s.Refines flat)
    (hstep : s.faultStep va = some next) :
    ∃ flatNext, flatStep flat (.fault va) = some flatNext ∧ next.Refines flatNext := by
  obtain ⟨htiered, hcopying, rfl⟩ := hrefines
  obtain ⟨list, p, hspec, hrun⟩ := faultStep_spec htiered.machine htiered.idle hstep
  have hspecStep : flatStep s.contents (.fault va) =
      some (Function.update s.contents va (some fun _ => 0)) := by
    simp only [flatStep, hspec.untracked htiered.machine]
  refine ⟨_, hspecStep, ?_⟩
  exact
    { tiered := htiered.fault_step hstep
      copying := hcopying.client_block htiered.blockInv
        (by simp [faultActions, MachineAction.byClient]) hrun
      contents := hspec.contents htiered.machine }

theorem Refines.remove {s next : Machine} {flat : FlatMemory} {va : Va} (hrefines : s.Refines flat)
    (hstep : s.removeStep va = some next) :
    ∃ flatNext, flatStep flat (.remove va) = some flatNext ∧ next.Refines flatNext := by
  obtain ⟨htiered, hcopying, rfl⟩ := hrefines
  obtain ⟨p, hspec, hrun⟩ := removeStep_spec htiered.machine htiered.idle hstep
  have hspecStep : flatStep s.contents (.remove va) =
      some (Function.update s.contents va none) := by
    simp only [flatStep, contents_eq hspec.found]
  refine ⟨_, hspecStep, ?_⟩
  exact
    { tiered := htiered.remove_step hstep
      copying := hcopying.client_block htiered.blockInv
        (by simp [removeActions, MachineAction.byClient]) hrun
      contents := hspec.contents }

theorem Refines.store {s next : Machine} {flat : FlatMemory} {va : Va} {offset : ℕ} {byte : UInt8}
    (hrefines : s.Refines flat) (hstep : machineStep s (.store va offset byte) = some next) :
    ∃ flatNext, flatStep flat (.write va offset byte) = some flatNext ∧
      next.Refines flatNext := by
  obtain ⟨htiered, hcopying, rfl⟩ := hrefines
  have htieredNext := htiered.machine_step rfl hstep
  have hcopyingNext := hcopying.step htiered.machine hstep
  obtain ⟨-, henabled, ⟨hfails, -⟩ | ⟨-, pipe, -, rfl⟩⟩ := step_cases hstep
  · exact absurd trivial hfails
  · obtain ⟨p, hpages⟩ := Option.isSome_iff_exists.mp henabled.1
    have hspecStep : flatStep s.contents (.write va offset byte) = some (Function.update
        s.contents va (some (Function.update (s.mem (s.frameOf p)) offset byte))) := by
      simp only [flatStep, contents_eq hpages]
    refine ⟨_, hspecStep, htieredNext, hcopyingNext, ?_⟩
    exact contents_store htiered.machine hpages

/-- A read returns what the flat memory has. -/
theorem Refines.load {s : Machine} {flat : FlatMemory} {va : Va} {offset : ℕ} {frame : Frame}
    (hrefines : s.Refines flat) (henabled : s.Enabled (.load va offset))
    (hmapping : s.mapping va = some frame) :
    flatStep flat (.read va offset (s.mem frame offset)) = some flat := by
  obtain ⟨htiered, -, rfl⟩ := hrefines
  obtain ⟨p, hpages⟩ := Option.isSome_iff_exists.mp henabled.1
  have hmapped := htiered.machine.mapping_of_tracked hpages
  rw [hmapping] at hmapped
  obtain rfl := Option.some.inj hmapped
  simp [flatStep, contents_eq hpages]

theorem Refines.silent {s next : Machine} {flat : FlatMemory} {action : MachineAction}
    (hrefines : s.Refines flat) (hclient : action.byClient = false)
    (hstore : ∀ va offset byte, action ≠ .store va offset byte)
    (hstep : machineStep s action = some next) : next.Refines flat := by
  obtain ⟨htiered, hcopying, rfl⟩ := hrefines
  refine ⟨htiered.machine_step hclient hstep, hcopying.step htiered.machine hstep, ?_⟩
  obtain ⟨-, henabled, ⟨-, rfl⟩ | ⟨-, pipe, -, rfl⟩⟩ := step_cases hstep
  · rfl
  · exact hcopying.contents_effect htiered.machine henabled hclient hstore

theorem forwardSimulation_refines :
    Simulation.ForwardSimulation tieredStep observe flatStep Refines := by
  have hother : ∀ {s next : Machine} {action : MachineAction},
      tieredStep s (.other action) = some next →
        action.byClient = false ∧ machineStep s action = some next := by
    intro s next action hstep
    simp only [tieredStep] at hstep
    split at hstep
    · cases hstep
    · rename_i hclient
      exact ⟨Bool.eq_false_iff.mpr hclient, hstep⟩
  constructor
  · intro s action next flat hrefines hstep hobserve
    cases action with
    | fault va => cases hobserve
    | remove va => cases hobserve
    | other action =>
        obtain ⟨hclient, hmachine⟩ := hother hstep
        refine hrefines.silent hclient ?_ hmachine
        rintro va offset byte rfl
        cases hobserve
  · intro s action next flat event hrefines hstep hobserve
    cases action with
    | fault va =>
        obtain rfl := Option.some.inj hobserve
        exact hrefines.fault hstep
    | remove va =>
        obtain rfl := Option.some.inj hobserve
        exact hrefines.remove hstep
    | other action =>
        obtain ⟨hclient, hmachine⟩ := hother hstep
        cases action with
        | load va offset =>
            obtain ⟨frame, hmapping, rfl⟩ := Option.map_eq_some_iff.mp hobserve
            obtain ⟨-, henabled, -⟩ := step_cases hmachine
            exact ⟨flat, hrefines.load henabled hmapping,
              hrefines.silent hclient (by simp) hmachine⟩
        | store va offset byte =>
            obtain rfl := Option.some.inj hobserve
            exact hrefines.store hmachine
        | _ => cases hobserve

end Machine

/-- In every run, whatever the policy thread and the workers do meanwhile, the
application sees a flat memory, no assertion fails, and the tracked pages have
the contents of that memory. -/
theorem tieredMemory_refines_flat (dramsize nvmsize workers : ℕ) (actions : List TieredAction) :
    ∃ flat, Transition.run flatStep (fun _ => none)
        (Simulation.trace tieredStep observe (pebsInit dramsize nvmsize workers 1) actions) =
          some flat ∧
      ∀ final, Transition.run tieredStep (pebsInit dramsize nvmsize workers 1) actions =
          some final → final.contents = flat ∧ final.aborted = false := by
  have hinit : (pebsInit dramsize nvmsize workers 1).Refines fun _ => none :=
    ⟨Machine.tieredInv_pebsInit .., Machine.copying_pebsInit .., rfl⟩
  obtain ⟨flat, htrace, hfinal⟩ := Machine.forwardSimulation_refines.accepts hinit actions
  refine ⟨flat, htrace, fun final hrun => ?_⟩
  have hrefines := hfinal final hrun
  exact ⟨hrefines.contents, hrefines.tiered.running⟩

end ArmsTiering
