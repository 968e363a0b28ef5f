import ArmsTiering.Machine.AddressSpace
import ArmsTiering.Machine.Blocks
import ArmsTiering.Machine.Frames

/-!
# The page table agrees with the page structs

The machine's invariants together, and what they say about the mapping that
the application sees.
-/

namespace ArmsTiering

open Counting

namespace Machine

/-- No drain comes before `present` is cleared, and no worker finds a struct
present that a fault handler is still placing. -/
def Undisturbed (s : Machine) (action : MachineAction) : Prop :=
  s.DrainsCleared action ∧ s.TestsSettled action

structure MachineInv (s : Machine) : Prop where
  placed : s.Placed
  tiers : s.Tiers
  presence : s.Presence
  space : s.AddressSpace
  bounded : s.Bounded
  owners : ∃ owner, s.FrameOwners owner

theorem MachineInv.step {s next : Machine} {action : MachineAction} (hinv : s.MachineInv)
    (hundisturbed : s.Undisturbed action) (hstep : machineStep s action = some next) :
    next.MachineInv := by
  obtain ⟨hcleared, hsettled⟩ := hundisturbed
  obtain ⟨owner, howners⟩ := hinv.owners
  exact
    { placed := hinv.placed.step hstep
      tiers := hinv.tiers.step hinv.placed hcleared hstep
      presence := hinv.presence.step hinv.placed hinv.tiers hcleared hstep
      space := hinv.space.step hinv.tiers hinv.presence hsettled hstep
      bounded := hinv.bounded.step hinv.placed hstep
      owners := howners.step hinv.placed hinv.tiers hinv.bounded hstep }

theorem machineInv_pebsInit (dramsize nvmsize workers clients : ℕ) :
    (pebsInit dramsize nvmsize workers clients).MachineInv where
  placed := placed_pebsInit ..
  tiers := tiers_pebsInit ..
  presence := presence_pebsInit ..
  space := addressSpace_pebsInit ..
  bounded := bounded_pebsInit ..
  owners := ⟨_, frameOwners_pebsInit ..⟩

/-- A worker is between its present test of the page and the unlock. -/
def Migrating (s : Machine) (p : PageId) : Prop :=
  ∃ i half req, s.pipe.workers[i]? = some (Half.worker half req) ∧ half.page req = p ∧
    (s.stage i).holdsLock = true

structure MappingAgrees (s : Machine) : Prop where
  mapped : ∀ va p, s.pages va = some p → ¬ s.Migrating p →
    s.mapping (s.page p).va = some (s.frameOf p)
  notFree : ∀ va p frame, s.pages va = some p → s.mapping va = some frame →
    ∀ list, ∀ q ∈ s.freeList list, s.frameOf q ≠ frame

/-- A tracked struct is live, at the address under which `pages` has it. -/
theorem MachineInv.live_of_tracked {s : Machine} (hinv : s.MachineInv) {va : Va} {p : PageId}
    (hpages : s.pages va = some p) : s.Live p ∧ (s.page p).va = va := by
  have hkey := hinv.placed.keyed va p hpages
  have htracked : s.tracked p = true := by simp [tracked, hkey, hpages]
  have honce := hinv.placed.once p
  simp only [places, htracked, one_true] at honce
  have hunplaced := unplaced_le_owned s p
  refine ⟨⟨hinv.presence.needed p ?_, by omega⟩, hkey⟩
  simp only [Needed, htracked, one_true]
  omega

theorem MachineInv.mapping_of_tracked {s : Machine} (hinv : s.MachineInv) {va : Va} {p : PageId}
    (hpages : s.pages va = some p) : s.mapping va = some (s.frameOf p) := by
  obtain ⟨hlive, hkey⟩ := hinv.live_of_tracked hpages
  rw [← hkey]
  exact hinv.space.mapped p hlive

/-- Two structs with no window open on them name different frames. -/
theorem MachineInv.frameOf_injective {s : Machine} (hinv : s.MachineInv) {p q : PageId}
    (hp : ∀ i frame, ¬ s.Window i p frame) (hq : ∀ i frame, ¬ s.Window i q frame)
    (hframe : s.frameOf p = s.frameOf q) : p = q := by
  obtain ⟨owner, howners⟩ := hinv.owners
  rw [howners.settled p hp, howners.settled q hq] at hframe
  exact ownFrame_injective s owner hframe

theorem MachineInv.frameOf_ne_of_free {s : Machine} (hinv : s.MachineInv) {p q : PageId}
    {list : FreeList} (hpresent : (s.page p).present = true) (hfree : q ∈ s.freeList list) :
    s.frameOf q ≠ s.frameOf p := by
  intro hframe
  obtain rfl := hinv.frameOf_injective (hinv.placed.no_window_of_free hfree)
    (hinv.tiers.no_window_of_present hpresent) hframe
  have habsent := (hinv.tiers.lists list q hfree).2
  rw [hpresent] at habsent
  cases habsent

theorem MachineInv.mappingAgrees {s : Machine} (hinv : s.MachineInv) : s.MappingAgrees := by
  constructor
  · intro va p hpages _
    rw [(hinv.live_of_tracked hpages).2]
    exact hinv.mapping_of_tracked hpages
  · intro va p frame hpages hmapping list q hfree
    rw [hinv.mapping_of_tracked hpages] at hmapping
    obtain rfl := Option.some.inj hmapping
    exact hinv.frameOf_ne_of_free (hinv.live_of_tracked hpages).1.1 hfree

end Machine

/-- In every run whose drains come after the clearing of `present`, and whose
workers find no struct present that a fault handler is still placing, the page
table agrees with the page structs in every state. -/
theorem mappingAgrees_of_undisturbed (dramsize nvmsize workers clients : ℕ)
    (actions : List MachineAction)
    (hundisturbed : Transition.Meets machineStep Machine.Undisturbed
      (pebsInit dramsize nvmsize workers clients) actions) :
    Transition.Along machineStep Machine.MappingAgrees
      (pebsInit dramsize nvmsize workers clients) actions := by
  refine Transition.along_of_meets Machine.MachineInv ?_ ?_
    (Machine.machineInv_pebsInit ..) hundisturbed
  · intro s hinv
    exact hinv.mappingAgrees
  · intro s action next hinv hundisturbed hstep
    exact hinv.step hundisturbed hstep

/-- A page is faulted in, drained, removed and drained again. -/
theorem mappingAgrees_of_undisturbed_onePage :
    Transition.Along machineStep Machine.MappingAgrees (pebsInit pageSize pageSize 1 1)
      [.allocate 0 pageSize .dram 0, .zeroAndMap 0 pageSize 0, .setVa 0 pageSize 0,
        .addToPages 0 0, .pushAdd 0 0, .drain ⟨0, false⟩, .deleteFromPages 0 pageSize 0,
        .pushFree 0 pageSize 0, .clearPresent 0 pageSize 0, .drain ⟨0, true⟩] := by
  refine mappingAgrees_of_undisturbed pageSize pageSize 1 1 _ ?_
  iterate 9
    refine fun next hnext => ⟨⟨?_, trivial⟩, ?_⟩
    · first | trivial | (intro hfree; cases hfree)
    obtain rfl := Option.some.inj hnext
  refine fun next hnext => ⟨⟨fun _ _ => ?_, trivial⟩, trivial⟩
  decide

def staleReq : MigrationReq := ⟨0, 0, 1, 2, true⟩

/-- A queued request names page 1, which is removed and drained; a fault handler
takes the struct for another address, and the worker remaps the old one, where
page 3 has been mapped meanwhile. -/
def staleRequestRun : List MachineAction :=
  faultActions 0 pageSize .dram 0 ++ faultActions 0 (2 * pageSize) .nvm 1 ++
  [.drain ⟨0, false⟩, .drain ⟨1, false⟩, .pipeline .beginWait, .beginSchedule 1,
    .scheduleDemotion (2 * pageSize) pageSize 1 0 2, .pipeline .postSubmission,
    .pipeline .endInterval, .deleteFromPages 0 (2 * pageSize) 1, .pushFree 0 (2 * pageSize) 1,
    .clearPresent 0 (2 * pageSize) 1, .unmap 0 (2 * pageSize), .drain ⟨1, true⟩] ++
  faultActions 0 (2 * pageSize) .nvm 3 ++
  [.allocate 0 (3 * pageSize) .nvm 1, .zeroAndMap 0 (3 * pageSize) 1, .pipeline (.wakeUp 0),
    .pipeline (.dequeue 0)] ++
  migrateActions 0 .demotion staleReq 0 ++
  (migrateActions 0 .promotion staleReq 0).dropLast

theorem staleRequestRun_end :
    ((Transition.run machineStep (pebsInit pageSize (3 * pageSize) 1 1) staleRequestRun).map
      fun s => (s.pages (2 * pageSize), s.pipe.workers, s.mapping (s.page 3).va, s.frameOf 3)) =
      some (some 3, [.promote staleReq], some ⟨true, 0⟩, ⟨false, 2 * pageSize⟩) := by
  decide +kernel

theorem staleRequest_remaps_other :
    ¬ ∀ actions : List MachineAction,
      Transition.Along machineStep Machine.MappingAgrees (pebsInit pageSize (3 * pageSize) 1 1)
        actions := by
  intro hall
  obtain ⟨final, hfinal, hend⟩ := Option.map_eq_some_iff.mp staleRequestRun_end
  have hagrees := (hall staleRequestRun).of_run hfinal
  simp only [Prod.mk.injEq] at hend
  obtain ⟨hpages, hworkers, hmapping, hframe⟩ := hend
  have hmigrating : ¬ final.Migrating 3 := by
    rintro ⟨i, half, req, hworker, hpage, -⟩
    rw [hworkers] at hworker
    have hreq := List.mem_of_getElem? hworker
    cases half <;> simp_all [Half.worker, Half.page, staleReq]
  have hmapped := hagrees.mapped _ _ hpages hmigrating
  rw [hmapping, hframe] at hmapped
  cases hmapped

end ArmsTiering
