import ArmsTiering.Machine.Tiered

/-!
# Copies in progress

Between the write protection of a page and the remap no store reaches it, so
that the frame to which it has been copied still has its contents.
-/

namespace ArmsTiering

open Counting

/-- The page of the half is write-protected. -/
def Stage.copies : Stage → Bool
  | .writeProtected _ | .copied _ => true
  | _ => false

theorem Stage.holdsLock_of_copies {stage : Stage} (hcopies : stage.copies = true) :
    stage.holdsLock = true := by
  cases stage <;> first | rfl | cases hcopies

namespace Machine

structure Copying (s : Machine) : Prop where
  guarded : ∀ i half req stage, s.At i half req stage → stage.copies = true →
    s.writeProtected (s.page (half.page req)).va = true
  copied : ∀ i half req oldOffset, s.At i half req (.copied oldOffset) →
    s.mem (s.newFrame half req) = s.mem (s.frameOf (half.page req))

/-! ## Frames of a half before its remap -/

/-- The free page of the half, with the frame to which the page moves. -/
theorem MachineInv.newFrame_eq {s : Machine} (hinv : s.MachineInv) {i : ℕ} {half : Half}
    {req : MigrationReq} (hworker : s.pipe.workers[i]? = some (half.worker req)) :
    s.newFrame half req = s.frameOf req.freePage ∧ (s.page req.freePage).present = false := by
  obtain ⟨htier, habsent⟩ :=
    hinv.tiers.lent _ _ (Or.inr ⟨i, _, hworker, half.demand_worker req⟩)
  exact ⟨by simp [newFrame, frameOf, htier], habsent⟩

theorem MachineInv.newFrame_ne {s : Machine} (hinv : s.MachineInv) {i : ℕ} {half : Half}
    {req : MigrationReq} (hworker : s.pipe.workers[i]? = some (half.worker req))
    (hstage : (s.stage i).moved = false) {p : PageId} (hpresent : (s.page p).present = true) :
    s.newFrame half req ≠ s.frameOf p := by
  obtain ⟨hframe, habsent⟩ := hinv.newFrame_eq hworker
  rw [hframe]
  intro hsame
  have hpage := hinv.frameOf_injective (hinv.placed.no_window hworker hstage)
    (hinv.tiers.no_window_of_present hpresent) hsame
  rw [hpage, hpresent] at habsent
  cases habsent

/-- Two workers move their pages to different frames. -/
theorem MachineInv.newFrame_unique {s : Machine} (hinv : s.MachineInv) {i j : ℕ}
    {half other : Half} {req otherReq : MigrationReq}
    (hworker : s.pipe.workers[i]? = some (half.worker req))
    (hother : s.pipe.workers[j]? = some (other.worker otherReq))
    (hstage : (s.stage i).moved = false) (hotherStage : (s.stage j).moved = false)
    (hsame : s.newFrame half req = s.newFrame other otherReq) : i = j := by
  rw [(hinv.newFrame_eq hworker).1, (hinv.newFrame_eq hother).1] at hsame
  have hpage := hinv.frameOf_injective (hinv.placed.no_window hworker hstage)
    (hinv.placed.no_window hother hotherStage) hsame
  exact hinv.placed.lent_index hworker hother (half.borrows_worker req)
    (by rw [hpage]; exact other.borrows_worker otherReq)

/-- Only the worker itself moves the two structs of its half. -/
theorem MachineInv.reframes_ne {s : Machine} (hinv : s.MachineInv) {action : MachineAction}
    (henabled : s.Enabled action) {i : ℕ} {half : Half} {req : MigrationReq} {stage : Stage}
    (hat : s.At i half req stage) (hlock : stage.holdsLock = true)
    (hactor : action.actor ≠ some i) :
    action.reframes ≠ some (half.page req) ∧ action.reframes ≠ some req.freePage := by
  have hpresent := (hinv.space.live_of_holds hinv.tiers hat hlock).1
  have habsent := (hinv.newFrame_eq hat.1).2
  cases action with
  | remap j other otherReq oldOffset =>
      have hotherPresent := (hinv.space.live_of_holds hinv.tiers henabled rfl).1
      refine ⟨fun hpage => ?_, fun hpage => ?_⟩
      · have hok := hinv.tiers.stages i half req hat.1
        rw [hat.2] at hok
        have hlocked : s.pageLock (half.page req) = some i := by
          cases stage with
          | start | unlocked => cases hlock
          | locked | writeProtected | copied => exact hok.1.1
          | remapped => exact hok.1
        have hother := hinv.tiers.stages j other otherReq henabled.1
        rw [henabled.2] at hother
        have hsame : other.page otherReq = half.page req := Option.some.inj hpage
        have hindex := hother.1.1
        rw [hsame, hlocked] at hindex
        exact hactor (congrArg some (Option.some.inj hindex).symm)
      · have hsame : other.page otherReq = req.freePage := Option.some.inj hpage
        rw [hsame, habsent] at hotherPresent
        cases hotherPresent
  | give j other otherReq oldOffset =>
      refine ⟨fun hpage => ?_, fun hpage => ?_⟩
      · have hsame : otherReq.freePage = half.page req := Option.some.inj hpage
        have hotherAbsent := (hinv.newFrame_eq henabled.1).2
        rw [hsame, hpresent] at hotherAbsent
        cases hotherAbsent
      · have hsame : otherReq.freePage = req.freePage := Option.some.inj hpage
        have hindex : j = i := hinv.placed.lent_index henabled.1 hat.1
          (hsame ▸ other.borrows_worker otherReq) (half.borrows_worker req)
        exact hactor (congrArg some hindex)
  | _ => exact ⟨nofun, nofun⟩

/-! ## Step lemmas -/

/-- A worker that copies was in the same half before the step. -/
theorem Copying.at_before {s : Machine} {action : MachineAction} {pipe : Pipeline}
    (htiers : s.Tiers) (henabled : s.Enabled action)
    (hpipe : s.pipe.advance action.pipeAction = some pipe) {i : ℕ} {half : Half}
    {req : MigrationReq} {stage : Stage}
    (hat : ((s.effect action).setPipe pipe).At i half req stage) (hcopies : stage.copies = true) :
    s.pipe.workers[i]? = some (half.worker req) ∧
      (s.At i half req stage ∧ action.actor ≠ some i ∨
        (∃ oldOffset, action = .writeProtect i half req oldOffset ∧
          stage = .writeProtected oldOffset) ∨
        ∃ oldOffset, action = .copy i half req oldOffset ∧ stage = .copied oldOffset) := by
  obtain ⟨hworker, hstage⟩ := hat
  have hstageNext : (s.effect action).stage i = stage := hstage
  obtain hold | hstart := htiers.halfWorker_step henabled hpipe hworker
  · refine ⟨hold, ?_⟩
    by_cases hactor : action.actor = some i
    · rw [stage_effect] at hstageNext
      cases action with
      | writeProtect j other otherReq oldOffset =>
          obtain rfl := Option.some.inj hactor
          obtain ⟨rfl, rfl⟩ := Half.worker_inj (Option.some.inj (henabled.1.symm.trans hold))
          refine Or.inr (Or.inl ⟨oldOffset, rfl, ?_⟩)
          simpa [MachineAction.stageMove] using hstageNext.symm
      | copy j other otherReq oldOffset =>
          obtain rfl := Option.some.inj hactor
          obtain ⟨rfl, rfl⟩ := Half.worker_inj (Option.some.inj (henabled.1.symm.trans hold))
          refine Or.inr (Or.inr ⟨oldOffset, rfl, ?_⟩)
          simpa [MachineAction.stageMove] using hstageNext.symm
      | testPresent | remap | unlock | give =>
          obtain rfl := Option.some.inj hactor
          simp only [MachineAction.stageMove, Function.update_self] at hstageNext
          subst hstageNext
          cases hcopies
      | testAbsent j other otherReq =>
          obtain rfl := Option.some.inj hactor
          have hstart : stage = .start := hstageNext.symm.trans henabled.1.2
          subst hstart
          cases hcopies
      | recycle j otherReq outcome =>
          obtain rfl := Option.some.inj hactor
          cases half <;> cases henabled.1.symm.trans hold
      | _ => cases hactor
    · rw [stage_effect_of_ne hactor] at hstageNext
      exact Or.inl ⟨⟨hold, hstageNext⟩, hactor⟩
  · rw [hstageNext] at hstart
    subst hstart
    cases hcopies

theorem Copying.guarded_step {s : Machine} {action : MachineAction} {pipe : Pipeline}
    (hinv : s.MachineInv) (hcopying : s.Copying) (henabled : s.Enabled action)
    (hpipe : s.pipe.advance action.pipeAction = some pipe) {i : ℕ} {half : Half}
    {req : MigrationReq} {stage : Stage}
    (hat : ((s.effect action).setPipe pipe).At i half req stage) (hcopies : stage.copies = true) :
    (s.effect action).writeProtected ((s.effect action).page (half.page req)).va = true := by
  obtain ⟨hworker, ⟨hold, hactor⟩ | ⟨oldOffset, rfl, rfl⟩ | ⟨oldOffset, rfl, rfl⟩⟩ :=
    at_before hinv.tiers henabled hpipe hat hcopies
  · have hlive := hinv.space.live_of_holds hinv.tiers hold (Stage.holdsLock_of_copies hcopies)
    rw [hlive.va_effect henabled]
    refine writeProtected_effect (hcopying.guarded i half req stage hold hcopies) fun hremaps => ?_
    obtain ⟨j, other, otherReq, oldOffset, rfl, hpage⟩ :=
      hinv.space.remap_of_live hinv.tiers henabled hlive hremaps
    exact (hinv.reframes_ne henabled hold (Stage.holdsLock_of_copies hcopies) hactor).1
      (congrArg some hpage)
  · simp [effect, setStage, setPage]
  · exact hcopying.guarded i half req _ henabled rfl

/-- Neither frame of a copied page is written. -/
theorem Copying.writesAt_ne {s : Machine} {action : MachineAction} (hinv : s.MachineInv)
    (hcopying : s.Copying) (henabled : s.Enabled action) {i : ℕ} {half : Half}
    {req : MigrationReq} {oldOffset : ℕ} (hat : s.At i half req (.copied oldOffset))
    (hactor : action.actor ≠ some i) :
    action.writesAt s ≠ some (s.newFrame half req) ∧
      action.writesAt s ≠ some (s.frameOf (half.page req)) := by
  have hlive := hinv.space.live_of_holds hinv.tiers hat rfl
  have hunmoved : (s.stage i).moved = false := by rw [hat.2]; rfl
  have hpageWindow := hinv.tiers.no_window_of_present hlive.1
  cases action with
  | zeroAndMap c va p =>
      have hunplaced : 0 < s.unplacedCount p :=
        one_le_countP henabled (show (Client.allocated va p).unplaced p = true by
          simp [Client.unplaced])
      have howned := unplaced_le_owned s p
      have hpresent : (s.page p).present = true := by
        refine hinv.presence.needed p ?_
        unfold Needed
        omega
      refine ⟨fun hframe => ?_, fun hframe => ?_⟩
      · exact hinv.newFrame_ne hat.1 hunmoved hpresent (Option.some.inj hframe).symm
      · have hpage := hinv.frameOf_injective (hinv.tiers.no_window_of_present hpresent)
          hpageWindow (Option.some.inj hframe)
        rw [hpage, hlive.2] at hunplaced
        cases hunplaced
  | store va offset byte =>
      obtain ⟨p, hpages⟩ := Option.isSome_iff_exists.mp henabled.1
      obtain ⟨hliveStored, hva⟩ := hinv.live_of_tracked hpages
      have hmapping := hinv.mapping_of_tracked hpages
      have hwrites : MachineAction.writesAt s (.store va offset byte) = some (s.frameOf p) :=
        hmapping
      rw [hwrites]
      refine ⟨fun hframe => ?_, fun hframe => ?_⟩
      · exact hinv.newFrame_ne hat.1 hunmoved hliveStored.1 (Option.some.inj hframe).symm
      · have hpage := hinv.frameOf_injective (hinv.tiers.no_window_of_present hliveStored.1)
          hpageWindow (Option.some.inj hframe)
        have hguarded := hcopying.guarded i half req _ hat rfl
        rw [← hpage, hva, henabled.2.2.2] at hguarded
        cases hguarded
  | copy j other otherReq offset =>
      have hotherUnmoved : (s.stage j).moved = false := by rw [henabled.2]; rfl
      refine ⟨fun hframe => ?_, fun hframe => ?_⟩
      · have hindex := hinv.newFrame_unique henabled.1 hat.1 hotherUnmoved hunmoved
          (Option.some.inj hframe)
        exact hactor (congrArg some hindex)
      · exact hinv.newFrame_ne henabled.1 hotherUnmoved hlive.1 (Option.some.inj hframe)
  | _ => exact ⟨(Option.some_ne_none _).symm, (Option.some_ne_none _).symm⟩

theorem Copying.copied_step {s : Machine} {action : MachineAction} {pipe : Pipeline}
    (hinv : s.MachineInv) (hcopying : s.Copying) (henabled : s.Enabled action)
    (hasserts : s.Asserts action) (hpipe : s.pipe.advance action.pipeAction = some pipe) {i : ℕ}
    {half : Half} {req : MigrationReq} {oldOffset : ℕ}
    (hat : ((s.effect action).setPipe pipe).At i half req (.copied oldOffset)) :
    (s.effect action).mem ((s.effect action).newFrame half req) =
      (s.effect action).mem ((s.effect action).frameOf (half.page req)) := by
  obtain ⟨hworker, ⟨hold, hactor⟩ | ⟨offset, -, hstage⟩ | ⟨offset, rfl, -⟩⟩ :=
    at_before hinv.tiers henabled hpipe hat rfl
  · obtain ⟨hpage, hfree⟩ := hinv.reframes_ne henabled hold rfl hactor
    obtain ⟨hnewWrites, holdWrites⟩ := hcopying.writesAt_ne hinv henabled hold hactor
    have hnew : (s.effect action).newFrame half req = s.newFrame half req := by
      have hframe : (s.effect action).frameOf req.freePage = s.frameOf req.freePage :=
        frameOf_effect hfree
      have hoffset := congrArg Frame.devdaxOffset hframe
      simp only [frameOf] at hoffset
      simp only [newFrame, hoffset]
    rw [hnew, frameOf_effect hpage, mem_effect hnewWrites, mem_effect holdWrites]
    exact hcopying.copied i half req oldOffset hold
  · cases hstage
  · have hframe : s.oldFrame half req = s.frameOf (half.page req) := by
      simp [oldFrame, frameOf, hasserts.1]
    have hmem : (s.effect (.copy i half req offset)).mem =
        Function.update s.mem (s.newFrame half req) (s.mem (s.oldFrame half req)) := rfl
    change (s.effect (.copy i half req offset)).mem (s.newFrame half req) =
      (s.effect (.copy i half req offset)).mem (s.frameOf (half.page req))
    rw [hmem, hframe, Function.update_self, Function.update_apply]
    split <;> rfl

theorem Copying.step {s next : Machine} {action : MachineAction} (hinv : s.MachineInv)
    (hcopying : s.Copying) (hstep : machineStep s action = some next) : next.Copying := by
  obtain ⟨-, henabled, ⟨-, rfl⟩ | ⟨hasserts, pipe, hpipe, rfl⟩⟩ := step_cases hstep
  · exact ⟨hcopying.guarded, hcopying.copied⟩
  · exact
      { guarded := fun i half req stage hat hcopies =>
          hcopying.guarded_step hinv henabled hpipe hat hcopies
        copied := fun i half req oldOffset hat =>
          hcopying.copied_step hinv henabled hasserts hpipe hat }

theorem copying_pebsInit (dramsize nvmsize workers clients : ℕ) :
    (pebsInit dramsize nvmsize workers clients).Copying := by
  constructor
  · rintro i half req stage ⟨-, rfl⟩ hcopies
    cases hcopies
  · rintro i half req oldOffset ⟨-, hstage⟩
    cases hstage

theorem Copying.client_block {s final : Machine} {actions : List MachineAction}
    (hinv : s.BlockInv) (hcopying : s.Copying)
    (hclient : ∀ action ∈ actions, action.byClient = true)
    (hrun : runBlock s actions = some final) : final.Copying := by
  refine (runBlock_preserves (fun t => t.BlockInv ∧ t.Copying) ?_ ⟨hinv, hcopying⟩ hrun).2
  intro t action next hmem hboth hnext
  exact ⟨hboth.1.client_step (hclient action hmem) hnext, hboth.2.step hboth.1.machine hnext⟩

end Machine

end ArmsTiering
