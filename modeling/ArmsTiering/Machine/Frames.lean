import ArmsTiering.Machine.FreeLists
import Mathlib.Logic.Equiv.Basic

/-!
# Frames are permuted

Structs exchange frames and no frame is lost or shared.  Between the moment a
page struct takes over the frame of a request's free page and the moment the
free page is given the old frame, both name the same frame; the frame that the
free page is going to get counts as its own.
-/

namespace ArmsTiering

open Counting

theorem initialFrame_injective (dramPages : ℕ) :
    Function.Injective (initialFrame dramPages) := by
  intro (p : ℕ) (q : ℕ) hframe
  have hpos : 0 < pageSize := by decide
  by_cases hp : p < dramPages <;> by_cases hq : q < dramPages <;>
    simp only [initialFrame, hp, hq, if_true, if_false, Frame.mk.injEq, reduceCtorEq, false_and,
      true_and] at hframe
  · exact Nat.eq_of_mul_eq_mul_right hpos hframe
  · have hsub : p - dramPages = q - dramPages := Nat.eq_of_mul_eq_mul_right hpos hframe
    calc
      p = p - dramPages + dramPages := (Nat.sub_add_cancel (Nat.not_lt.mp hp)).symm
      _ = q - dramPages + dramPages := by rw [hsub]
      _ = q := Nat.sub_add_cancel (Nat.not_lt.mp hq)

theorem Half.borrows_worker (half : Half) (req : MigrationReq) :
    (half.worker req).borrows req.freePage = true := by
  cases half <;> simp [Half.worker, Worker.borrows, MigrationReq.borrows]

/-- The page of the half has its new frame. -/
def Stage.moved : Stage → Bool
  | .remapped _ | .unlocked _ => true
  | _ => false

namespace Machine

/-- Worker `i` is going to give the frame to the free page `np`. -/
def Window (s : Machine) (i : ℕ) (np : PageId) (frame : Frame) : Prop :=
  ∃ half req oldOffset, s.pipe.workers[i]? = some (Half.worker half req) ∧
    (s.stage i = .remapped oldOffset ∨ s.stage i = .unlocked oldOffset) ∧
    np = req.freePage ∧ frame = ⟨half.sourceInDram, oldOffset⟩

/-- The frame that the permutation assigns to a struct. -/
def ownFrame (s : Machine) (owner : Equiv.Perm PageId) (p : PageId) : Frame :=
  initialFrame (s.dramsize / pageSize) (owner p)

/-- Each struct names its own frame, or is about to get it. -/
structure FrameOwners (s : Machine) (owner : Equiv.Perm PageId) : Prop where
  fixes : ∀ p, s.total ≤ p → owner p = p
  settled : ∀ p, (∀ i frame, ¬ s.Window i p frame) → s.frameOf p = s.ownFrame owner p
  moving : ∀ i p frame, s.Window i p frame → frame = s.ownFrame owner p

/-- Structs beyond those that `pebs_init` creates are never used. -/
structure Bounded (s : Machine) : Prop where
  nowhere : ∀ p, s.total ≤ p → s.places p = 0
  absent : ∀ p, s.total ≤ p → (s.page p).present = false

/-! ## Windows -/

theorem Window.demands {s : Machine} {i : ℕ} {np : PageId} {frame : Frame}
    (hwindow : s.Window i np frame) : s.pipe.Demands np (!frame.inDram) := by
  obtain ⟨half, req, oldOffset, hworker, -, rfl, rfl⟩ := hwindow
  exact Or.inr ⟨i, _, hworker, half.demand_worker req⟩

theorem Window.absent {s : Machine} (htiers : s.Tiers) {i : ℕ} {np : PageId} {frame : Frame}
    (hwindow : s.Window i np frame) : (s.page np).present = false :=
  (htiers.lent _ _ hwindow.demands).2

/-- A free page is lent to one worker only. -/
theorem Placed.lent_index {s : Machine} (hplaced : s.Placed) {i j : ℕ} {first second : Worker}
    {np : PageId} (hfirst : s.pipe.workers[i]? = some first)
    (hsecond : s.pipe.workers[j]? = some second) (hfirstBorrows : first.borrows np = true)
    (hsecondBorrows : second.borrows np = true) : i = j := by
  have honce := hplaced.once np
  simp only [places, Pipeline.borrowed] at honce
  exact index_eq_of_countP_le_one (by omega) hfirst hsecond hfirstBorrows hsecondBorrows

/-- A window stays open until the frame is given. -/
theorem Window.persists {s : Machine} {action : MachineAction} {pipe : Pipeline}
    (henabled : s.Enabled action) (hpipe : s.pipe.advance action.pipeAction = some pipe)
    {i : ℕ} {np : PageId} {frame : Frame} (hwindow : s.Window i np frame)
    (hnot : ∀ half req oldOffset, action ≠ .give i half req oldOffset) :
    ((s.effect action).setPipe pipe).Window i np frame := by
  obtain ⟨half, req, oldOffset, hworker, hstage, hpage, hframe⟩ := hwindow
  by_cases hactor : action.actor = some i
  · -- the acting worker unlocks the page
    have hearlier : ∀ {other : Half} {otherReq : MigrationReq} {stage : Stage},
        s.At i other otherReq stage → stage.moved = true := by
      rintro other otherReq stage ⟨-, rfl⟩
      obtain hstage | hstage := hstage <;> rw [hstage] <;> rfl
    cases action with
    | testPresent j other otherReq | testAbsent j other otherReq =>
        obtain rfl := Option.some.inj hactor
        cases hearlier henabled.1
    | writeProtect j other otherReq offset | copy j other otherReq offset
    | remap j other otherReq offset =>
        obtain rfl := Option.some.inj hactor
        cases hearlier henabled
    | unlock j other otherReq offset =>
        obtain rfl := Option.some.inj hactor
        have hworkers : pipe.workers = s.pipe.workers := workers_advance henabled hpipe (by simp)
        have hoffset : offset = oldOffset := by
          obtain hstage | hstage := hstage <;> cases henabled.1.2.symm.trans hstage
          rfl
        refine ⟨half, req, oldOffset, hworkers ▸ hworker, Or.inr ?_, hpage, hframe⟩
        simp [effect, setStage, setPipe, hoffset]
    | give j other otherReq offset =>
        obtain rfl := Option.some.inj hactor
        exact absurd rfl (hnot other otherReq offset)
    | recycle j otherReq outcome =>
        obtain rfl := Option.some.inj hactor
        cases half <;> cases henabled.1.symm.trans hworker
    | _ => cases hactor
  · refine ⟨half, req, oldOffset, halfWorker_of_ne henabled hpipe hworker hactor, ?_, hpage,
      hframe⟩
    simp only [setPipe]
    rw [stage_effect_of_ne hactor]
    exact hstage

/-- A window opens when the page struct takes the new frame. -/
theorem Window.opened {s : Machine} {action : MachineAction} {pipe : Pipeline}
    (htiers : s.Tiers) (henabled : s.Enabled action)
    (hpipe : s.pipe.advance action.pipeAction = some pipe) {i : ℕ} {np : PageId} {frame : Frame}
    (hwindow : ((s.effect action).setPipe pipe).Window i np frame) :
    s.Window i np frame ∨
      ∃ half req oldOffset, action = .remap i half req oldOffset ∧ np = req.freePage ∧
        frame = ⟨half.sourceInDram, oldOffset⟩ := by
  obtain ⟨half, req, oldOffset, hworker, hstage, hpage, hframe⟩ := hwindow
  have hstageNext : (s.effect action).stage i = .remapped oldOffset ∨
      (s.effect action).stage i = .unlocked oldOffset := hstage
  obtain hold | hstart := htiers.halfWorker_step henabled hpipe hworker
  · have hkept : s.stage i = .remapped oldOffset ∨ s.stage i = .unlocked oldOffset →
        s.Window i np frame := fun hstage => ⟨half, req, oldOffset, hold, hstage, hpage, hframe⟩
    by_cases hactor : action.actor = some i
    · rw [stage_effect] at hstageNext
      cases action with
      | testPresent | writeProtect | copy | give =>
          obtain rfl := Option.some.inj hactor
          simp [MachineAction.stageMove] at hstageNext
      | remap j other otherReq offset =>
          obtain rfl := Option.some.inj hactor
          obtain ⟨rfl, rfl⟩ := Half.worker_inj (Option.some.inj (hold.symm.trans henabled.1))
          have hoffset : offset = oldOffset := by
            simpa [MachineAction.stageMove] using hstageNext
          exact Or.inr ⟨half, req, offset, rfl, hpage, hoffset ▸ hframe⟩
      | unlock j other otherReq offset =>
          obtain rfl := Option.some.inj hactor
          have hoffset : offset = oldOffset := by
            simpa [MachineAction.stageMove] using hstageNext
          exact Or.inl (hkept (Or.inl (hoffset ▸ henabled.1.2)))
      | testAbsent | recycle => exact Or.inl (hkept hstageNext)
      | _ => cases hactor
    · rw [stage_effect_of_ne hactor] at hstageNext
      exact Or.inl (hkept hstageNext)
  · rw [hstart] at hstageNext
    obtain hremapped | hunlocked := hstageNext
    · cases hremapped
    · cases hunlocked

theorem ownFrame_effect (s : Machine) (action : MachineAction) (pipe : Pipeline)
    (owner : Equiv.Perm PageId) (p : PageId) :
    ((s.effect action).setPipe pipe).ownFrame owner p = s.ownFrame owner p := by
  simp only [ownFrame, setPipe, (size_effect s action).1]

theorem total_effect (s : Machine) (action : MachineAction) (pipe : Pipeline) :
    ((s.effect action).setPipe pipe).total = s.total := by
  simp only [total, setPipe, (size_effect s action).1, (size_effect s action).2]

theorem ownFrame_injective (s : Machine) (owner : Equiv.Perm PageId) :
    Function.Injective (s.ownFrame owner) :=
  (initialFrame_injective _).comp owner.injective

theorem Tiers.no_window_of_present {s : Machine} (htiers : s.Tiers) {p : PageId}
    (hpresent : (s.page p).present = true) (i : ℕ) (frame : Frame) : ¬ s.Window i p frame := by
  intro hwindow
  rw [hwindow.absent htiers] at hpresent
  cases hpresent

theorem Placed.no_window_of_free {s : Machine} (hplaced : s.Placed) {list : FreeList}
    {p : PageId} (hmem : p ∈ s.freeList list) (i : ℕ) (frame : Frame) : ¬ s.Window i p frame :=
  fun hwindow => hplaced.not_lent hmem hwindow.demands

/-- Before the remap, no window is open on the free page of a half. -/
theorem Placed.no_window {s : Machine} (hplaced : s.Placed) {i : ℕ} {half : Half}
    {req : MigrationReq} (hworker : s.pipe.workers[i]? = some (half.worker req))
    (hstage : (s.stage i).moved = false) (j : ℕ) (frame : Frame) :
    ¬ s.Window j req.freePage frame := by
  rintro ⟨other, otherReq, oldOffset, hother, hopen, hpage, -⟩
  obtain rfl : i = j := hplaced.lent_index hworker hother (half.borrows_worker req)
    (by rw [hpage]; exact other.borrows_worker otherReq)
  obtain hopen | hopen := hopen <;> simp [hopen, Stage.moved] at hstage

/-! ## Step lemmas -/

theorem Bounded.step {s next : Machine} {action : MachineAction} (hplaced : s.Placed)
    (hbounded : s.Bounded) (hstep : machineStep s action = some next) : next.Bounded := by
  have htotal : next.total = s.total := by
    obtain ⟨-, -, ⟨-, rfl⟩ | ⟨-, pipe, -, rfl⟩⟩ := step_cases hstep
    · rfl
    · exact total_effect s action pipe
  constructor
  · intro p hp
    have hplaces := places_step hplaced hstep p
    have hnowhere := hbounded.nowhere p (htotal ▸ hp)
    omega
  · intro p hp
    have hnowhere := hbounded.nowhere p (htotal ▸ hp)
    have habsent := hbounded.absent p (htotal ▸ hp)
    obtain ⟨-, henabled, ⟨-, rfl⟩ | ⟨-, pipe, -, rfl⟩⟩ := step_cases hstep
    · exact habsent
    · change ((s.effect action).page p).present = false
      have hsame : action.moved ≠ some p → ((s.effect action).page p).present = false :=
        fun hmoved => (sameLocation_effect s hmoved).2.1.trans habsent
      cases action with
      | allocate c va list q =>
          refine hsame fun hmoved => ?_
          obtain rfl : q = p := Option.some.inj hmoved
          have hfree := freeCount_pos (List.mem_of_mem_head? henabled.2.2.1)
          unfold places at hnowhere
          omega
      | clearPresent c va q =>
          by_cases hq : q = p
          · simp [effect, setClient, setPage, hq]
          · exact hsame (by simpa [MachineAction.moved] using hq)
      | remap i half req oldOffset =>
          by_cases hq : half.page req = p
          · simpa [effect, setStage, setPage, mapFrame, hq] using habsent
          · exact hsame (by simpa [MachineAction.moved] using hq)
      | give i half req oldOffset =>
          by_cases hq : req.freePage = p
          · simp [effect, setStage, setPage, hq]
          · exact hsame (by simpa [MachineAction.moved] using hq)
      | _ => exact hsame (by simp [MachineAction.moved])

/-- The migrated page takes over its free page's frame: the two swap owners. -/
theorem FrameOwners.remap {s : Machine} {owner : Equiv.Perm PageId} (hplaced : s.Placed)
    (htiers : s.Tiers) (hbounded : s.Bounded) (howners : s.FrameOwners owner)
    {i : ℕ} {half : Half} {req : MigrationReq} {oldOffset : ℕ}
    (henabled : s.Enabled (.remap i half req oldOffset)) :
    ((s.effect (.remap i half req oldOffset)).setPipe s.pipe).FrameOwners
      ((Equiv.swap (half.page req) req.freePage).trans owner) := by
  have hok := htiers.stages i half req henabled.1
  rw [henabled.2] at hok
  obtain ⟨⟨hlock, hpresent⟩, hoffset, htier⟩ := hok
  have hlent := htiers.lent _ _ (Or.inr ⟨i, _, henabled.1, half.demand_worker req⟩)
  have hne : half.page req ≠ req.freePage := by
    intro hsame
    rw [hsame, hlent.2] at hpresent
    cases hpresent
  have hpageOwn := howners.settled _ (htiers.no_window_of_present hpresent)
  have hnoWindow := hplaced.no_window henabled.1 (by rw [henabled.2]; rfl)
  have hfreeOwn := howners.settled req.freePage hnoWindow
  constructor
  · intro p hp
    rw [total_effect] at hp
    have hpPage : p ≠ half.page req := by
      rintro rfl
      rw [hbounded.absent _ hp] at hpresent
      cases hpresent
    have hpFree : p ≠ req.freePage := by
      rintro rfl
      have hnowhere := hbounded.nowhere _ hp
      have hborrowed : 0 < s.pipe.borrowed req.freePage :=
        Pipeline.Demands.borrowed_pos (Or.inr ⟨i, _, henabled.1, half.demand_worker req⟩)
      unfold places at hnowhere
      omega
    rw [Equiv.trans_apply, Equiv.swap_apply_of_ne_of_ne hpPage hpFree]
    exact howners.fixes p hp
  · intro p hsettled
    rw [ownFrame_effect]
    have hpFree : p ≠ req.freePage := by
      rintro rfl
      refine hsettled i ⟨half.sourceInDram, oldOffset⟩ ⟨half, req, oldOffset, henabled.1, ?_, rfl, rfl⟩
      exact Or.inl (by simp [effect, setStage, setPipe])
    by_cases hpPage : p = half.page req
    · subst hpPage
      have hframe : ((s.effect (.remap i half req oldOffset)).setPipe s.pipe).frameOf
          (half.page req) = s.frameOf req.freePage := by
        simp [effect, setStage, setPage, mapFrame, setPipe, frameOf, newFrame, hlent.1]
      rw [hframe, hfreeOwn]
      simp [ownFrame]
    · have hframe : (s.effect (.remap i half req oldOffset)).frameOf p = s.frameOf p :=
        frameOf_effect (by simpa [MachineAction.reframes] using Ne.symm hpPage)
      have hown := howners.settled p fun j frame hwindow => hsettled j frame
        (hwindow.persists henabled rfl (by simp))
      refine hframe.trans (hown.trans ?_)
      simp only [ownFrame, Equiv.trans_apply, Equiv.swap_apply_of_ne_of_ne hpPage hpFree]
  · intro j p frame hwindow
    rw [ownFrame_effect]
    obtain hold | ⟨other, otherReq, offset, haction, rfl, rfl⟩ :=
      hwindow.opened htiers henabled rfl
    · have hpPage : p ≠ half.page req := by
        rintro rfl
        rw [hold.absent htiers] at hpresent
        cases hpresent
      have hpFree : p ≠ req.freePage := by
        rintro rfl
        exact hnoWindow j frame hold
      rw [howners.moving j p frame hold]
      simp only [ownFrame, Equiv.trans_apply, Equiv.swap_apply_of_ne_of_ne hpPage hpFree]
    · cases haction
      have hold : (⟨half.sourceInDram, oldOffset⟩ : Frame) = s.frameOf (half.page req) := by
        simp [frameOf, htier, hoffset]
      rw [hold, hpageOwn]
      simp [ownFrame]

/-- The free page gets the frame that it owned since the remap. -/
theorem FrameOwners.give {s : Machine} {owner : Equiv.Perm PageId}
    (htiers : s.Tiers) (howners : s.FrameOwners owner) {i : ℕ} {half : Half}
    {req : MigrationReq} {oldOffset : ℕ} {pipe : Pipeline}
    (henabled : s.Enabled (.give i half req oldOffset))
    (hpipe : s.pipe.advance (MachineAction.give i half req oldOffset).pipeAction = some pipe) :
    ((s.effect (.give i half req oldOffset)).setPipe pipe).FrameOwners owner := by
  have hopen : s.Window i req.freePage ⟨half.sourceInDram, oldOffset⟩ :=
    ⟨half, req, oldOffset, henabled.1, Or.inr henabled.2, rfl, rfl⟩
  constructor
  · intro p hp
    rw [total_effect] at hp
    exact howners.fixes p hp
  · intro p hsettled
    rw [ownFrame_effect]
    by_cases hpFree : p = req.freePage
    · subst hpFree
      rw [← howners.moving i _ _ hopen]
      simp [effect, setStage, setPage, setPipe, frameOf]
    · have hframe : (s.effect (.give i half req oldOffset)).frameOf p = s.frameOf p :=
        frameOf_effect (by simpa [MachineAction.reframes] using Ne.symm hpFree)
      refine hframe.trans (howners.settled p fun j frame hwindow => hsettled j frame ?_)
      refine hwindow.persists henabled hpipe fun other otherReq offset haction => ?_
      cases haction
      obtain ⟨other, otherReq, offset, hworker, -, hpage, -⟩ := hwindow
      obtain ⟨-, rfl⟩ := Half.worker_inj (Option.some.inj (henabled.1.symm.trans hworker))
      exact hpFree hpage
  · intro j p frame hwindow
    rw [ownFrame_effect]
    obtain hold | ⟨other, otherReq, offset, haction, -⟩ := hwindow.opened htiers henabled hpipe
    · exact howners.moving j p frame hold
    · cases haction

theorem FrameOwners.keep {s : Machine} {action : MachineAction} {owner : Equiv.Perm PageId}
    {pipe : Pipeline} (htiers : s.Tiers) (howners : s.FrameOwners owner)
    (henabled : s.Enabled action) (hpipe : s.pipe.advance action.pipeAction = some pipe)
    (hnone : action.reframes = none) :
    ((s.effect action).setPipe pipe).FrameOwners owner := by
  constructor
  · intro p hp
    rw [total_effect] at hp
    exact howners.fixes p hp
  · intro p hsettled
    have hframe : (s.effect action).frameOf p = s.frameOf p :=
      frameOf_effect (by rw [hnone]; simp)
    rw [ownFrame_effect]
    refine hframe.trans (howners.settled p fun j frame hwindow => hsettled j frame ?_)
    refine hwindow.persists henabled hpipe fun half req oldOffset haction => ?_
    rw [haction] at hnone
    cases hnone
  · intro j p frame hwindow
    rw [ownFrame_effect]
    obtain hold | ⟨half, req, oldOffset, haction, -⟩ := hwindow.opened htiers henabled hpipe
    · exact howners.moving j p frame hold
    · rw [haction] at hnone
      cases hnone

theorem FrameOwners.step {s next : Machine} {action : MachineAction} {owner : Equiv.Perm PageId}
    (hplaced : s.Placed) (htiers : s.Tiers) (hbounded : s.Bounded) (howners : s.FrameOwners owner)
    (hstep : machineStep s action = some next) : ∃ owner, next.FrameOwners owner := by
  obtain ⟨-, henabled, ⟨-, rfl⟩ | ⟨-, pipe, hpipe, rfl⟩⟩ := step_cases hstep
  · exact ⟨owner, howners.fixes, howners.settled, howners.moving⟩
  · cases action with
    | remap i half req oldOffset =>
        cases Option.some.inj hpipe
        exact ⟨_, howners.remap hplaced htiers hbounded henabled⟩
    | give i half req oldOffset => exact ⟨owner, howners.give htiers henabled hpipe⟩
    | _ => exact ⟨owner, howners.keep htiers henabled hpipe rfl⟩

theorem frameOwners_pebsInit (dramsize nvmsize workers clients : ℕ) :
    (pebsInit dramsize nvmsize workers clients).FrameOwners (Equiv.refl PageId) := by
  constructor
  · intro p hp
    rfl
  · intro p hsettled
    simp [frameOf, ownFrame, pebsInit, callocPage]
  · rintro i p frame ⟨half, req, oldOffset, hworker, hstage, -⟩
    obtain hstage | hstage := hstage <;> cases hstage

theorem bounded_pebsInit (dramsize nvmsize workers clients : ℕ) :
    (pebsInit dramsize nvmsize workers clients).Bounded := by
  constructor
  · intro p hp
    have hout : ¬ p < dramsize / pageSize + nvmsize / pageSize := Nat.not_lt.mpr hp
    rw [places_pebsInit, decide_eq_false hout]
    rfl
  · intro p hp
    rfl

end Machine

end ArmsTiering
