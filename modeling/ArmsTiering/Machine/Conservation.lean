import ArmsTiering.Machine.Tiered

/-!
# Structs and frames are conserved

With the halves of a request atomic too, no worker is between a remap and the
return of the old frame when another thread steps.
-/

namespace ArmsTiering

open Counting

namespace Machine

/-! ## Atomic halves -/

/-- Between the halves of requests all workers are at the start of one. -/
structure AtomicInv (s : Machine) : Prop where
  tiered : s.TieredInv
  started : ∀ i, s.stage i = .start

theorem TieredInv.half_block {s final : Machine} (hinv : s.TieredInv)
    {actions : List MachineAction} (hhalf : ∀ action ∈ actions, action.byHalf = true)
    (hrun : runBlock s actions = some final) : final.TieredInv := by
  refine runBlock_preserves TieredInv (fun t action next hmem hinv hnext => ?_) hinv hrun
  refine hinv.machine_step ?_ hnext
  have hby := hhalf action hmem
  cases action <;> first | rfl | cases hby

theorem stage_block {s final : Machine} {actions : List MachineAction} {i : ℕ}
    (hactor : ∀ action ∈ actions, action.actor ≠ some i)
    (hrun : runBlock s actions = some final) : final.stage i = s.stage i := by
  refine runBlock_preserves (fun t => t.stage i = s.stage i) ?_ rfl hrun
  intro t action next hmem hsame hnext
  obtain ⟨-, -, ⟨-, rfl⟩ | ⟨-, pipe, -, rfl⟩⟩ := step_cases hnext
  · exact hsame
  · exact (stage_effect_of_ne (hactor action hmem)).trans hsame

/-- A block that ends a half, in the same block as the steps before. -/
theorem AtomicInv.block {s final : Machine} (hinv : s.AtomicInv) {i : ℕ}
    {actions : List MachineAction}
    (hactor : ∀ action ∈ actions, action.byHalf = true ∧ action.actor = some i)
    (hrun : runBlock s actions = some final) (hends : final.stage i = .start) :
    final.AtomicInv where
  tiered := hinv.tiered.half_block (fun action hmem => (hactor action hmem).1) hrun
  started := fun j => by
    by_cases hij : j = i
    · rw [hij, hends]
    · have hother : ∀ action ∈ actions, action.actor ≠ some j := by
        intro action hmem
        rw [(hactor action hmem).2]
        exact fun heq => hij (Option.some.inj heq).symm
      rw [stage_block hother hrun, hinv.started]

theorem stage_kept {s final : Machine} {actions : List MachineAction} {stage : ℕ → Stage}
    (hkeeps : ∀ action ∈ actions, ∀ t : Machine, (t.effect action).stage = t.stage)
    (hstage : s.stage = stage) (hrun : runBlock s actions = some final) : final.stage = stage := by
  refine runBlock_preserves (fun t => t.stage = stage) ?_ hstage hrun
  intro t action next hmem hsame hnext
  obtain ⟨-, -, ⟨-, rfl⟩ | ⟨-, pipe, -, rfl⟩⟩ := step_cases hnext
  · exact hsame
  · exact (hkeeps action hmem t).trans hsame

/-- The block ends with the frame given back, if no assertion has stopped it. -/
theorem stage_of_give {s final : Machine} {i : ℕ} {half : Half} {req : MigrationReq}
    {oldOffset : ℕ} {first rest : List MachineAction}
    (hrun : runBlock s (first ++ .give i half req oldOffset :: rest) = some final)
    (hrunning : final.aborted = false)
    (hrest : ∀ action ∈ rest, ∀ t : Machine, (t.effect action).stage = t.stage) :
    final.stage i = .start := by
  obtain ⟨middle, -, ⟨haborted, rfl⟩ | hsecond⟩ := runBlock_append hrun
  · rw [hrunning] at haborted
    cases haborted
  · obtain ⟨-, -, ⟨hfails, -⟩ | ⟨-, pipe, -, htail⟩⟩ := runBlock_cases hsecond
    · exact absurd trivial hfails
    · rw [stage_kept hrest rfl htail]
      simp [effect, setStage, setPipe]

theorem AtomicInv.half_step {s next : Machine} {i : ℕ} (hinv : s.AtomicInv)
    (hstep : s.halfStep i = some next) : next.AtomicInv := by
  have hmigrate : ∀ {half : Half} {req : MigrationReq} {oldOffset : ℕ} {rest : List MachineAction},
      runBlock s (migrateActions i half req oldOffset ++ rest) = some next →
        (∀ action ∈ rest, ∃ outcome, action = .recycle i req outcome) → next.AtomicInv := by
    intro half req oldOffset rest hrun hrest
    have hsplit : migrateActions i half req oldOffset ++ rest =
        [.testPresent i half req, .writeProtect i half req oldOffset, .copy i half req oldOffset,
          .remap i half req oldOffset, .unlock i half req oldOffset] ++
            .give i half req oldOffset :: rest := rfl
    have hactor : ∀ action ∈ migrateActions i half req oldOffset ++ rest,
        action.byHalf = true ∧ action.actor = some i := by
      intro action hmem
      obtain hmem | hmem := List.mem_append.mp hmem
      · simp only [migrateActions, List.mem_cons, List.not_mem_nil, or_false] at hmem
        obtain rfl | rfl | rfl | rfl | rfl | rfl := hmem <;> exact ⟨rfl, rfl⟩
      · obtain ⟨outcome, rfl⟩ := hrest action hmem
        exact ⟨rfl, rfl⟩
    have hrunning := (hinv.tiered.half_block (fun action hmem => (hactor action hmem).1) hrun).running
    refine hinv.block hactor hrun (stage_of_give (hsplit ▸ hrun) hrunning ?_)
    intro action hmem t
    obtain ⟨outcome, rfl⟩ := hrest action hmem
    rfl
  have habandon : ∀ {half : Half} {req : MigrationReq} {outcome : Outcome},
      runBlock s [.testAbsent i half req, .recycle i req outcome] = some next →
        next.AtomicInv := by
    intro half req outcome hrun
    have hactor : ∀ action ∈ [MachineAction.testAbsent i half req, .recycle i req outcome],
        action.byHalf = true ∧ action.actor = some i := by
      simp [MachineAction.byHalf, MachineAction.actor]
    refine hinv.block hactor hrun ?_
    rw [stage_kept (by simp [stage_effect, MachineAction.stageMove]) rfl hrun, hinv.started]
  simp only [halfStep] at hstep
  split at hstep
  · split at hstep
    · exact hmigrate (hstep.symm ▸ congrArg (runBlock s) (List.append_nil _)) (by simp)
    · exact habandon hstep
  · split at hstep
    · exact hmigrate hstep (by simp)
    · exact habandon hstep
  · cases hstep

theorem AtomicInv.step {s next : Machine} {action : AtomicAction} (hinv : s.AtomicInv)
    (hstep : atomicStep s action = some next) : next.AtomicInv := by
  cases action with
  | fault va =>
      obtain ⟨list, p, hspec, -⟩ := faultStep_spec hinv.tiered.machine hinv.tiered.idle hstep
      refine ⟨hinv.tiered.fault_step hstep, fun i => ?_⟩
      rw [hspec.kept.stage, hinv.started]
  | remove va =>
      obtain ⟨p, hspec, -⟩ := removeStep_spec hinv.tiered.machine hinv.tiered.idle hstep
      refine ⟨hinv.tiered.remove_step hstep, fun i => ?_⟩
      rw [hspec.kept.stage, hinv.started]
  | half i => exact hinv.half_step hstep
  | other action =>
      simp only [atomicStep] at hstep
      split at hstep
      · cases hstep
      · rename_i hneither
        rw [Bool.not_eq_true, Bool.or_eq_false_iff] at hneither
        refine ⟨hinv.tiered.machine_step hneither.1 hstep, fun i => ?_⟩
        have hkept : (s.effect action).stage = s.stage := by
          rw [stage_effect]
          cases action <;> first | rfl | cases hneither.2
        obtain ⟨-, -, ⟨-, rfl⟩ | ⟨-, pipe, -, rfl⟩⟩ := step_cases hstep
        · exact hinv.started i
        · exact (congrFun hkept i).trans (hinv.started i)

/-! ## What is conserved -/

structure Conserved (dramsize nvmsize : ℕ) (s : Machine) : Prop where
  /-- the structs permute the frames that `pebs_init` gave them -/
  permuted : ∃ owner : Equiv.Perm PageId,
    (∀ p, dramsize / pageSize + nvmsize / pageSize ≤ p → owner p = p) ∧
      ∀ p, s.frameOf p = initialFrame (dramsize / pageSize) (owner p)
  dramOwner : ∀ i < dramsize / pageSize, ∃! p,
    p < dramsize / pageSize + nvmsize / pageSize ∧ s.frameOf p = ⟨true, i * pageSize⟩
  nvmOwner : ∀ i < nvmsize / pageSize, ∃! p,
    p < dramsize / pageSize + nvmsize / pageSize ∧ s.frameOf p = ⟨false, i * pageSize⟩
  /-- each struct is in one place: a free list, `pages`, a free record, or an
  unfinished request -/
  somewhere : ∀ p < dramsize / pageSize + nvmsize / pageSize,
    (s.freeList .dram).count p + (s.freeList .nvm).count p + one (s.tracked p) +
      s.pendingFreeCount p + s.pipe.borrowed p = 1
  freeLists : s.FreeListsOk
  tracked : ∀ va p, s.pages va = some p → (s.page p).va = va ∧ (s.page p).present = true
  lent : ∀ np inDram, s.pipe.Demands np inDram →
    (s.page np).inDram = inDram ∧ (s.page np).present = false

/-- A frame that `pebs_init` gives to a struct is always owned by one. -/
theorem owner_unique {dramPages total i : ℕ} {s : Machine} {owner : Equiv.Perm PageId}
    (hfixes : ∀ p, total ≤ p → owner p = p)
    (hframes : ∀ p, s.frameOf p = initialFrame dramPages (owner p)) (hi : i < total) :
    ∃! p, p < total ∧ s.frameOf p = initialFrame dramPages i := by
  refine ⟨owner.symm i, ⟨?_, by rw [hframes, Equiv.apply_symm_apply]⟩, ?_⟩
  · by_contra hout
    have hfixed := hfixes _ (Nat.not_lt.mp hout)
    rw [Equiv.apply_symm_apply] at hfixed
    rw [← hfixed] at hout
    exact hout hi
  · rintro p ⟨-, hframe⟩
    rw [hframes] at hframe
    rw [← initialFrame_injective dramPages hframe, Equiv.symm_apply_apply]

theorem AtomicInv.conserved {s : Machine} (hinv : s.AtomicInv) :
    s.Conserved s.dramsize s.nvmsize := by
  have hmachine := hinv.tiered.machine
  obtain ⟨owner, howners⟩ := hmachine.owners
  have hframes : ∀ p, s.frameOf p = initialFrame (s.dramsize / pageSize) (owner p) := by
    refine fun p => howners.settled p ?_
    rintro i frame ⟨half, req, oldOffset, -, hstage, -⟩
    rw [hinv.started] at hstage
    obtain hstage | hstage := hstage <;> cases hstage
  have hunique : ∀ i < s.total, ∃! p, p < s.total ∧
      s.frameOf p = initialFrame (s.dramsize / pageSize) i := fun i hi =>
    owner_unique howners.fixes hframes hi
  constructor
  · exact ⟨owner, howners.fixes, hframes⟩
  · intro i hi
    have howner := hunique i (Nat.lt_add_right _ hi)
    rwa [initialFrame, if_pos hi] at howner
  · intro i hi
    have howner := hunique (s.dramsize / pageSize + i) (Nat.add_lt_add_left hi _)
    rwa [initialFrame, if_neg (Nat.not_lt.mpr (Nat.le_add_right _ _)),
      Nat.add_sub_cancel_left] at howner
  · intro p hp
    have hplaces := hinv.tiered.kept p
    have howned := hinv.tiered.ownedCount p
    rw [decide_eq_true (show p < s.total from hp), one_true] at hplaces
    unfold places freeCount at hplaces
    omega
  · exact hmachine.tiers.lists
  · intro va p hpages
    obtain ⟨hlive, hkey⟩ := hmachine.live_of_tracked hpages
    exact ⟨hkey, hlive.1⟩
  · exact hmachine.tiers.lent

theorem size_block {s final : Machine} {actions : List MachineAction}
    (hrun : runBlock s actions = some final) :
    final.dramsize = s.dramsize ∧ final.nvmsize = s.nvmsize := by
  refine runBlock_preserves (fun t => t.dramsize = s.dramsize ∧ t.nvmsize = s.nvmsize) ?_
    ⟨rfl, rfl⟩ hrun
  intro t action next _ hsame hnext
  obtain ⟨-, -, ⟨-, rfl⟩ | ⟨-, pipe, -, rfl⟩⟩ := step_cases hnext
  · exact hsame
  · have hkept := size_effect t action
    exact ⟨hkept.1.trans hsame.1, hkept.2.trans hsame.2⟩

end Machine

/-- A coarse step is a block. -/
theorem runBlock_of_atomicStep {s next : Machine} {action : AtomicAction}
    (hstep : atomicStep s action = some next) :
    ∃ actions, runBlock s actions = some next := by
  cases action with
  | fault va =>
      obtain ⟨_, _, hrun⟩ := Option.bind_eq_some_iff.mp hstep
      exact ⟨_, hrun⟩
  | remove va =>
      obtain ⟨_, _, hrun⟩ := Option.bind_eq_some_iff.mp hstep
      exact ⟨_, hrun⟩
  | half i =>
      simp only [atomicStep, Machine.halfStep] at hstep
      split at hstep
      · split at hstep <;> exact ⟨_, hstep⟩
      · split at hstep <;> exact ⟨_, hstep⟩
      · cases hstep
  | other action =>
      simp only [atomicStep] at hstep
      split at hstep
      · cases hstep
      · refine ⟨[action], ?_⟩
        simp only [runBlock, hstep, Option.bind_some]
        split <;> rfl

/-- In every state of every run no frame and no struct is lost or duplicated. -/
theorem conserved_of_atomicSteps (dramsize nvmsize workers : ℕ) (actions : List AtomicAction) :
    Transition.Along atomicStep (Machine.Conserved dramsize nvmsize)
      (pebsInit dramsize nvmsize workers 1) actions := by
  refine Transition.along_of_step
    (fun s => s.AtomicInv ∧ s.dramsize = dramsize ∧ s.nvmsize = nvmsize) ?_ ?_
    ⟨⟨Machine.tieredInv_pebsInit .., fun _ => rfl⟩, rfl, rfl⟩
  · rintro s ⟨hinv, rfl, rfl⟩
    exact hinv.conserved
  · rintro s action next ⟨hinv, rfl, rfl⟩ hstep
    obtain ⟨block, hrun⟩ := runBlock_of_atomicStep hstep
    exact ⟨hinv.step hstep, Machine.size_block hrun⟩

end ArmsTiering
