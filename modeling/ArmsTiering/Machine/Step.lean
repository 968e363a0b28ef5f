import ArmsTiering.Machine.State

/-!
# Steps of the tiering machine

Each action names the data that the acting thread has in its locals; the guard
`Enabled` says where they come from.  An assertion of the code that fails stops
the machine.
-/

namespace ArmsTiering

inductive MachineAction
  -- `handle_missing_fault`, and one page of `arms_mmap_populate`
  | allocate (c : ℕ) (va : Va) (list : FreeList) (p : PageId)
  /-- `assert(!"Out of memory")` -/
  | outOfMemory (c : ℕ) (va : Va)
  | zeroAndMap (c : ℕ) (va : Va) (p : PageId)
  | setVa (c : ℕ) (va : Va) (p : PageId)
  | addToPages (c : ℕ) (p : PageId)
  | pushAdd (c : ℕ) (p : PageId)
  -- `arms_munmap`
  | deleteFromPages (c : ℕ) (va : Va) (p : PageId)
  | pushFree (c : ℕ) (va : Va) (p : PageId)
  | clearPresent (c : ℕ) (va : Va) (p : PageId)
  | unmap (c : ℕ) (va : Va)
  -- The application
  | load (va : Va) (offset : ℕ)
  | store (va : Va) (offset : ℕ) (byte : UInt8)
  -- `pebs_policy_thread`
  | drain (mp : ModPage)
  | beginSchedule (batch : ℕ)
  | schedulePromotion (key : Va) (p np : PageId)
  | scheduleDemotion (key coldKey : Va) (p cp np : PageId)
  /-- the cost-benefit analysis gives `np` back and ends the interval -/
  | returnFree (np : PageId)
  -- `pebs_migration_thread`
  | testPresent (i : ℕ) (half : Half) (req : MigrationReq)
  | testAbsent (i : ℕ) (half : Half) (req : MigrationReq)
  | writeProtect (i : ℕ) (half : Half) (req : MigrationReq) (oldOffset : ℕ)
  | copy (i : ℕ) (half : Half) (req : MigrationReq) (oldOffset : ℕ)
  | remap (i : ℕ) (half : Half) (req : MigrationReq) (oldOffset : ℕ)
  | unlock (i : ℕ) (half : Half) (req : MigrationReq) (oldOffset : ℕ)
  | give (i : ℕ) (half : Half) (req : MigrationReq) (oldOffset : ℕ)
  | recycle (i : ℕ) (req : MigrationReq) (outcome : Outcome)
  /-- a step of the policy thread or of a worker that touches no page -/
  | pipeline (action : PipelineAction)

/-- The pointers that `memset(m_req, 0, ..)` leaves; without `need_demotion` no
worker reads `dram_page`. -/
def nullPage : PageId := 0

/-- The action of the migration pipeline that a step performs. -/
def MachineAction.pipeAction : MachineAction → Option PipelineAction
  | .beginSchedule batch => some (.beginSchedule batch)
  | .schedulePromotion _ p np => some (.submit nullPage p np false)
  | .scheduleDemotion _ _ p cp np => some (.submit cp p np true)
  | .returnFree _ => some .endInterval
  | .testAbsent i half _ => some (half.finish i false)
  | .give i half _ _ => some (half.finish i true)
  | .recycle i _ _ => some (.recycle i)
  | .pipeline action => some action
  | _ => none

def Pipeline.advance (s : Pipeline) : Option PipelineAction → Option Pipeline
  | none => some s
  | some action => pipelineStep s action

theorem Pipeline.advance_cases {s next : Pipeline} {action : PipelineAction}
    (hadvance : s.advance (some action) = some next) : Pipeline.Step s action next :=
  step_cases hadvance

namespace Machine

/-- The entry `key` of `pages_map` is `p`, and the policy thread has not yet
passed it in `scores`. -/
def Candidate (s : Machine) (key : Va) (p : PageId) : Prop :=
  s.pagesMap key = some p ∧ key ∉ s.usedKeys

/-- Worker `i` is at the given stage of a half of the request. -/
def At (s : Machine) (i : ℕ) (half : Half) (req : MigrationReq) (stage : Stage) : Prop :=
  s.pipe.workers[i]? = some (half.worker req) ∧ s.stage i = stage

instance (s : Machine) (key : Va) (p : PageId) : Decidable (s.Candidate key p) :=
  inferInstanceAs (Decidable (_ ∧ _))

instance (s : Machine) (i : ℕ) (half : Half) (req : MigrationReq) (stage : Stage) :
    Decidable (s.At i half req stage) :=
  inferInstanceAs (Decidable (_ ∧ _))

/-- A missing fault arises at the page boundary `va`: nothing is mapped there
and no thread is handling a fault there already. -/
def FaultArises (s : Machine) (va : Va) : Prop :=
  0 < va ∧ va % hugepageSize = 0 ∧ s.mapping va = none ∧
    ∀ client ∈ s.clients, client.faultsAt va = false

instance (s : Machine) (va : Va) : Decidable (s.FaultArises va) :=
  inferInstanceAs (Decidable (_ ∧ _))

/-- The guard of a step. -/
def Enabled (s : Machine) : MachineAction → Prop
  | .allocate c va list p =>
      s.clients[c]? = some .idle ∧ s.FaultArises va ∧ (s.freeList list).head? = some p ∧
        -- NVM is the fallback when DRAM is full
        (list = .nvm → s.freeList .dram = [])
  | .outOfMemory c va =>
      s.clients[c]? = some .idle ∧ s.FaultArises va ∧ s.freeList .dram = [] ∧
        s.freeList .nvm = []
  | .zeroAndMap c va p => s.clients[c]? = some (.allocated va p)
  | .setVa c va p => s.clients[c]? = some (.mapped va p)
  | .addToPages c p => s.clients[c]? = some (.vaSet p)
  | .pushAdd c p => s.clients[c]? = some (.added p)
  -- `mmgr_find` has found the page
  | .deleteFromPages c va p => s.clients[c]? = some .idle ∧ s.pages va = some p
  | .pushFree c va p => s.clients[c]? = some (.deleted va p)
  | .clearPresent c va p => s.clients[c]? = some (.pushed va p) ∧ s.pageLock p = none
  | .unmap c va => s.clients[c]? = some (.cleared va)
  | .load va offset =>
      (s.pages va).isSome ∧ (s.mapping va).isSome ∧ offset < pageSize
  -- a write to a protected page waits for the migration
  | .store va offset _ =>
      (s.pages va).isSome ∧ (s.mapping va).isSome ∧ offset < pageSize ∧
        s.writeProtected va = false
  | .drain mp => s.pipe.policy = .drain ∧ s.modPageDq.head? = some mp
  | .beginSchedule _ => True
  | .schedulePromotion key p np =>
      s.Candidate key p ∧ (s.page p).inDram = false ∧ (s.freeList .dram).head? = some np
  -- the DRAM list was empty when the policy thread looked; a worker may have
  -- filled it since
  | .scheduleDemotion key coldKey p cp np =>
      s.Candidate key p ∧ s.Candidate coldKey cp ∧ key ≠ coldKey ∧
        (s.page p).inDram = false ∧ (s.page cp).inDram = true ∧
        (s.freeList .nvm).head? = some np
  | .returnFree np => (s.freeList .dram).head? = some np
  | .testPresent i half req =>
      s.At i half req .start ∧ s.pageLock (half.page req) = none ∧
        (s.page (half.page req)).present = true
  | .testAbsent i half req =>
      s.At i half req .start ∧ s.pageLock (half.page req) = none ∧
        (s.page (half.page req)).present = false
  | .writeProtect i half req oldOffset => s.At i half req (.locked oldOffset)
  | .copy i half req oldOffset => s.At i half req (.writeProtected oldOffset)
  | .remap i half req oldOffset => s.At i half req (.copied oldOffset)
  | .unlock i half req oldOffset =>
      s.At i half req (.remapped oldOffset) ∧ s.pageLock (half.page req) = some i
  | .give i half req oldOffset => s.At i half req (.unlocked oldOffset)
  | .recycle i req outcome =>
      s.pipe.workers[i]? = some (.recycle req outcome) ∧
        (outcome = .promotionAbandoned → s.pageLock req.nvmPage = some i)
  | .pipeline action => action.plain = true

/-- The size of the devdax file of a tier. -/
def tierSize (s : Machine) (inDram : Bool) : ℕ := if inDram then s.dramsize else s.nvmsize

/-- The offset is that of a whole page of the tier's devdax file. -/
def OffsetInRange (s : Machine) (frame : Frame) : Prop :=
  frame.devdaxOffset < s.tierSize frame.inDram ∧
    frame.devdaxOffset + pageSize ≤ s.tierSize frame.inDram

/-- The frame that the page of a half leaves. -/
def oldFrame (s : Machine) (half : Half) (req : MigrationReq) : Frame :=
  ⟨half.sourceInDram, (s.page (half.page req)).devdaxOffset⟩

/-- The frame that it moves to: `arms_migrate_up` and `arms_migrate_down` take
the offset from the request's free page and the tier for granted. -/
def newFrame (s : Machine) (half : Half) (req : MigrationReq) : Frame :=
  ⟨!half.sourceInDram, (s.page req.freePage).devdaxOffset⟩

/-- The assertions that the code checks in a step. -/
def Asserts (s : Machine) : MachineAction → Prop
  | .allocate _ _ list p => (s.page p).inDram = list.inDram ∧ (s.page p).present = false
  | .outOfMemory _ _ => False
  | .addToPages _ p => s.pages (s.page p).va = none
  | .deleteFromPages _ _ p => s.pages (s.page p).va ≠ none
  | .drain mp => mp.free = false → s.pagesMap (s.page mp.page).va = none
  | .schedulePromotion _ _ np => (s.page np).present = false
  | .scheduleDemotion _ _ _ cp _ => 0 < (s.page cp).va
  | .returnFree np => (s.page np).present = false
  -- the ioctl fails where nothing is mapped
  | .writeProtect _ half req _ =>
      0 < (s.page (half.page req)).va ∧ (s.page (half.page req)).va % hugepageSize = 0 ∧
        s.mapping (s.page (half.page req)).va ≠ none
  | .copy _ half req _ =>
      (s.page (half.page req)).inDram = half.sourceInDram ∧
        s.OffsetInRange (s.oldFrame half req) ∧ s.OffsetInRange (s.newFrame half req)
  | .remap _ half req _ => (s.page (half.page req)).va % hugepageSize = 0
  | _ => True

/-- `mem` with a byte written where the address is mapped. -/
def writeByte (s : Machine) (va : Va) (offset : ℕ) (byte : UInt8) : Frame → Contents :=
  match s.mapping va with
  | some frame => Function.update s.mem frame (Function.update (s.mem frame) offset byte)
  | none => s.mem

/-- The record frees a page, and `kh_get` finds it in `pages_map`. -/
def drainFrees (s : Machine) (mp : ModPage) : Bool :=
  mp.free && (s.pagesMap (s.page mp.page).va).isSome

/-- What a step does to everything but the pipeline. -/
def effect (s : Machine) : MachineAction → Machine
  | .allocate c va list p =>
      ((s.dequeueFifo list).setPage p fun page => { page with present := true }).setClient c
        (.allocated va p)
  | .zeroAndMap c va p =>
      ((s.setMem (s.frameOf p) fun _ => 0).mapFrame va (some (s.frameOf p))).setClient c
        (.mapped va p)
  | .setVa c va p =>
      (s.setPage p fun page => { page with va := va, migrating := false }).setClient c (.vaSet p)
  | .addToPages c p =>
      { s with pages := Function.update s.pages (s.page p).va (some p) }.setClient c (.added p)
  | .pushAdd c p => (s.pushRecord ⟨p, false⟩).setClient c .idle
  | .deleteFromPages c va p =>
      { s with pages := Function.update s.pages (s.page p).va none }.setClient c (.deleted va p)
  | .pushFree c va p =>
      ({ s with removed := s.removed ++ [p] }.pushRecord ⟨p, true⟩).setClient c (.pushed va p)
  | .clearPresent c va p =>
      (s.setPage p fun page => { page with present := false }).setClient c (.cleared va)
  | .unmap c va => (s.mapFrame va none).setClient c .idle
  | .store va offset byte => { s with mem := s.writeByte va offset byte }
  | .drain mp =>
      { s with
        modPageDq := s.modPageDq.tail
        -- `kh_del` or `kh_put`; a key that is not found stays absent
        pagesMap := Function.update s.pagesMap (s.page mp.page).va
          (if mp.free then none else some mp.page)
        freeList :=
          if s.drainFrees mp then
            (s.enqueueFifo (.ofTier (s.page mp.page).inDram) mp.page).freeList
          else s.freeList
        page :=
          if s.drainFrees mp then (s.setPage mp.page resetPageAccessFields).page else s.page
        freed := if s.drainFrees mp then s.freed ++ [mp.page] else s.freed }
  | .beginSchedule _ => { s with usedKeys := [] }
  | .schedulePromotion key _ _ => { s with usedKeys := key :: s.usedKeys }.dequeueFifo .dram
  | .scheduleDemotion key coldKey _ _ _ =>
      { s with usedKeys := key :: coldKey :: s.usedKeys }.dequeueFifo .nvm
  | .returnFree np => (s.dequeueFifo .dram).enqueueFifo .dram np
  | .testPresent i half req =>
      (s.setLock (half.page req) (some i)).setStage i
        (.locked (s.page (half.page req)).devdaxOffset)
  | .testAbsent i half req =>
      { s with
        pageLock :=
          match half with
          | .demotion => s.pageLock
          -- `promote_to_free_dram_page` unlocks only after its enqueue
          | .promotion => Function.update s.pageLock req.nvmPage (some i) }
  | .writeProtect i half req oldOffset =>
      let protected_ : Machine :=
        { s with
          writeProtected := Function.update s.writeProtected (s.page (half.page req)).va true }
      (protected_.setPage (half.page req) fun page => { page with migrating := true }).setStage i
        (.writeProtected oldOffset)
  | .copy i half req oldOffset =>
      (s.setMem (s.newFrame half req) (s.mem (s.oldFrame half req))).setStage i
        (.copied oldOffset)
  | .remap i half req oldOffset =>
      ((s.mapFrame (s.page (half.page req)).va (some (s.newFrame half req))).setPage
        (half.page req) fun page =>
          { page with
            devdaxOffset := (s.newFrame half req).devdaxOffset
            inDram := (s.newFrame half req).inDram
            migrating := false }).setStage i (.remapped oldOffset)
  | .unlock i half req oldOffset =>
      (s.setLock (half.page req) none).setStage i (.unlocked oldOffset)
  | .give i half req oldOffset =>
      (s.setPage req.freePage fun page =>
        resetPageAccessFields
          { page with
            devdaxOffset := oldOffset
            inDram := half.sourceInDram
            present := false }).setStage i .start
  | .recycle _ req outcome =>
      { s.enqueueFifo outcome.freeList req.freePage with
        pageLock :=
          if outcome = .promotionAbandoned then Function.update s.pageLock req.nvmPage none
          else s.pageLock }
  | _ => s

instance (s : Machine) (action : MachineAction) : Decidable (s.Enabled action) := by
  cases action <;> dsimp only [Enabled] <;> infer_instance

instance (s : Machine) (action : MachineAction) : Decidable (s.Asserts action) := by
  cases action <;> dsimp only [Asserts, OffsetInRange] <;> infer_instance

end Machine

def machineStep (s : Machine) (action : MachineAction) : Option Machine :=
  if s.aborted = false ∧ s.Enabled action then
    if s.Asserts action then
      (s.pipe.advance action.pipeAction).map (s.effect action).setPipe
    else some s.abort
  else none

namespace Machine

/-- What a step can do: fail an assertion, or perform its effect and its action
of the pipeline. -/
theorem step_cases {s next : Machine} {action : MachineAction}
    (hstep : machineStep s action = some next) :
    s.aborted = false ∧ s.Enabled action ∧
      (¬ s.Asserts action ∧ next = s.abort ∨
        s.Asserts action ∧ ∃ pipe, s.pipe.advance action.pipeAction = some pipe ∧
          next = (s.effect action).setPipe pipe) := by
  unfold machineStep at hstep
  split at hstep
  · rename_i hguard
    refine ⟨hguard.1, hguard.2, ?_⟩
    split at hstep
    · rename_i hasserts
      obtain ⟨pipe, hpipe, hnext⟩ := Option.map_eq_some_iff.mp hstep
      exact Or.inr ⟨hasserts, pipe, hpipe, hnext.symm⟩
    · rename_i hfails
      exact Or.inl ⟨hfails, (Option.some.inj hstep).symm⟩
  · cases hstep

end Machine

end ArmsTiering
