import ArmsTiering.Machine.Step
import ArmsTiering.Pebs.PageLife

/-!
# The migrations loop of `pebs_policy_thread`

Two indices move towards each other over the sorted scores: `promote_idx` looks
for hot pages in NVM, `demote_idx` for cold pages in DRAM.  Each access to data
that the migration threads write as well is a step of its own, so that a
migration thread can complete a request between any two of them.
-/

namespace ArmsTiering

open scoped CFloat

variable {F : Type} [CFloat F] {n : ℕ}

/-- `struct score_entry` -/
structure ScoreEntry (F : Type) where
  page : PageId
  score : F

/-- Program counter of the policy thread in the loop, with its locals `p`,
`cp` and `np`. -/
inductive LoopPc
  /-- the condition of the outer loop, and the two tests that follow it -/
  | loopTest
  /-- the condition of the loop that skips pages in DRAM -/
  | skipPromote
  /-- from `p = scores[promote_idx].page` to the test of `can_promote` -/
  | selectHot
  | takeDram (p : PageId)
  /-- the cost-benefit analysis of a promotion to the free page `np` -/
  | weighFree (p np : PageId)
  | returnFree (np : PageId)
  | submitFree (p np : PageId)
  /-- the condition of the loop that skips pages in NVM -/
  | skipDemote (p : PageId)
  | selectCold (p : PageId)
  | weighSwap (p cp : PageId)
  | takeNvm (p cp : PageId)
  | submitSwap (p cp np : PageId)
  /-- before `sem_post(&submission_sem)`, or at the end of the iteration -/
  | wake
  | done
  /-- `assert(!(np->present))` has failed -/
  | freePresent (np : PageId)
  /-- an assertion about `p` or `cp` has failed -/
  | aborted
  deriving DecidableEq, Repr

/-- A request with what was true when it was queued: the two indices and the
tiers of the pages. -/
structure Move where
  req : MigrationReq
  promoteIdx : ℕ
  demoteIdx : ℕ
  nvmPageInDram : Bool
  dramPageInDram : Bool
  deriving DecidableEq, Repr

structure MigrationsLoop (F : Type) (n : ℕ) where
  /-- `dramsize / PAGE_SIZE` -/
  dramPages : ℕ
  scores : List (ScoreEntry F)
  maxMigrations : ℕ
  costs : CostEnv F
  page : PageId → ArmsPage F (n + 1)
  freeList : FreeList → List PageId
  pipe : Pipeline
  pc : LoopPc
  promoteIdx : ℕ
  demoteIdx : ℕ
  /-- history: the requests queued in this interval -/
  moves : List Move
  /-- history: the pages taken from the free lists, and those put back -/
  taken : List (FreeList × PageId)
  returned : List (FreeList × PageId)

/-- The marking of one entry of `scores`, given with its index. -/
def markEntry (dramPages : ℕ) (page : PageId → ArmsPage F n) (entry : ScoreEntry F × ℕ) :
    PageId → ArmsPage F n :=
  Function.update page entry.1.page (markRank dramPages entry.2 (page entry.1.page))

/-- The two marking loops that follow the sort. -/
def markScores (dramPages : ℕ) (scores : List (ScoreEntry F)) (page : PageId → ArmsPage F n) :
    PageId → ArmsPage F n :=
  scores.zipIdx.foldl (markEntry dramPages) page

/-- The policy thread enters the loop, the scores sorted and the pages marked. -/
def enterLoop (dramPages maxMigrations : ℕ) (scores : List (ScoreEntry F)) (costs : CostEnv F)
    (page : PageId → ArmsPage F (n + 1)) (freeList : FreeList → List PageId)
    (pipe : Pipeline) : MigrationsLoop F n where
  dramPages := dramPages
  scores := scores
  maxMigrations := maxMigrations
  costs := costs
  page := markScores dramPages scores page
  freeList := freeList
  pipe := pipe
  pc := .loopTest
  promoteIdx := 0
  demoteIdx := scores.length - 1
  moves := []
  taken := []
  returned := []

/-- The benefit of a promotion to a free DRAM page. -/
def promotionBenefit (costs : CostEnv F) (p : ArmsPage F n) : F :=
  p.score * CFloat.ofNat p.hotAge * CFloat.ofNat hfSamplePeriod * costs.latencyDiff

namespace MigrationsLoop

def goto (s : MigrationsLoop F n) (pc : LoopPc) : MigrationsLoop F n := { s with pc := pc }

/-- `np = dequeue_fifo(list)` on a list that is not empty -/
def take (s : MigrationsLoop F n) (list : FreeList) (np : PageId) : MigrationsLoop F n :=
  { s with
    freeList := Function.update s.freeList list (s.freeList list).tail
    taken := s.taken ++ [(list, np)] }

/-- `enqueue_fifo_m(&migration_queue, m_req)` -/
def submit (s : MigrationsLoop F n) (dramPage nvmPage freePage : PageId)
    (needDemotion : Bool) : MigrationsLoop F n :=
  let req := s.pipe.newReq dramPage nvmPage freePage needDemotion
  { s with
    pipe := s.pipe.submit req
    pc := .wake
    moves := s.moves ++
      [⟨req, s.promoteIdx, s.demoteIdx, (s.page nvmPage).inDram, (s.page dramPage).inDram⟩] }

/-- The next step of the policy thread.  It is undefined when the loop has
ended, and where the code would read past the end of `scores`. -/
def policyStep (s : MigrationsLoop F n) : Option (MigrationsLoop F n) :=
  match s.pc with
  | .loopTest =>
      if s.promoteIdx < s.dramPages ∧ s.promoteIdx < s.demoteIdx then
        if s.maxMigrations ≤ s.pipe.numMigrationJobs then some (s.goto .done)
        else s.scores[s.promoteIdx]?.map fun entry =>
          s.goto (if CFloat.eq entry.score (CFloat.ofRat 0) then .done else .skipPromote)
      else some (s.goto .done)
  | .skipPromote =>
      if s.promoteIdx < s.demoteIdx then
        s.scores[s.promoteIdx]?.map fun entry =>
          if (s.page entry.page).inDram then { s with promoteIdx := s.promoteIdx + 1 }
          else s.goto .selectHot
      else some (s.goto .selectHot)
  | .selectHot =>
      if s.demoteIdx ≤ s.promoteIdx then some (s.goto .done)
      else s.scores[s.promoteIdx]?.map fun entry =>
        if (s.page entry.page).inDram then s.goto .aborted
        else if (s.page entry.page).canPromote then s.goto (.takeDram entry.page)
        else { s with promoteIdx := s.promoteIdx + 1, pc := .loopTest }
  | .takeDram p =>
      match s.freeList .dram with
      | np :: _ =>
          some ((s.take .dram np).goto
            (if (s.page np).present then .freePresent np else .weighFree p np))
      | [] => some (s.goto (.skipDemote p))
  | .weighFree p np =>
      some (s.goto (if CFloat.lt (promotionBenefit s.costs (s.page p)) (migrationCost s.costs)
        then .returnFree np else .submitFree p np))
  | .returnFree np =>
      some { s with
        freeList := Function.update s.freeList .dram (s.freeList .dram ++ [np])
        returned := s.returned ++ [(.dram, np)]
        pc := .done }
  | .submitFree p np =>
      some { s.submit nullPage p np false with promoteIdx := s.promoteIdx + 1 }
  | .skipDemote p =>
      if s.promoteIdx < s.demoteIdx then
        s.scores[s.demoteIdx]?.map fun entry =>
          if (s.page entry.page).inDram then s.goto (.selectCold p)
          else { s with demoteIdx := s.demoteIdx - 1 }
      else some (s.goto (.selectCold p))
  | .selectCold p =>
      if s.demoteIdx ≤ s.promoteIdx ∨ s.demoteIdx ≤ s.dramPages then some (s.goto .done)
      else s.scores[s.demoteIdx]?.map fun entry =>
        s.goto (if (s.page entry.page).inDram ∧ 0 < (s.page entry.page).va
          then .weighSwap p entry.page else .aborted)
  | .weighSwap p cp =>
      some (s.goto (if continueMigration s.costs (s.page p) (s.page cp) then .takeNvm p cp
        else .done))
  | .takeNvm p cp =>
      match s.freeList .nvm with
      | np :: _ => some ((s.take .nvm np).goto (.submitSwap p cp np))
      | [] => some (s.goto .done)
  | .submitSwap p cp np =>
      some { s.submit cp p np true with
        promoteIdx := s.promoteIdx + 1
        demoteIdx := s.demoteIdx - 1 }
  | .wake =>
      if s.pipe.policy = .wake then
        (pipelineStep s.pipe .postSubmission).map fun pipe =>
          { s with pipe := pipe, pc := .loopTest }
      else some (s.goto .loopTest)
  | .done => none
  | .freePresent _ => none
  | .aborted => none

end MigrationsLoop

/-- The request of which worker `pc` is in the given half. -/
def Half.request : Half → Worker → Option MigrationReq
  | .demotion, .demote req => some req
  | .promotion, .promote req => some req
  | _, _ => none

/-- A half of a request exchanges the frames of the page and of the free page. -/
def swapFrames (page : PageId → ArmsPage F n) (half : Half) (req : MigrationReq) :
    PageId → ArmsPage F n :=
  let p := half.page req
  let moved := Function.update page p
    { page p with
      devdaxOffset := (page req.freePage).devdaxOffset
      inDram := !half.sourceInDram
      migrating := false }
  Function.update moved req.freePage
    (resetPageAccessFields
      { moved req.freePage with
        devdaxOffset := (page p).devdaxOffset
        inDram := half.sourceInDram
        present := false })

inductive LoopAction (F : Type)
  | policy
  | wakeUp (worker : ℕ)
  | dequeue (worker : ℕ)
  /-- a half ends; `present` is the outcome of its test -/
  | finishHalf (worker : ℕ) (half : Half) (present : Bool)
  /-- a migration thread updates the cost averages -/
  | measure (promotionCostAvg demotionCostAvg : F)
  | recycle (worker : ℕ)
  | postCompletion (worker : ℕ)
  | freeReq (worker : ℕ)

namespace MigrationsLoop

/-- An action of the pipeline that touches neither pages nor free lists. -/
def advancePipe (s : MigrationsLoop F n) (action : PipelineAction) :
    Option (MigrationsLoop F n) :=
  (pipelineStep s.pipe action).map fun pipe => { s with pipe := pipe }

end MigrationsLoop

def loopStep (s : MigrationsLoop F n) : LoopAction F → Option (MigrationsLoop F n)
  | .policy => s.policyStep
  | .wakeUp i => s.advancePipe (.wakeUp i)
  | .dequeue i => s.advancePipe (.dequeue i)
  | .finishHalf i half present =>
      match s.pipe.workers[i]?.bind half.request with
      | some req =>
          (s.advancePipe (half.finish i present)).map fun next =>
            if present then { next with page := swapFrames s.page half req } else next
      | none => none
  | .measure promotionCostAvg demotionCostAvg =>
      some { s with
        costs := ⟨promotionCostAvg, demotionCostAvg, s.costs.latencyDiff⟩ }
  | .recycle i =>
      match s.pipe.workers[i]? with
      | some (.recycle req outcome) =>
          (s.advancePipe (.recycle i)).map fun next =>
            { next with
              freeList := Function.update s.freeList outcome.freeList
                (s.freeList outcome.freeList ++ [req.freePage]) }
      | _ => none
  | .postCompletion i => s.advancePipe (.postCompletion i)
  | .freeReq i => s.advancePipe (.freeReq i)

end ArmsTiering
