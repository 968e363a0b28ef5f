import ArmsTiering.Core.Counting
import ArmsTiering.Core.Transition
import ArmsTiering.Pebs.Page

/-!
# The migration pipeline

The policy thread submits migration requests to `migration_queue`; workers
take them off, process them and report completion.  Two semaphores connect
them: `submission_sem` wakes workers and is posted for the first `batch_size`
requests of an interval only, `completion_sem` counts the completions that the
policy thread has not yet collected in `num_migration_jobs`.

What a request does to its pages is left open here: the two present tests have
any outcome, and a request can take any time.
-/

namespace ArmsTiering

/-- `struct migration_req`; `id` stands for its address. -/
structure MigrationReq where
  id : ℕ
  dramPage : PageId
  nvmPage : PageId
  freePage : PageId
  needDemotion : Bool
  deriving DecidableEq, Repr

/-- The two lists of free page structs. -/
inductive FreeList
  | dram
  | nvm
  deriving DecidableEq, Repr

def FreeList.inDram : FreeList → Bool
  | .dram => true
  | .nvm => false

/-- The three ways through the body of the worker loop. -/
inductive Outcome
  | demotionAbandoned
  | promotionAbandoned
  | migrated
  deriving DecidableEq, Repr

/-- The list on which a request's `free_page` ends up. -/
def Outcome.freeList : Outcome → FreeList
  | .demotionAbandoned => .nvm
  | .promotionAbandoned => .dram
  | .migrated => .nvm

/-- Program counter of `pebs_migration_thread`. -/
inductive Worker
  /-- in `sem_wait(&submission_sem)` -/
  | asleep
  /-- about to call `dequeue_fifo_m` -/
  | scan
  | demote (req : MigrationReq)
  | promote (req : MigrationReq)
  /-- about to enqueue `free_page` -/
  | recycle (req : MigrationReq) (outcome : Outcome)
  /-- about to call `sem_post(&completion_sem)` -/
  | post (req : MigrationReq)
  /-- about to call `free(req)` -/
  | release (req : MigrationReq)
  deriving DecidableEq, Repr

/-- Program counter of the policy thread's loop. -/
inductive Policy
  /-- up to the scores -/
  | drain
  /-- in `while (num_migration_jobs > 0)` -/
  | wait
  /-- in the migrations loop -/
  | schedule
  /-- between the enqueue of a request and `sem_post(&submission_sem)` -/
  | wake
  deriving DecidableEq, Repr

inductive PipelineEvent
  | dequeued (worker : ℕ) (req : MigrationReq)
  | recycled (req : MigrationReq) (outcome : Outcome)
  | posted (req : MigrationReq)
  | freed (req : MigrationReq)
  deriving DecidableEq, Repr

/-- State of the pipeline, with the requests issued and what happened to them
as history. -/
structure Pipeline where
  policy : Policy
  numMigrationJobs : ℕ
  batchSize : ℕ
  migrationQueue : List MigrationReq
  submissionSem : ℕ
  completionSem : ℕ
  workers : List Worker
  issued : List MigrationReq
  log : List PipelineEvent

def pipelineInit (workers : ℕ) : Pipeline where
  policy := .drain
  numMigrationJobs := 0
  batchSize := numMigrationThreads
  migrationQueue := []
  submissionSem := 0
  completionSem := 0
  workers := List.replicate workers .asleep
  issued := []
  log := []

inductive PipelineAction
  /-- no page was scored: `goto loop_end` -/
  | skipInterval
  | beginWait
  /-- `sem_wait(&completion_sem); num_migration_jobs--` -/
  | awaitCompletion
  /-- the wait is over; `batch` is this interval's `batch_size` -/
  | beginSchedule (batch : ℕ)
  /-- `enqueue_fifo_m(&migration_queue, m_req); num_migration_jobs++` -/
  | submit (dramPage nvmPage freePage : PageId) (needDemotion : Bool)
  /-- `sem_post(&submission_sem)` -/
  | postSubmission
  | endInterval
  | wakeUp (worker : ℕ)
  | dequeue (worker : ℕ)
  /-- the demote half ends; `present` is the outcome of its test -/
  | endDemote (worker : ℕ) (present : Bool)
  | endPromote (worker : ℕ) (present : Bool)
  | recycle (worker : ℕ)
  | postCompletion (worker : ℕ)
  | freeReq (worker : ℕ)

/-- The pipeline actions that touch no page. -/
def PipelineAction.plain : PipelineAction → Bool
  | .skipInterval | .beginWait | .awaitCompletion | .postSubmission | .endInterval
  | .wakeUp _ | .dequeue _ | .postCompletion _ | .freeReq _ => true
  | .beginSchedule _ | .submit _ _ _ _ | .endDemote _ _ | .endPromote _ _ | .recycle _ => false

namespace Pipeline

/-- Worker `i` moves on to `pc`. -/
def setWorker (s : Pipeline) (i : ℕ) (pc : Worker) : Pipeline :=
  { s with workers := s.workers.set i pc }

def record (s : Pipeline) (event : PipelineEvent) : Pipeline :=
  { s with log := s.log ++ [event] }

/-- The request that `arms_malloc` and the assignments to it create. -/
def newReq (s : Pipeline) (dramPage nvmPage freePage : PageId) (needDemotion : Bool) :
    MigrationReq :=
  ⟨s.issued.length, dramPage, nvmPage, freePage, needDemotion⟩

def submit (s : Pipeline) (req : MigrationReq) : Pipeline :=
  { s with
    migrationQueue := s.migrationQueue ++ [req]
    issued := s.issued ++ [req]
    numMigrationJobs := s.numMigrationJobs + 1
    policy := if s.numMigrationJobs + 1 ≤ s.batchSize then .wake else .schedule }

end Pipeline

open Pipeline in
def pipelineStep (s : Pipeline) : PipelineAction → Option Pipeline
  | .skipInterval => if s.policy = .drain then some s else none
  | .beginWait => if s.policy = .drain then some { s with policy := .wait } else none
  | .awaitCompletion =>
      if s.policy = .wait ∧ 0 < s.numMigrationJobs ∧ 0 < s.completionSem then
        some { s with
          completionSem := s.completionSem - 1
          numMigrationJobs := s.numMigrationJobs - 1 }
      else none
  | .beginSchedule batch =>
      if s.policy = .wait ∧ s.numMigrationJobs = 0 ∧ 1 ≤ batch then
        some { s with policy := .schedule, numMigrationJobs := 0, batchSize := batch }
      else none
  | .submit dramPage nvmPage freePage needDemotion =>
      if s.policy = .schedule then
        some (s.submit (s.newReq dramPage nvmPage freePage needDemotion))
      else none
  | .postSubmission =>
      if s.policy = .wake then
        some { s with policy := .schedule, submissionSem := s.submissionSem + 1 }
      else none
  | .endInterval => if s.policy = .schedule then some { s with policy := .drain } else none
  | .wakeUp i =>
      match s.workers[i]? with
      | some .asleep =>
          if 0 < s.submissionSem then
            some ({ s with submissionSem := s.submissionSem - 1 }.setWorker i .scan)
          else none
      | _ => none
  | .dequeue i =>
      match s.workers[i]? with
      | some .scan =>
          match s.migrationQueue with
          | [] => some (s.setWorker i .asleep)
          | req :: rest =>
              some (({ s with migrationQueue := rest }.setWorker i
                (if req.needDemotion then .demote req else .promote req)).record
                  (.dequeued i req))
      | _ => none
  | .endDemote i present =>
      match s.workers[i]? with
      | some (.demote req) =>
          some (s.setWorker i
            (if present then .promote req else .recycle req .demotionAbandoned))
      | _ => none
  | .endPromote i present =>
      match s.workers[i]? with
      | some (.promote req) =>
          some (s.setWorker i
            (.recycle req (if present then .migrated else .promotionAbandoned)))
      | _ => none
  | .recycle i =>
      match s.workers[i]? with
      | some (.recycle req outcome) =>
          some ((s.setWorker i (.post req)).record (.recycled req outcome))
      | _ => none
  | .postCompletion i =>
      match s.workers[i]? with
      | some (.post req) =>
          some (({ s with completionSem := s.completionSem + 1 }.setWorker i
            (.release req)).record (.posted req))
      | _ => none
  | .freeReq i =>
      match s.workers[i]? with
      | some (.release req) => some ((s.setWorker i .scan).record (.freed req))
      | _ => none

namespace Pipeline

/-- What one step can do: the inversion of `pipelineStep`, one constructor for
each branch that moves. -/
inductive Step (s : Pipeline) : PipelineAction → Pipeline → Prop
  | skipInterval (hpolicy : s.policy = .drain) : Step s .skipInterval s
  | beginWait (hpolicy : s.policy = .drain) : Step s .beginWait { s with policy := .wait }
  | awaitCompletion (hpolicy : s.policy = .wait) (hjobs : 0 < s.numMigrationJobs)
      (hsem : 0 < s.completionSem) :
      Step s .awaitCompletion
        { s with
          completionSem := s.completionSem - 1
          numMigrationJobs := s.numMigrationJobs - 1 }
  | beginSchedule (batch : ℕ) (hpolicy : s.policy = .wait) (hjobs : s.numMigrationJobs = 0)
      (hbatch : 1 ≤ batch) :
      Step s (.beginSchedule batch)
        { s with policy := .schedule, numMigrationJobs := 0, batchSize := batch }
  | submit (dramPage nvmPage freePage : PageId) (needDemotion : Bool)
      (hpolicy : s.policy = .schedule) :
      Step s (.submit dramPage nvmPage freePage needDemotion)
        (s.submit (s.newReq dramPage nvmPage freePage needDemotion))
  | postSubmission (hpolicy : s.policy = .wake) :
      Step s .postSubmission
        { s with policy := .schedule, submissionSem := s.submissionSem + 1 }
  | endInterval (hpolicy : s.policy = .schedule) :
      Step s .endInterval { s with policy := .drain }
  | wakeUp (i : ℕ) (hworker : s.workers[i]? = some .asleep) (hsem : 0 < s.submissionSem) :
      Step s (.wakeUp i) ({ s with submissionSem := s.submissionSem - 1 }.setWorker i .scan)
  | dequeueNone (i : ℕ) (hworker : s.workers[i]? = some .scan)
      (hqueue : s.migrationQueue = []) :
      Step s (.dequeue i) (s.setWorker i .asleep)
  | dequeue (i : ℕ) (req : MigrationReq) (rest : List MigrationReq)
      (hworker : s.workers[i]? = some .scan) (hqueue : s.migrationQueue = req :: rest) :
      Step s (.dequeue i)
        (({ s with migrationQueue := rest }.setWorker i
          (if req.needDemotion then .demote req else .promote req)).record (.dequeued i req))
  | endDemote (i : ℕ) (present : Bool) (req : MigrationReq)
      (hworker : s.workers[i]? = some (.demote req)) :
      Step s (.endDemote i present)
        (s.setWorker i (if present then .promote req else .recycle req .demotionAbandoned))
  | endPromote (i : ℕ) (present : Bool) (req : MigrationReq)
      (hworker : s.workers[i]? = some (.promote req)) :
      Step s (.endPromote i present)
        (s.setWorker i (.recycle req (if present then .migrated else .promotionAbandoned)))
  | recycle (i : ℕ) (req : MigrationReq) (outcome : Outcome)
      (hworker : s.workers[i]? = some (.recycle req outcome)) :
      Step s (.recycle i)
        ((s.setWorker i (.post req)).record (.recycled req outcome))
  | postCompletion (i : ℕ) (req : MigrationReq)
      (hworker : s.workers[i]? = some (.post req)) :
      Step s (.postCompletion i)
        (({ s with completionSem := s.completionSem + 1 }.setWorker i
          (.release req)).record (.posted req))
  | freeReq (i : ℕ) (req : MigrationReq) (hworker : s.workers[i]? = some (.release req)) :
      Step s (.freeReq i) ((s.setWorker i .scan).record (.freed req))

theorem step_cases {s next : Pipeline} {action : PipelineAction}
    (hstep : pipelineStep s action = some next) : Step s action next := by
  cases action <;> simp only [pipelineStep] at hstep
  case skipInterval =>
    split at hstep <;> simp_all [Step.skipInterval]
  case beginWait =>
    split at hstep <;> simp only [Option.some.injEq, reduceCtorEq] at hstep
    subst hstep
    exact .beginWait ‹_›
  case awaitCompletion =>
    split at hstep <;> simp only [Option.some.injEq, reduceCtorEq] at hstep
    rename_i hguard
    subst hstep
    exact .awaitCompletion hguard.1 hguard.2.1 hguard.2.2
  case beginSchedule batch =>
    split at hstep <;> simp only [Option.some.injEq, reduceCtorEq] at hstep
    rename_i hguard
    subst hstep
    exact .beginSchedule batch hguard.1 hguard.2.1 hguard.2.2
  case submit =>
    split at hstep <;> simp only [Option.some.injEq, reduceCtorEq] at hstep
    subst hstep
    exact .submit _ _ _ _ ‹_›
  case postSubmission =>
    split at hstep <;> simp only [Option.some.injEq, reduceCtorEq] at hstep
    subst hstep
    exact .postSubmission ‹_›
  case endInterval =>
    split at hstep <;> simp only [Option.some.injEq, reduceCtorEq] at hstep
    subst hstep
    exact .endInterval ‹_›
  case wakeUp i =>
    split at hstep
    · split at hstep <;> simp only [Option.some.injEq, reduceCtorEq] at hstep
      subst hstep
      exact .wakeUp i ‹_› ‹_›
    · cases hstep
  case dequeue i =>
    split at hstep
    · split at hstep <;> simp only [Option.some.injEq] at hstep <;> subst hstep
      · exact .dequeueNone i ‹_› ‹_›
      · exact .dequeue i _ _ ‹_› ‹_›
    · cases hstep
  all_goals
    split at hstep
    · simp only [Option.some.injEq] at hstep
      subst hstep
      constructor
      assumption
    · cases hstep

end Pipeline

end ArmsTiering
