import ArmsTiering.Migration.Pending
import Mathlib.Data.List.Nodup

/-!
# Requests and completions balance

`num_migration_jobs` counts the requests queued, the requests held by workers
and the uncollected completions; every request passes through each station of
the pipeline once.
-/

namespace ArmsTiering

open Counting

/-! ## Where a request is, and what happened to it -/

/-- The worker holds a request whose completion it has not posted. -/
def Worker.holds : Worker → Bool
  | .asleep | .scan | .release _ => false
  | .demote _ | .promote _ | .recycle _ _ | .post _ => true

def Worker.worksOn (req : MigrationReq) : Worker → Bool
  | .demote r | .promote r | .recycle r _ => r == req
  | _ => false

def Worker.postsFor (req : MigrationReq) : Worker → Bool
  | .post r => r == req
  | _ => false

def Worker.releases (req : MigrationReq) : Worker → Bool
  | .release r => r == req
  | _ => false

def PipelineEvent.dequeues (req : MigrationReq) : PipelineEvent → Bool
  | .dequeued _ r => r == req
  | _ => false

def PipelineEvent.recycles (req : MigrationReq) : PipelineEvent → Bool
  | .recycled r _ => r == req
  | _ => false

def PipelineEvent.posts (req : MigrationReq) : PipelineEvent → Bool
  | .posted r => r == req
  | _ => false

def PipelineEvent.frees (req : MigrationReq) : PipelineEvent → Bool
  | .freed r => r == req
  | _ => false

namespace Pipeline

/-- Requests queued, held by workers, or completed and not yet collected. -/
def JobsBalance (s : Pipeline) : Prop :=
  s.numMigrationJobs =
    s.migrationQueue.length + s.workers.countP Worker.holds + s.completionSem

/-- Flow of one request through the stations: what has entered a station has
either left it or is still there. -/
structure Flow (s : Pipeline) (req : MigrationReq) : Prop where
  dequeued : s.migrationQueue.countP (· == req) +
      s.log.countP (PipelineEvent.dequeues req) = s.issued.countP (· == req)
  recycled : s.log.countP (PipelineEvent.dequeues req) =
    s.workers.countP (Worker.worksOn req) + s.log.countP (PipelineEvent.recycles req)
  posted : s.log.countP (PipelineEvent.recycles req) =
    s.workers.countP (Worker.postsFor req) + s.log.countP (PipelineEvent.posts req)
  freed : s.log.countP (PipelineEvent.posts req) =
    s.workers.countP (Worker.releases req) + s.log.countP (PipelineEvent.frees req)

theorem jobsBalance_init (workers : ℕ) : JobsBalance (pipelineInit workers) := by
  simp [JobsBalance, pipelineInit, List.countP_replicate, Worker.holds]

theorem flow_init (workers : ℕ) (req : MigrationReq) : Flow (pipelineInit workers) req := by
  constructor <;>
    simp [pipelineInit, List.countP_replicate, Worker.worksOn, Worker.postsFor, Worker.releases]

@[simp] theorem setWorker_workers (s : Pipeline) (i : ℕ) (pc : Worker) :
    (s.setWorker i pc).workers = s.workers.set i pc := rfl

theorem Step.jobsBalance {s next : Pipeline} {action : PipelineAction}
    (hstep : Step s action next) (hjobs : JobsBalance s) : JobsBalance next := by
  unfold JobsBalance at hjobs ⊢
  cases hstep with
  | skipInterval => exact hjobs
  | beginWait => exact hjobs
  | awaitCompletion hpolicy hpos hsem =>
      simp only
      omega
  | beginSchedule batch hpolicy hzero hbatch =>
      simp only
      omega
  | submit =>
      simp only [Pipeline.submit, List.length_append, List.length_singleton]
      omega
  | postSubmission => exact hjobs
  | endInterval => exact hjobs
  | wakeUp i hworker hsem =>
      have hcount := countP_set Worker.holds hworker .scan
      simp only [Worker.holds, one_false] at hcount
      simp only [setWorker]
      omega
  | dequeueNone i hworker hqueue =>
      have hcount := countP_set Worker.holds hworker .asleep
      simp only [Worker.holds, one_false] at hcount
      simp only [setWorker]
      omega
  | dequeue i req rest hworker hqueue =>
      have hcount := countP_set Worker.holds hworker
        (if req.needDemotion then .demote req else .promote req)
      have hholds : Worker.holds (if req.needDemotion then .demote req else .promote req) =
          true := by
        split <;> rfl
      rw [hholds] at hcount
      simp only [Worker.holds, one_false, one_true] at hcount
      simp only [hqueue, List.length_cons] at hjobs
      simp only [setWorker, record]
      omega
  | endDemote i present req hworker =>
      have hcount := countP_set Worker.holds hworker
        (if present then .promote req else .recycle req .demotionAbandoned)
      have hholds : Worker.holds
          (if present then .promote req else .recycle req .demotionAbandoned) = true := by
        split <;> rfl
      rw [hholds] at hcount
      simp only [Worker.holds, one_true] at hcount
      simp only [setWorker]
      omega
  | endPromote i present req hworker =>
      have hcount := countP_set Worker.holds hworker
        (.recycle req (if present then .migrated else .promotionAbandoned))
      simp only [Worker.holds, one_true] at hcount
      simp only [setWorker]
      omega
  | recycle i req outcome hworker =>
      have hcount := countP_set Worker.holds hworker (.post req)
      simp only [Worker.holds, one_true] at hcount
      simp only [setWorker, record]
      omega
  | postCompletion i req hworker =>
      have hcount := countP_set Worker.holds hworker (.release req)
      simp only [Worker.holds, one_true, one_false] at hcount
      simp only [setWorker, record]
      omega
  | freeReq i req hworker =>
      have hcount := countP_set Worker.holds hworker .scan
      simp only [Worker.holds, one_false] at hcount
      simp only [setWorker, record]
      omega

/-- A move of one worker, seen by the three station counts. -/
theorem stationCounts {pool : List Worker} {i : ℕ} {old : Worker} (req : MigrationReq)
    (hworker : pool[i]? = some old) (new : Worker) :
    ((pool.set i new).countP (Worker.worksOn req) + one (old.worksOn req) =
        pool.countP (Worker.worksOn req) + one (new.worksOn req)) ∧
      ((pool.set i new).countP (Worker.postsFor req) + one (old.postsFor req) =
        pool.countP (Worker.postsFor req) + one (new.postsFor req)) ∧
      ((pool.set i new).countP (Worker.releases req) + one (old.releases req) =
        pool.countP (Worker.releases req) + one (new.releases req)) :=
  ⟨countP_set _ hworker new, countP_set _ hworker new, countP_set _ hworker new⟩

/-- A move between two states with the same stations keeps the flow. -/
theorem Flow.setWorker {s : Pipeline} {req : MigrationReq} (hflow : Flow s req) {i : ℕ}
    {old new : Worker} (hworker : s.workers[i]? = some old)
    (hworks : old.worksOn req = new.worksOn req) (hposts : old.postsFor req = new.postsFor req)
    (hreleases : old.releases req = new.releases req) : Flow (s.setWorker i new) req := by
  obtain ⟨hcWorks, hcPosts, hcReleases⟩ := stationCounts req hworker new
  obtain ⟨hdequeued, hrecycled, hposted, hfreed⟩ := hflow
  rw [hworks] at hcWorks
  rw [hposts] at hcPosts
  rw [hreleases] at hcReleases
  refine ⟨hdequeued, ?_, ?_, ?_⟩
  · simp only [setWorker_workers]
    simp only [Pipeline.setWorker]
    omega
  · simp only [setWorker_workers]
    simp only [Pipeline.setWorker]
    omega
  · simp only [setWorker_workers]
    simp only [Pipeline.setWorker]
    omega

theorem Step.flow {s next : Pipeline} {action : PipelineAction} (hstep : Step s action next)
    (req : MigrationReq) (hflow : Flow s req) : Flow next req := by
  cases hstep with
  | skipInterval => exact hflow
  | beginWait => exact ⟨hflow.1, hflow.2, hflow.3, hflow.4⟩
  | awaitCompletion => exact ⟨hflow.1, hflow.2, hflow.3, hflow.4⟩
  | beginSchedule => exact ⟨hflow.1, hflow.2, hflow.3, hflow.4⟩
  | submit dramPage nvmPage freePage needDemotion =>
      refine ⟨?_, hflow.2, hflow.3, hflow.4⟩
      have hdequeued := hflow.dequeued
      simp only [Pipeline.submit, countP_append_singleton]
      omega
  | postSubmission => exact ⟨hflow.1, hflow.2, hflow.3, hflow.4⟩
  | endInterval => exact ⟨hflow.1, hflow.2, hflow.3, hflow.4⟩
  | wakeUp i hworker hsem =>
      have hmoved : Flow (s.setWorker i .scan) req := hflow.setWorker hworker rfl rfl rfl
      exact ⟨hmoved.1, hmoved.2, hmoved.3, hmoved.4⟩
  | dequeueNone i hworker hqueue => exact hflow.setWorker hworker rfl rfl rfl
  | dequeue i r rest hworker hqueue =>
      obtain ⟨hdequeued, hrecycled, hposted, hfreed⟩ := hflow
      obtain ⟨hworks, hposts, hreleases⟩ := stationCounts req hworker
        (if r.needDemotion then .demote r else .promote r)
      have hstation :
          Worker.worksOn req (if r.needDemotion then .demote r else .promote r) = (r == req) ∧
          Worker.postsFor req (if r.needDemotion then .demote r else .promote r) = false ∧
          Worker.releases req (if r.needDemotion then .demote r else .promote r) = false := by
        split <;> exact ⟨rfl, rfl, rfl⟩
      rw [hstation.1] at hworks
      rw [hstation.2.1] at hposts
      rw [hstation.2.2] at hreleases
      simp only [Worker.worksOn, Worker.postsFor, Worker.releases, one_false]
        at hworks hposts hreleases
      simp only [hqueue, countP_cons] at hdequeued
      constructor <;>
        simp only [record, Pipeline.setWorker, countP_append_singleton,
          PipelineEvent.dequeues, PipelineEvent.recycles, PipelineEvent.posts,
          PipelineEvent.frees, one_false] <;> omega
  | endDemote i present r hworker =>
      apply hflow.setWorker hworker <;> split <;> rfl
  | endPromote i present r hworker => exact hflow.setWorker hworker rfl rfl rfl
  | recycle i r outcome hworker =>
      obtain ⟨hdequeued, hrecycled, hposted, hfreed⟩ := hflow
      obtain ⟨hworks, hposts, hreleases⟩ := stationCounts req hworker (.post r)
      simp only [Worker.worksOn, Worker.postsFor, Worker.releases, one_false]
        at hworks hposts hreleases
      constructor <;>
        simp only [record, Pipeline.setWorker, countP_append_singleton,
          PipelineEvent.dequeues, PipelineEvent.recycles, PipelineEvent.posts,
          PipelineEvent.frees, one_false] <;> omega
  | postCompletion i r hworker =>
      obtain ⟨hdequeued, hrecycled, hposted, hfreed⟩ := hflow
      obtain ⟨hworks, hposts, hreleases⟩ := stationCounts req hworker (.release r)
      simp only [Worker.worksOn, Worker.postsFor, Worker.releases, one_false]
        at hworks hposts hreleases
      constructor <;>
        simp only [record, Pipeline.setWorker, countP_append_singleton,
          PipelineEvent.dequeues, PipelineEvent.recycles, PipelineEvent.posts,
          PipelineEvent.frees, one_false] <;> omega
  | freeReq i r hworker =>
      obtain ⟨hdequeued, hrecycled, hposted, hfreed⟩ := hflow
      obtain ⟨hworks, hposts, hreleases⟩ := stationCounts req hworker .scan
      simp only [Worker.worksOn, Worker.postsFor, Worker.releases, one_false]
        at hworks hposts hreleases
      constructor <;>
        simp only [record, Pipeline.setWorker, countP_append_singleton,
          PipelineEvent.dequeues, PipelineEvent.recycles, PipelineEvent.posts,
          PipelineEvent.frees, one_false] <;> omega

/-- Requests are distinguished by their address. -/
def IdsFresh (s : Pipeline) : Prop :=
  s.issued.map MigrationReq.id = List.range s.issued.length

theorem Step.idsFresh {s next : Pipeline} {action : PipelineAction}
    (hstep : Step s action next) (hids : IdsFresh s) : IdsFresh next := by
  unfold IdsFresh at hids ⊢
  cases hstep with
  | submit dramPage nvmPage freePage needDemotion =>
      simp only [Pipeline.submit, List.map_append, hids, List.length_append,
        List.length_singleton, List.range_succ]
      rfl
  | _ => exact hids

theorem IdsFresh.count_issued {s : Pipeline} (hids : IdsFresh s) {req : MigrationReq}
    (hreq : req ∈ s.issued) : s.issued.countP (· == req) = 1 := by
  have hnodup : s.issued.Nodup := by
    apply List.Nodup.of_map MigrationReq.id
    rw [hids]
    exact List.nodup_range
  exact List.count_eq_one_of_mem hnodup hreq

/-! ## What every state satisfies -/

/-- Each of the four events of a request happens exactly once: it has happened
once as soon as the request has passed the stations before it. -/
structure HandledOnce (s : Pipeline) (req : MigrationReq) : Prop where
  dequeued : s.log.countP (PipelineEvent.dequeues req) +
    s.migrationQueue.countP (· == req) = 1
  recycled : s.log.countP (PipelineEvent.recycles req) +
    s.workers.countP (Worker.worksOn req) + s.migrationQueue.countP (· == req) = 1
  posted : s.log.countP (PipelineEvent.posts req) +
    s.workers.countP (Worker.postsFor req) + s.workers.countP (Worker.worksOn req) +
    s.migrationQueue.countP (· == req) = 1
  freed : s.log.countP (PipelineEvent.frees req) +
    s.workers.countP (Worker.releases req) + s.workers.countP (Worker.postsFor req) +
    s.workers.countP (Worker.worksOn req) + s.migrationQueue.countP (· == req) = 1

theorem Flow.handledOnce {s : Pipeline} {req : MigrationReq} (hflow : Flow s req)
    (hissued : s.issued.countP (· == req) = 1) : HandledOnce s req := by
  obtain ⟨hdequeued, hrecycled, hposted, hfreed⟩ := hflow
  constructor <;> omega

structure PipelineInv (s : Pipeline) : Prop where
  jobs : JobsBalance s
  flow : ∀ req, Flow s req
  ids : IdsFresh s

theorem pipelineInv_init (workers : ℕ) : PipelineInv (pipelineInit workers) :=
  ⟨jobsBalance_init workers, flow_init workers, rfl⟩

theorem PipelineInv.step {s next : Pipeline} {action : PipelineAction} (hinv : PipelineInv s)
    (hstep : pipelineStep s action = some next) : PipelineInv next :=
  ⟨(step_cases hstep).jobsBalance hinv.jobs,
    fun req => (step_cases hstep).flow req (hinv.flow req),
    (step_cases hstep).idsFresh hinv.ids⟩

theorem PipelineInv.handledOnce {s : Pipeline} (hinv : PipelineInv s) {req : MigrationReq}
    (hreq : req ∈ s.issued) : HandledOnce s req :=
  (hinv.flow req).handledOnce (hinv.ids.count_issued hreq)

/-- With no job left, nothing is queued and no worker holds a request. -/
theorem JobsBalance.quiescent {s : Pipeline} (hjobs : JobsBalance s)
    (hzero : s.numMigrationJobs = 0) :
    s.migrationQueue = [] ∧ s.workers.countP Worker.holds = 0 ∧ s.completionSem = 0 := by
  unfold JobsBalance at hjobs
  refine ⟨List.eq_nil_of_length_eq_zero ?_, ?_, ?_⟩ <;> omega

/-- The wait loop ends with every request out of the migration threads' hands. -/
theorem JobsBalance.collected {s next : Pipeline} (hjobs : JobsBalance s) {batch : ℕ}
    (hstep : Step s (.beginSchedule batch) next) : next.Collected := by
  cases hstep with
  | beginSchedule _ hpolicy hzero hbatch =>
      obtain ⟨hqueue, hholds, -⟩ := hjobs.quiescent hzero
      refine ⟨rfl, fun req hpending => ?_⟩
      rcases hpending with hqueued | ⟨worker, hworker, hreq⟩
      · change req ∈ s.migrationQueue at hqueued
        rw [hqueue] at hqueued
        exact absurd hqueued List.not_mem_nil
      · have hidle := List.countP_eq_zero.mp hholds worker hworker
        cases worker <;> simp_all [Worker.holds, Worker.inService]

theorem worksOn_le_holds (pool : List Worker) (req : MigrationReq) :
    pool.countP (Worker.worksOn req) ≤ pool.countP Worker.holds := by
  apply List.countP_mono_left
  intro worker _ hworks
  cases worker <;> simp_all [Worker.worksOn, Worker.holds]

theorem postsFor_le_holds (pool : List Worker) (req : MigrationReq) :
    pool.countP (Worker.postsFor req) ≤ pool.countP Worker.holds := by
  apply List.countP_mono_left
  intro worker _ hposts
  cases worker <;> simp_all [Worker.postsFor, Worker.holds]

/-- The completion of the request has been posted. -/
def Completed (s : Pipeline) (req : MigrationReq) : Prop :=
  s.log.countP (PipelineEvent.posts req) = 1

theorem PipelineInv.completed {s : Pipeline} (hinv : PipelineInv s)
    (hzero : s.numMigrationJobs = 0) {req : MigrationReq} (hreq : req ∈ s.issued) :
    Completed s req := by
  obtain ⟨hqueue, hholds, -⟩ := hinv.jobs.quiescent hzero
  have hposted := (hinv.handledOnce hreq).posted
  have hworks := worksOn_le_holds s.workers req
  have hposts := postsFor_le_holds s.workers req
  rw [hqueue, List.countP_nil] at hposted
  unfold Completed
  omega

end Pipeline

/-- In every state of every run, with any number of workers: the job counter
balances, every request is handled exactly once, and when the wait loop ends
every request issued so far has completed. -/
theorem requests_balance (workers : ℕ) (actions : List PipelineAction) :
    Transition.Along pipelineStep
      (fun s =>
        s.numMigrationJobs =
            s.migrationQueue.length + s.workers.countP Worker.holds + s.completionSem ∧
          (∀ req ∈ s.issued, s.HandledOnce req) ∧
          (s.policy = .wait → s.numMigrationJobs = 0 → ∀ req ∈ s.issued, s.Completed req))
      (pipelineInit workers) actions := by
  refine Transition.along_of_step Pipeline.PipelineInv ?_ ?_
    (Pipeline.pipelineInv_init workers)
  · intro s hinv
    exact ⟨hinv.jobs, fun req hreq => hinv.handledOnce hreq,
      fun _ hzero req hreq => hinv.completed hzero hreq⟩
  · intro s action next hinv hstep
    exact hinv.step hstep

end ArmsTiering
