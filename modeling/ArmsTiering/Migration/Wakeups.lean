import ArmsTiering.Migration.Balance

/-!
# Lost wake-ups

Only the first `batch_size` requests of an interval are followed by a post of
`submission_sem`; the later ones rely on a worker that is still draining the
queue.  A worker that found the queue empty in between is asleep again, and a
request that arrives then is never picked up: the policy thread blocks for good
in the next wait for completions.
-/

namespace ArmsTiering

open Counting

namespace Pipeline

/-- The policy thread is blocked on `completion_sem` while requests are queued
and every worker is blocked on `submission_sem`. -/
structure Wedged (s : Pipeline) : Prop where
  policy : s.policy = .wait
  jobs : 0 < s.numMigrationJobs
  completion : s.completionSem = 0
  queue : s.migrationQueue ≠ []
  submission : s.submissionSem = 0
  workers : ∀ worker ∈ s.workers, worker = .asleep

/-- Some worker is awake, or the next one to look will be. -/
def SomeoneAwake (s : Pipeline) : Prop :=
  0 < s.submissionSem ∨ ∃ worker ∈ s.workers, worker ≠ .asleep

/-- A request beyond the first `batch_size` of its interval, which no post
follows, is queued only while someone is awake. -/
def SubmitsToAwake (s : Pipeline) : PipelineAction → Prop
  | .submit _ _ _ _ => s.batchSize < s.numMigrationJobs + 1 → SomeoneAwake s
  | _ => True

/-- A queued request will be seen: someone is awake, or the policy thread is
about to post. -/
def Attended (s : Pipeline) : Prop :=
  s.migrationQueue ≠ [] → SomeoneAwake s ∨ s.policy = .wake

theorem attended_init (workers : ℕ) : Attended (pipelineInit workers) :=
  fun hqueue => absurd rfl hqueue

theorem Attended.not_wedged {s : Pipeline} (hattended : Attended s) : ¬ Wedged s := by
  intro hwedged
  obtain (hsem | ⟨worker, hmem, hawake⟩) | hwake := hattended hwedged.queue
  · have := hwedged.submission
    omega
  · exact hawake (hwedged.workers worker hmem)
  · rw [hwedged.policy] at hwake
    cases hwake

/-- A worker that moved to a state other than sleep is awake. -/
theorem someoneAwake_set {pool : List Worker} {i : ℕ} {old new : Worker}
    (hworker : pool[i]? = some old) (hnew : new ≠ .asleep) :
    ∃ worker ∈ pool.set i new, worker ≠ .asleep := by
  obtain ⟨hi, -⟩ := List.getElem?_eq_some_iff.mp hworker
  exact ⟨new, List.mem_set hi new, hnew⟩

/-- Step lemma: a step that submits only to awake workers leaves no queued
request unattended. -/
theorem Step.attended {s next : Pipeline} {action : PipelineAction}
    (hstep : Step s action next) (hsubmits : SubmitsToAwake s action)
    (hattended : Attended s) : Attended next := by
  intro hqueue
  cases hstep with
  | skipInterval => exact hattended hqueue
  | beginWait hpolicy =>
      obtain hawake | hwake := hattended hqueue
      · exact Or.inl hawake
      · rw [hpolicy] at hwake
        cases hwake
  | awaitCompletion hpolicy hjobs hsem => exact hattended hqueue
  | beginSchedule batch hpolicy hjobs hbatch =>
      obtain hawake | hwake := hattended hqueue
      · exact Or.inl hawake
      · rw [hpolicy] at hwake
        cases hwake
  | submit dramPage nvmPage freePage needDemotion hpolicy =>
      by_cases hposted : s.numMigrationJobs + 1 ≤ s.batchSize
      · exact Or.inr (by simp [Pipeline.submit, hposted])
      · exact Or.inl (hsubmits (by omega))
  | postSubmission hpolicy => exact Or.inl (Or.inl (Nat.succ_pos _))
  | endInterval hpolicy =>
      obtain hawake | hwake := hattended hqueue
      · exact Or.inl hawake
      · rw [hpolicy] at hwake
        cases hwake
  | wakeUp i hworker hsem =>
      exact Or.inl (Or.inr (someoneAwake_set hworker (by simp)))
  | dequeueNone i hworker hempty => exact absurd hempty hqueue
  | dequeue i req rest hworker hhead =>
      refine Or.inl (Or.inr (someoneAwake_set hworker ?_))
      split <;> simp
  | endDemote i present req hworker =>
      refine Or.inl (Or.inr (someoneAwake_set hworker ?_))
      split <;> simp
  | endPromote i present req hworker =>
      exact Or.inl (Or.inr (someoneAwake_set hworker (by simp)))
  | recycle i req outcome hworker =>
      exact Or.inl (Or.inr (someoneAwake_set hworker (by simp)))
  | postCompletion i req hworker =>
      exact Or.inl (Or.inr (someoneAwake_set hworker (by simp)))
  | freeReq i req hworker =>
      exact Or.inl (Or.inr (someoneAwake_set hworker (by simp)))

/-! ## The way into the wedge -/

/-- Waiting out the remaining completions. -/
theorem run_awaitCompletion (count : ℕ) {s : Pipeline} (hpolicy : s.policy = .wait)
    (hsem : s.completionSem = count) (hjobs : count ≤ s.numMigrationJobs) :
    Transition.run pipelineStep s (List.replicate count .awaitCompletion) =
      some { s with
        completionSem := 0
        numMigrationJobs := s.numMigrationJobs - count } := by
  induction count generalizing s with
  | zero =>
      cases s
      simp_all
  | succ count ih =>
      let next : Pipeline :=
        { s with
          completionSem := s.completionSem - 1
          numMigrationJobs := s.numMigrationJobs - 1 }
      have hstep : pipelineStep s .awaitCompletion = some next := by
        rw [pipelineStep, if_pos ⟨hpolicy, by omega, by omega⟩]
      have hnextPolicy : next.policy = .wait := hpolicy
      have hnextSem : next.completionSem = count := by
        change s.completionSem - 1 = count
        omega
      have hnextJobs : count ≤ next.numMigrationJobs := by
        change count ≤ s.numMigrationJobs - 1
        omega
      rw [List.replicate_succ, Transition.run, hstep, Option.bind_some,
        ih hnextPolicy hnextSem hnextJobs]
      simp only [next, Option.some.injEq, Pipeline.mk.injEq, and_true, true_and]
      omega

theorem countP_holds_of_asleep {pool : List Worker}
    (hasleep : ∀ worker ∈ pool, worker = .asleep) : pool.countP Worker.holds = 0 := by
  rw [List.countP_eq_zero]
  intro worker hmem
  rw [hasleep worker hmem]
  simp [Worker.holds]

/-- Once a request is queued with nobody awake and no post to follow, the
policy thread walks into the wedge on its own. -/
theorem JobsBalance.run_to_wedge {s : Pipeline} (hjobs : JobsBalance s)
    (hpolicy : s.policy = .schedule) (hqueue : s.migrationQueue ≠ [])
    (hsem : s.submissionSem = 0) (hasleep : ∀ worker ∈ s.workers, worker = .asleep) :
    ∃ more final, Transition.run pipelineStep s more = some final ∧ Wedged final := by
  have hbalance : s.numMigrationJobs = s.migrationQueue.length + s.completionSem := by
    have hholds := countP_holds_of_asleep hasleep
    unfold JobsBalance at hjobs
    omega
  have hlength : 0 < s.migrationQueue.length := List.length_pos_iff.mpr hqueue
  let waiting : Pipeline := { s with policy := .wait }
  let final : Pipeline :=
    { waiting with
      completionSem := 0
      numMigrationJobs := waiting.numMigrationJobs - s.completionSem }
  have hwait : Transition.run pipelineStep s [.endInterval, .beginWait] = some waiting := by
    simp [Transition.run, pipelineStep, hpolicy, waiting]
  have hcollected : s.completionSem ≤ waiting.numMigrationJobs := by
    change s.completionSem ≤ s.numMigrationJobs
    omega
  have hcollect : Transition.run pipelineStep waiting
      (List.replicate s.completionSem .awaitCompletion) = some final :=
    run_awaitCompletion s.completionSem rfl rfl hcollected
  have hjobsLeft : 0 < final.numMigrationJobs := by
    change 0 < s.numMigrationJobs - s.completionSem
    omega
  refine ⟨[.endInterval, .beginWait] ++ List.replicate s.completionSem .awaitCompletion,
    final, ?_, ?_⟩
  · rw [Transition.run_append, hwait, Option.bind_some]
    exact hcollect
  · exact
      { policy := rfl
        jobs := hjobsLeft
        completion := rfl
        queue := hqueue
        submission := hsem
        workers := hasleep }

end Pipeline

/-- A run whose every submission without a wake-up meets someone awake never
wedges, with any number of workers and any batch sizes; and from a state that a
run reaches, a submission that meets nobody awake can be continued to a wedge. -/
theorem never_wedged_of_submitsToAwake (workers : ℕ) (actions : List PipelineAction) :
    (Transition.Meets pipelineStep Pipeline.SubmitsToAwake (pipelineInit workers) actions →
      Transition.Along pipelineStep (fun s => ¬ s.Wedged) (pipelineInit workers) actions) ∧
    (∀ s next action, Transition.run pipelineStep (pipelineInit workers) actions = some s →
      pipelineStep s action = some next → ¬ s.SubmitsToAwake action →
        ∃ more final, Transition.run pipelineStep next more = some final ∧ final.Wedged) := by
  constructor
  · intro hmeets
    refine Transition.along_of_meets Pipeline.Attended ?_ ?_
      (Pipeline.attended_init workers) hmeets
    · intro s hattended
      exact hattended.not_wedged
    · intro s action next hattended hsubmits hstep
      exact (Pipeline.step_cases hstep).attended hsubmits hattended
  · intro s next action hrun hstep hviolates
    have hinv := Transition.run_preserves Pipeline.PipelineInv
      (fun s action next hinv hstep => hinv.step hstep)
      (Pipeline.pipelineInv_init workers) hrun
    have hnext := hinv.step hstep
    cases Pipeline.step_cases hstep with
    | submit dramPage nvmPage freePage needDemotion hpolicy =>
        simp only [Pipeline.SubmitsToAwake, Pipeline.SomeoneAwake, Classical.not_imp, not_or,
          not_exists, not_and, not_not] at hviolates
        obtain ⟨hbatch, hsem, hasleep⟩ := hviolates
        refine hnext.jobs.run_to_wedge ?_ ?_ (Nat.eq_zero_of_not_pos hsem) hasleep
        · simp [Pipeline.submit, Nat.not_le.mpr hbatch]
        · simp [Pipeline.submit]
    | _ => exact absurd trivial hviolates

/-- One worker, batches of one: the worker finishes the first request and goes
back to sleep before the second one is queued. -/
theorem secondRequest_wedges :
    ¬ ∀ actions : List PipelineAction,
      Transition.Along pipelineStep (fun s => ¬ s.Wedged) (pipelineInit 1) actions := by
  intro hall
  let actions : List PipelineAction :=
    [.beginWait, .beginSchedule 1, .submit 0 1 2 false, .postSubmission, .wakeUp 0, .dequeue 0,
      .endPromote 0 true, .recycle 0, .postCompletion 0, .freeReq 0, .dequeue 0,
      .submit 0 3 4 false, .endInterval, .beginWait, .awaitCompletion]
  obtain ⟨final, hfinal⟩ : ∃ final,
      Transition.run pipelineStep (pipelineInit 1) actions = some final := by
    exact ⟨_, rfl⟩
  have hnot := (hall actions).of_run hfinal
  apply hnot
  obtain rfl := Option.some.inj hfinal
  exact
    { policy := rfl
      jobs := by decide
      completion := rfl
      queue := by decide
      submission := rfl
      workers := by decide }

end ArmsTiering
