import ArmsTiering.Migration.Pipeline

/-!
# Requests queued or in service

A migration thread moves requests towards their completion: it takes them off
the queue and serves them, and adds none.
-/

namespace ArmsTiering

/-- The request whose pages the worker has still to touch. -/
def Worker.inService : Worker → Option MigrationReq
  | .demote req | .promote req | .recycle req _ => some req
  | _ => none

/-- Requests queued or in service. -/
def Pipeline.Pending (s : Pipeline) (req : MigrationReq) : Prop :=
  req ∈ s.migrationQueue ∨ ∃ worker ∈ s.workers, worker.inService = some req

/-- The policy thread has collected all completions and starts to schedule. -/
structure Pipeline.Collected (s : Pipeline) : Prop where
  policy : s.policy = .schedule
  none_pending : ∀ req, ¬ s.Pending req

/-- The actions of a migration thread. -/
def PipelineAction.ofWorker : PipelineAction → Bool
  | .wakeUp _ | .dequeue _ | .endDemote _ _ | .endPromote _ _ | .recycle _ | .postCompletion _
  | .freeReq _ => true
  | _ => false

namespace Pipeline

theorem pending_setWorker {s : Pipeline} {i : ℕ} {pc : Worker} {req : MigrationReq}
    (hpending : (s.setWorker i pc).Pending req) : s.Pending req ∨ pc.inService = some req := by
  rcases hpending with hqueue | ⟨worker, hworker, hreq⟩
  · exact .inl (.inl hqueue)
  · rcases List.mem_or_eq_of_mem_set hworker with hold | rfl
    · exact .inl (.inr ⟨worker, hold, hreq⟩)
    · exact .inr hreq

theorem pending_of_worker {s : Pipeline} {i : ℕ} {pc : Worker} {req : MigrationReq}
    (hworker : s.workers[i]? = some pc) (hreq : pc.inService = some req) : s.Pending req :=
  .inr ⟨pc, List.mem_of_getElem? hworker, hreq⟩

/-- A demotion is only made for a request that needs one. -/
def DemotesNeeded (s : Pipeline) : Prop :=
  ∀ req, .demote req ∈ s.workers → req.needDemotion = true

theorem DemotesNeeded.setWorker {s : Pipeline} (hneeded : s.DemotesNeeded) {i : ℕ} {pc : Worker}
    (hpc : ∀ req, pc = .demote req → req.needDemotion = true) :
    (s.setWorker i pc).DemotesNeeded := by
  intro req hreq
  rcases List.mem_or_eq_of_mem_set hreq with hold | hnew
  · exact hneeded req hold
  · exact hpc req hnew.symm

/-- What a migration thread leaves alone, and what it may only reduce. -/
structure WorkerStep (s next : Pipeline) : Prop where
  policy : next.policy = s.policy
  issued : next.issued = s.issued
  pending : ∀ req, next.Pending req → s.Pending req
  demotes : s.DemotesNeeded → next.DemotesNeeded

theorem WorkerStep.refl (s : Pipeline) : WorkerStep s s :=
  ⟨rfl, rfl, fun _ hpending => hpending, id⟩

theorem workerStep_setWorker {s : Pipeline} {i : ℕ} {pc : Worker}
    (hservice : ∀ req, pc.inService = some req → s.Pending req)
    (hdemote : ∀ req, pc = .demote req → req.needDemotion = true) :
    WorkerStep s (s.setWorker i pc) where
  policy := rfl
  issued := rfl
  pending req hpending := (pending_setWorker hpending).elim id (hservice req)
  demotes hneeded := hneeded.setWorker hdemote

/-- Taking up no request. -/
theorem workerStep_setIdle {s : Pipeline} {i : ℕ} {pc : Worker} (hidle : pc.inService = none) :
    WorkerStep s (s.setWorker i pc) := by
  refine workerStep_setWorker (fun req hreq => ?_) (fun req hreq => ?_)
  · rw [hidle] at hreq
    cases hreq
  · rw [hreq] at hidle
    cases hidle

/-- Staying with a request. -/
theorem workerStep_setServing {s : Pipeline} {i : ℕ} {old pc : Worker} {req : MigrationReq}
    (hworker : s.workers[i]? = some old) (hold : old.inService = some req)
    (hpc : pc = .promote req ∨ ∃ outcome, pc = .recycle req outcome) :
    WorkerStep s (s.setWorker i pc) := by
  refine workerStep_setWorker (fun other hother => ?_) (fun other hother => ?_)
  · have hsame : other = req := by
      rcases hpc with rfl | ⟨outcome, rfl⟩ <;> exact (Option.some.inj hother).symm
    rw [hsame]
    exact pending_of_worker hworker hold
  · rcases hpc with rfl | ⟨outcome, rfl⟩ <;> exact Worker.noConfusion hother

/-- Taking up the request at the head of the queue. -/
theorem workerStep_dequeue {s : Pipeline} {i : ℕ} {req : MigrationReq} {rest : List MigrationReq}
    (hqueue : s.migrationQueue = req :: rest) :
    WorkerStep s ({ s with migrationQueue := rest }.setWorker i
      (if req.needDemotion then .demote req else .promote req)) := by
  have hhead : s.Pending req := .inl (hqueue ▸ List.mem_cons_self)
  have hservice : (if req.needDemotion then Worker.demote req else .promote req).inService =
      some req := by
    split <;> rfl
  refine ⟨rfl, rfl, fun other hpending => ?_, fun hneeded => hneeded.setWorker ?_⟩
  · rcases pending_setWorker hpending with (hrest | hworker) | hnew
    · exact .inl (hqueue ▸ List.mem_cons_of_mem _ hrest)
    · exact .inr hworker
    · rw [hservice] at hnew
      exact Option.some.inj hnew ▸ hhead
  · intro other hother
    split at hother
    · rename_i hneed
      exact Worker.demote.inj hother ▸ hneed
    · cases hother

theorem Step.workerStep {s next : Pipeline} {action : PipelineAction}
    (hstep : Step s action next) (haction : action.ofWorker = true) : WorkerStep s next := by
  cases hstep with
  | wakeUp i hworker hsem =>
      have hset := workerStep_setIdle (s := s) (i := i) (show Worker.inService .scan = none from rfl)
      exact ⟨hset.policy, hset.issued, hset.pending, hset.demotes⟩
  | dequeueNone i hworker hqueue => exact workerStep_setIdle rfl
  | dequeue i req rest hworker hqueue =>
      have hset := workerStep_dequeue (i := i) hqueue
      exact ⟨hset.policy, hset.issued, hset.pending, hset.demotes⟩
  | endDemote i present req hworker =>
      refine workerStep_setServing hworker rfl ?_
      cases present with
      | true => exact .inl rfl
      | false => exact .inr ⟨_, rfl⟩
  | endPromote i present req hworker => exact workerStep_setServing hworker rfl (.inr ⟨_, rfl⟩)
  | recycle i req outcome hworker =>
      have hset := workerStep_setIdle (s := s) (i := i) (show Worker.inService (.post req) = none from rfl)
      exact ⟨hset.policy, hset.issued, hset.pending, hset.demotes⟩
  | postCompletion i req hworker =>
      have hset := workerStep_setIdle (s := s) (i := i) (show Worker.inService (.release req) = none from rfl)
      exact ⟨hset.policy, hset.issued, hset.pending, hset.demotes⟩
  | freeReq i req hworker =>
      have hset := workerStep_setIdle (s := s) (i := i) (show Worker.inService .scan = none from rfl)
      exact ⟨hset.policy, hset.issued, hset.pending, hset.demotes⟩
  | skipInterval => cases haction
  | beginWait => cases haction
  | awaitCompletion => cases haction
  | beginSchedule => cases haction
  | submit => cases haction
  | postSubmission => cases haction
  | endInterval => cases haction

end Pipeline

end ArmsTiering
