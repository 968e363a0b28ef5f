import ArmsTiering.Core.Counting
import ArmsTiering.Migration.Pipeline

/-!
# Free pages lent to requests

A request has its `free_page` from its submission until a worker has put the
page back on a free list.  In which tier the page's frame is meanwhile depends
on how far the request is.
-/

namespace ArmsTiering

open Counting

def MigrationReq.borrows (p : PageId) (req : MigrationReq) : Bool := req.freePage == p

def Worker.borrows (p : PageId) : Worker → Bool
  | .demote req | .promote req | .recycle req _ => req.borrows p
  | _ => false

/-- Unfinished requests that have `p` as their free page. -/
def Pipeline.borrowed (s : Pipeline) (p : PageId) : ℕ :=
  s.migrationQueue.countP (MigrationReq.borrows p) + s.workers.countP (Worker.borrows p)

/-- The tier in which a queued request or a worker needs its free page's frame. -/
def Worker.demand : Worker → Option (PageId × Bool)
  | .demote req => some (req.freePage, false)
  | .promote req => some (req.freePage, true)
  | .recycle req outcome => some (req.freePage, outcome.freeList.inDram)
  | _ => none

namespace Pipeline

/-- Free pages that an action hands over to a new request. -/
def lent (p : PageId) : PipelineAction → ℕ
  | .submit _ _ np _ => one (np == p)
  | _ => 0

/-- Free pages that an action takes from a request. -/
def returned (s : Pipeline) (p : PageId) : PipelineAction → ℕ
  | .recycle i =>
      match s.workers[i]? with
      | some (.recycle req _) => one (req.borrows p)
      | _ => 0
  | _ => 0

theorem borrowed_setWorker {s : Pipeline} {i : ℕ} {old : Worker}
    (hworker : s.workers[i]? = some old) (new : Worker) (p : PageId) :
    (s.setWorker i new).borrowed p + one (old.borrows p) =
      s.borrowed p + one (new.borrows p) := by
  have hcount := countP_set (Worker.borrows p) hworker new
  simp only [borrowed, setWorker]
  omega

theorem Step.borrowed {s next : Pipeline} {action : PipelineAction}
    (hstep : Step s action next) (p : PageId) :
    next.borrowed p + s.returned p action = s.borrowed p + lent p action := by
  cases hstep with
  | skipInterval | beginWait | awaitCompletion | beginSchedule | postSubmission | endInterval =>
      rfl
  | submit dramPage nvmPage freePage needDemotion =>
      simp only [Pipeline.borrowed, Pipeline.submit, newReq, countP_append_singleton,
        MigrationReq.borrows, lent, returned]
      omega
  | wakeUp i hworker => exact borrowed_setWorker hworker .scan p
  | dequeueNone i hworker => exact borrowed_setWorker hworker .asleep p
  | dequeue i req rest hworker hqueue =>
      have hset := countP_set (Worker.borrows p) hworker
        (if req.needDemotion then .demote req else .promote req)
      have hborrows :
          (if req.needDemotion then Worker.demote req else .promote req).borrows p =
            req.borrows p := by
        split <;> rfl
      rw [hborrows] at hset
      simp only [Worker.borrows, one_false] at hset
      simp only [Pipeline.borrowed, record, setWorker, hqueue, countP_cons, lent, returned]
      omega
  | endDemote i present req hworker =>
      have hset := borrowed_setWorker hworker
        (if present then .promote req else .recycle req .demotionAbandoned) p
      cases present <;> simpa [Worker.borrows, lent, returned] using hset
  | endPromote i present req hworker =>
      simpa [Worker.borrows, lent, returned] using borrowed_setWorker hworker
        (.recycle req (if present then .migrated else .promotionAbandoned)) p
  | recycle i req outcome hworker =>
      have hset := borrowed_setWorker hworker (.post req) p
      simp only [lent, returned, hworker]
      exact hset
  | postCompletion i req hworker => exact borrowed_setWorker hworker (.release req) p
  | freeReq i req hworker => exact borrowed_setWorker hworker .scan p

/-- An unfinished request needs its free page `np` in the given tier. -/
def Demands (s : Pipeline) (np : PageId) (inDram : Bool) : Prop :=
  (∃ req ∈ s.migrationQueue, req.freePage = np ∧ inDram = !req.needDemotion) ∨
    ∃ (i : ℕ) (worker : Worker), s.workers[i]? = some worker ∧ worker.demand = some (np, inDram)

theorem borrows_of_demand {worker : Worker} {np : PageId} {inDram : Bool}
    (hdemand : worker.demand = some (np, inDram)) : worker.borrows np = true := by
  cases worker <;> simp_all [Worker.demand, Worker.borrows, MigrationReq.borrows]

theorem Demands.borrowed_pos {s : Pipeline} {np : PageId} {inDram : Bool}
    (hdemands : s.Demands np inDram) : 0 < s.borrowed np := by
  unfold borrowed
  obtain ⟨req, hmem, hpage, -⟩ | ⟨i, worker, hworker, hdemand⟩ := hdemands
  · have hqueue : 0 < s.migrationQueue.countP (MigrationReq.borrows np) :=
      List.countP_pos_iff.mpr ⟨req, hmem, by simp [MigrationReq.borrows, hpage]⟩
    omega
  · have hworkers := one_le_countP hworker (borrows_of_demand hdemand)
    omega

/-- Of a page that is lent once, one tier is demanded. -/
theorem Demands.unique {s : Pipeline} {np : PageId} {first second : Bool}
    (honce : s.borrowed np ≤ 1) (hfirst : s.Demands np first) (hsecond : s.Demands np second) :
    first = second := by
  have hqueued : ∀ req ∈ s.migrationQueue, req.freePage = np →
      0 < s.migrationQueue.countP (MigrationReq.borrows np) := fun req hmem hpage =>
    List.countP_pos_iff.mpr ⟨req, hmem, by simp [MigrationReq.borrows, hpage]⟩
  unfold borrowed at honce
  obtain ⟨req, hmem, hpage, rfl⟩ | ⟨i, worker, hworker, hdemand⟩ := hfirst <;>
    obtain ⟨other, hotherMem, hotherPage, rfl⟩ | ⟨j, other, hother, hotherDemand⟩ := hsecond
  · have hsame : req = other := by
      have hcount : s.migrationQueue.countP (MigrationReq.borrows np) ≤ 1 := by omega
      refine eq_of_countP_le_one hcount hmem hotherMem ?_ ?_
      all_goals simp [MigrationReq.borrows, *]
    rw [hsame]
  · have hqueue := hqueued req hmem hpage
    have hworkers := one_le_countP hother (borrows_of_demand hotherDemand)
    omega
  · have hqueue := hqueued other hotherMem hotherPage
    have hworkers := one_le_countP hworker (borrows_of_demand hdemand)
    omega
  · have hsame : i = j := index_eq_of_countP_le_one (by omega) hworker hother
      (borrows_of_demand hdemand) (borrows_of_demand hotherDemand)
    subst hsame
    simp_all

/-- A worker's move changes only what it demands itself. -/
theorem Demands.of_setWorker {s : Pipeline} {i : ℕ} {new : Worker} {np : PageId} {inDram : Bool}
    (hdemands : (s.setWorker i new).Demands np inDram) :
    s.Demands np inDram ∨ new.demand = some (np, inDram) := by
  obtain hqueue | ⟨j, worker, hworker, hdemand⟩ := hdemands
  · exact Or.inl (Or.inl hqueue)
  · obtain ⟨-, rfl⟩ | ⟨-, hother⟩ := getElem?_set_cases hworker
    · exact Or.inr hdemand
    · exact Or.inl (Or.inr ⟨j, worker, hother, hdemand⟩)

theorem demand_of_dequeue (req : MigrationReq) :
    (if req.needDemotion then Worker.demote req else .promote req).demand =
      some (req.freePage, !req.needDemotion) := by
  cases hneed : req.needDemotion <;> simp [Worker.demand]

/-- An action that touches no page demands nothing new. -/
theorem Step.demands {s next : Pipeline} {action : PipelineAction} (hstep : Step s action next)
    (hplain : action.plain = true) {np : PageId} {inDram : Bool}
    (hdemands : next.Demands np inDram) : s.Demands np inDram := by
  cases hstep with
  | submit | beginSchedule | endDemote | endPromote | recycle => cases hplain
  | skipInterval | beginWait | awaitCompletion | postSubmission | endInterval => exact hdemands
  | wakeUp i hworker hsem =>
      obtain hold | hnew := Demands.of_setWorker hdemands
      · exact hold
      · cases hnew
  | dequeueNone i hworker hqueue =>
      obtain hold | hnew := Demands.of_setWorker hdemands
      · exact hold
      · cases hnew
  | dequeue i req rest hworker hqueue =>
      have hmoved : ({ s with migrationQueue := rest }.setWorker i
          (if req.needDemotion then .demote req else .promote req)).Demands np inDram := hdemands
      obtain hold | hnew := Demands.of_setWorker hmoved
      · obtain ⟨other, hmem, hother⟩ | hworkers := hold
        · exact Or.inl ⟨other, hqueue ▸ List.mem_cons_of_mem req hmem, hother⟩
        · exact Or.inr hworkers
      · rw [demand_of_dequeue] at hnew
        obtain ⟨rfl, rfl⟩ := Prod.mk.inj (Option.some.inj hnew)
        exact Or.inl ⟨req, hqueue ▸ List.mem_cons_self, rfl, rfl⟩
  | postCompletion i req hworker =>
      have hmoved : ({ s with completionSem := s.completionSem + 1 }.setWorker i
          (.release req)).Demands np inDram := hdemands
      obtain hold | hnew := Demands.of_setWorker hmoved
      · exact hold
      · cases hnew
  | freeReq i req hworker =>
      have hmoved : (s.setWorker i .scan).Demands np inDram := hdemands
      obtain hold | hnew := Demands.of_setWorker hmoved
      · exact hold
      · cases hnew

end Pipeline

end ArmsTiering
