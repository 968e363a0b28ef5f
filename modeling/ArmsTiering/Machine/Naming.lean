import ArmsTiering.Machine.Frames
import ArmsTiering.Machine.PolicyMap
import ArmsTiering.Migration.Balance

/-!
# Pages named by requests

A request that is not yet done with a page is the only one that names it, and
the page is still in the tier in which the policy thread found it: the policy
thread passes no page twice in an interval and starts one only when the
requests of the last are done.
-/

namespace ArmsTiering

open Counting

/-- The request names the page for the given half. -/
def MigrationReq.awaits (half : Half) (p : PageId) (req : MigrationReq) : Bool :=
  (half == .promotion || req.needDemotion) && half.page req == p

/-- The worker has not ended the given half on the page. -/
def Worker.awaits (half : Half) (p : PageId) : Worker → Bool
  | .demote req => half.page req == p
  | .promote req => half == .promotion && half.page req == p
  | _ => false

/-- The worker is in the given half. -/
def Worker.runs (half : Half) : Worker → Bool
  | .demote _ => half == .demotion
  | .promote _ => half == .promotion
  | _ => false

theorem Half.awaits_worker (half : Half) (req : MigrationReq) :
    (half.worker req).awaits half (half.page req) = true ∧
      (half.worker req).runs half = true := by
  cases half <;> simp [Half.worker, Worker.awaits, Worker.runs]

theorem awaits_dequeued (req : MigrationReq) (half : Half) (p : PageId) :
    (if req.needDemotion then Worker.demote req else .promote req).awaits half p =
      req.awaits half p := by
  cases half <;> cases hneed : req.needDemotion <;>
    simp [Worker.awaits, MigrationReq.awaits, hneed]

/-- The demote half ends with the page to promote still named. -/
theorem awaits_demoted {req : MigrationReq} {present : Bool} {half : Half} {p : PageId}
    (hawaits : (if present then Worker.promote req
      else .recycle req .demotionAbandoned).awaits half p = true) :
    half = .promotion ∧ (Worker.demote req).awaits half p = true := by
  cases present <;> cases half <;> simp_all [Worker.awaits]

namespace Pipeline

/-- Requests and workers that are not done with the page in the given half. -/
def awaiting (s : Pipeline) (half : Half) (p : PageId) : ℕ :=
  s.migrationQueue.countP (MigrationReq.awaits half p) + s.workers.countP (Worker.awaits half p)

/-- At most one request, with one of its halves, names the page. -/
def NamedOnce (s : Pipeline) (p : PageId) : Prop :=
  s.awaiting .demotion p + s.awaiting .promotion p ≤ 1

def named (half : Half) (p : PageId) : PipelineAction → ℕ
  | .submit dramPage nvmPage freePage needDemotion =>
      one (MigrationReq.awaits half p ⟨0, dramPage, nvmPage, freePage, needDemotion⟩)
  | _ => 0

theorem awaiting_setWorker {s : Pipeline} {i : ℕ} {old new : Worker}
    (hworker : s.workers[i]? = some old) {half : Half} {p : PageId}
    (hpassed : new.awaits half p = true → old.awaits half p = true) :
    (s.setWorker i new).awaiting half p ≤ s.awaiting half p := by
  have hcount := countP_set (Worker.awaits half p) hworker new
  have hone : one (new.awaits half p) ≤ one (old.awaits half p) := by
    cases hnew : new.awaits half p
    · exact Nat.zero_le _
    · rw [hpassed hnew]
  simp only [awaiting, setWorker]
  omega

theorem Step.awaiting_le {s next : Pipeline} {action : PipelineAction}
    (hstep : Step s action next) (half : Half) (p : PageId) :
    next.awaiting half p ≤ s.awaiting half p + named half p action := by
  cases hstep with
  | skipInterval | beginWait | awaitCompletion | beginSchedule | postSubmission | endInterval =>
      exact Nat.le_refl _
  | submit dramPage nvmPage freePage needDemotion =>
      simp only [awaiting, Pipeline.submit, newReq, countP_append_singleton, named,
        MigrationReq.awaits]
      cases half <;> simp only [Half.page] <;> omega
  | wakeUp i hworker | dequeueNone i hworker | recycle i _ _ hworker
  | postCompletion i _ hworker | freeReq i _ hworker =>
      exact awaiting_setWorker hworker (by simp [Worker.awaits])
  | dequeue i req rest hworker hqueue =>
      have hset := countP_set (Worker.awaits half p) hworker
        (if req.needDemotion then .demote req else .promote req)
      rw [awaits_dequeued] at hset
      simp only [Worker.awaits, one_false] at hset
      simp only [awaiting, record, setWorker, hqueue, countP_cons, named]
      omega
  | endDemote i present req hworker =>
      refine awaiting_setWorker hworker fun hawaits => ?_
      exact (awaits_demoted hawaits).2
  | endPromote i present req hworker =>
      exact awaiting_setWorker hworker (by simp [Worker.awaits])

/-- A page named by a worker's half is not named by another. -/
theorem NamedOnce.unique {s : Pipeline} {p : PageId} (honce : s.NamedOnce p) {i j : ℕ}
    {half other : Half} {worker otherWorker : Worker} (hworker : s.workers[i]? = some worker)
    (hother : s.workers[j]? = some otherWorker) (hawaits : worker.awaits half p = true)
    (hotherAwaits : otherWorker.awaits other p = true) : i = j ∧ half = other := by
  have hcount : ∀ {k : ℕ} {h : Half} {w : Worker}, s.workers[k]? = some w →
      w.awaits h p = true → 0 < s.awaiting h p := by
    intro k h w hk hw
    exact Nat.lt_of_lt_of_le (one_le_countP hk hw) (Nat.le_add_left _ _)
  have hfirst := hcount hworker hawaits
  have hsecond := hcount hother hotherAwaits
  unfold NamedOnce at honce
  have hhalf : half = other := by
    cases half <;> cases other <;> first | rfl | omega
  subst hhalf
  refine ⟨?_, rfl⟩
  have hworkers : s.workers.countP (Worker.awaits half p) ≤ 1 := by
    unfold awaiting at honce
    cases half <;> omega
  exact index_eq_of_countP_le_one hworkers hworker hother hawaits hotherAwaits

theorem NamedOnce.not_queued {s : Pipeline} {p : PageId} (honce : s.NamedOnce p) {j : ℕ}
    {half other : Half} {worker : Worker} {req : MigrationReq} (hmem : req ∈ s.migrationQueue)
    (hawaits : req.awaits half p = true) (hworker : s.workers[j]? = some worker)
    (hotherAwaits : worker.awaits other p = true) : False := by
  have hqueue : 0 < s.migrationQueue.countP (MigrationReq.awaits half p) :=
    List.countP_pos_iff.mpr ⟨req, hmem, hawaits⟩
  have hworkers := one_le_countP hworker hotherAwaits
  unfold NamedOnce awaiting at honce
  cases half <;> cases other <;> omega

/-- With all completions collected, no page is named. -/
theorem JobsBalance.awaiting_zero {s : Pipeline} (hjobs : s.JobsBalance)
    (hzero : s.numMigrationJobs = 0) (half : Half) (p : PageId) : s.awaiting half p = 0 := by
  unfold JobsBalance at hjobs
  have hqueue : s.migrationQueue = [] := List.eq_nil_of_length_eq_zero (by omega)
  have hworkers : s.workers.countP (Worker.awaits half p) ≤ s.workers.countP Worker.holds := by
    apply List.countP_mono_left
    intro worker _ hawaits
    cases worker <;> simp_all [Worker.awaits, Worker.holds]
  simp only [awaiting, hqueue, List.countP_nil]
  omega

/-- A worker that names a page for a half did so before, or took the request
off the queue. -/
theorem Step.awaits_origin {s next : Pipeline} {action : PipelineAction}
    (hstep : Step s action next) {i : ℕ} {worker : Worker} {half : Half} {p : PageId}
    (hworker : next.workers[i]? = some worker) (hawaits : worker.awaits half p = true) :
    s.workers[i]? = some worker ∨
      (∃ req present, s.workers[i]? = some (.demote req) ∧ action = .endDemote i present ∧
        half = .promotion ∧ (Worker.demote req).awaits half p = true) ∨
      ∃ req ∈ s.migrationQueue, req.awaits half p = true := by
  have hmoved : ∀ {j : ℕ} {new : Worker}, (s.workers.set j new)[i]? = some worker →
      new.awaits half p = false → s.workers[i]? = some worker := by
    intro j new hset hnot
    obtain ⟨-, rfl⟩ | ⟨-, hold⟩ := getElem?_set_cases hset
    · rw [hnot] at hawaits
      cases hawaits
    · exact hold
  cases hstep with
  | skipInterval | beginWait | awaitCompletion | beginSchedule | submit | postSubmission
  | endInterval => exact Or.inl hworker
  | wakeUp | dequeueNone | recycle | postCompletion | freeReq | endPromote =>
      exact Or.inl (hmoved hworker rfl)
  | dequeue j req rest hold hqueue =>
      obtain ⟨-, rfl⟩ | ⟨-, hsame⟩ := getElem?_set_cases hworker
      · rw [awaits_dequeued] at hawaits
        exact Or.inr (Or.inr ⟨req, hqueue ▸ List.mem_cons_self, hawaits⟩)
      · exact Or.inl hsame
  | endDemote j present req hold =>
      obtain ⟨rfl, rfl⟩ | ⟨-, hsame⟩ := getElem?_set_cases hworker
      · obtain ⟨hhalf, hbefore⟩ := awaits_demoted hawaits
        exact Or.inr (Or.inl ⟨req, present, hold, rfl, hhalf, hbefore⟩)
      · exact Or.inl hsame

end Pipeline

/-- The page that a new request names for a half. -/
def MachineAction.names (half : Half) : MachineAction → Option PageId
  | .schedulePromotion _ p _ => if half = .promotion then some p else none
  | .scheduleDemotion _ _ p cp _ => if half = .promotion then some p else some cp
  | _ => none

namespace Machine

structure Naming (s : Machine) : Prop where
  jobs : s.pipe.JobsBalance
  once : ∀ p, s.pipe.NamedOnce p
  unlent : ∀ half p, 0 < s.pipe.awaiting half p → s.pipe.borrowed p = 0
  queued : ∀ req ∈ s.pipe.migrationQueue, ∀ half p, req.awaits half p = true →
    (s.page p).inDram = half.sourceInDram
  working : ∀ i worker half p, s.pipe.workers[i]? = some worker → worker.awaits half p = true →
    (worker.runs half = true → (s.stage i).moved = false) →
      (s.page p).inDram = half.sourceInDram
  scheduled : s.pipe.policy = .schedule ∨ s.pipe.policy = .wake → ∀ half p,
    0 < s.pipe.awaiting half p → ∃ key ∈ s.usedKeys, s.pagesMap key = some p

/-! ## New requests -/

theorem named_le {s : Machine} {action : MachineAction} {pipeAction : PipelineAction}
    (henabled : s.Enabled action) (hpipe : action.pipeAction = some pipeAction) (half : Half)
    (p : PageId) : Pipeline.named half p pipeAction ≤ one (action.names half == some p) := by
  cases action with
  | schedulePromotion key q np =>
      obtain rfl := Option.some.inj hpipe
      cases half with
      | demotion => exact Nat.zero_le _
      | promotion => simp [Pipeline.named, MigrationReq.awaits, MachineAction.names, Half.page]
  | scheduleDemotion key coldKey q cp np =>
      obtain rfl := Option.some.inj hpipe
      cases half <;> simp [Pipeline.named, MigrationReq.awaits, MachineAction.names, Half.page]
  | pipeline action =>
      obtain rfl := Option.some.inj hpipe
      cases action <;> first | exact Nat.zero_le _ | cases henabled
  | testAbsent i other req | give i other req =>
      obtain rfl := Option.some.inj hpipe
      cases other <;> exact Nat.zero_le _
  | beginSchedule | returnFree | recycle =>
      obtain rfl := Option.some.inj hpipe
      exact Nat.zero_le _
  | _ => cases hpipe

theorem awaiting_advance {s : Machine} {action : MachineAction} {pipe : Pipeline}
    (henabled : s.Enabled action) (hpipe : s.pipe.advance action.pipeAction = some pipe)
    (half : Half) (p : PageId) :
    pipe.awaiting half p ≤ s.pipe.awaiting half p + one (action.names half == some p) := by
  cases haction : action.pipeAction with
  | none =>
      rw [haction] at hpipe
      obtain rfl : s.pipe = pipe := Option.some.inj hpipe
      exact Nat.le_add_right _ _
  | some pipeAction =>
      rw [haction] at hpipe
      have hle := (Pipeline.advance_cases hpipe).awaiting_le half p
      have hnamed := named_le henabled haction half p
      omega

/-- The policy thread names a page that it has not passed in this interval. -/
theorem candidate_of_names {s : Machine} {action : MachineAction} {pipe : Pipeline}
    (henabled : s.Enabled action) (hpipe : s.pipe.advance action.pipeAction = some pipe)
    {half : Half} {p : PageId} (hnames : action.names half = some p) :
    s.pipe.policy = .schedule ∧ (s.page p).inDram = half.sourceInDram ∧
      ∃ key ∈ (s.effect action).usedKeys, s.Candidate key p := by
  cases action with
  | schedulePromotion key q np =>
      have hpolicy : s.pipe.policy = .schedule := by
        cases Pipeline.advance_cases hpipe
        assumption
      cases half with
      | demotion => cases hnames
      | promotion =>
          obtain rfl := Option.some.inj hnames
          exact ⟨hpolicy, henabled.2.1, key, List.mem_cons_self, henabled.1⟩
  | scheduleDemotion key coldKey q cp np =>
      have hpolicy : s.pipe.policy = .schedule := by
        cases Pipeline.advance_cases hpipe
        assumption
      obtain ⟨hkey, hcold, -, hnvm, hdram, -⟩ := henabled
      cases half with
      | demotion =>
          obtain rfl := Option.some.inj hnames
          exact ⟨hpolicy, hdram, coldKey, List.mem_cons_of_mem _ List.mem_cons_self, hcold⟩
      | promotion =>
          obtain rfl := Option.some.inj hnames
          exact ⟨hpolicy, hnvm, key, List.mem_cons_self, hkey⟩
  | _ => cases hnames

theorem Naming.not_awaiting {s : Machine} (hnaming : s.Naming) (hsynced : s.Synced)
    (hpolicy : s.pipe.policy = .schedule) {key : Va} {p : PageId} (hkey : s.Candidate key p)
    (half : Half) : s.pipe.awaiting half p = 0 := by
  by_contra hne
  obtain ⟨used, hused, hmap⟩ :=
    hnaming.scheduled (Or.inl hpolicy) half p (Nat.pos_of_ne_zero hne)
  have hva := hsynced.keyed used p hmap
  rw [hsynced.keyed key p hkey.1] at hva
  exact hkey.2 (hva ▸ hused)

/-! ## What a step leaves alone -/

theorem policy_advance {s : Machine} {action : MachineAction} {pipe : Pipeline}
    (hpipe : s.pipe.advance action.pipeAction = some pipe)
    (hpolicy : pipe.policy = .schedule ∨ pipe.policy = .wake) :
    (s.pipe.policy = .schedule ∨ s.pipe.policy = .wake) ∨
      s.pipe.numMigrationJobs = 0 ∧ ∃ batch, action.pipeAction = some (.beginSchedule batch) := by
  cases haction : action.pipeAction with
  | none =>
      rw [haction] at hpipe
      obtain rfl : s.pipe = pipe := Option.some.inj hpipe
      exact Or.inl hpolicy
  | some pipeAction =>
      rw [haction] at hpipe
      cases Pipeline.advance_cases hpipe with
      | beginSchedule batch _ hzero => exact Or.inr ⟨hzero, batch, rfl⟩
      | submit _ _ _ _ hschedule => exact Or.inl (Or.inl hschedule)
      | postSubmission hwake => exact Or.inl (Or.inr hwake)
      | beginWait | endInterval => simp at hpolicy
      | _ => exact Or.inl hpolicy

/-- Only the end of its half takes a worker back from the stages after the remap. -/
theorem moved_effect {s : Machine} {action : MachineAction} {i : ℕ}
    (henabled : s.Enabled action) (hmoved : (s.stage i).moved = true)
    (hgive : ∀ half req oldOffset, action ≠ .give i half req oldOffset) :
    ((s.effect action).stage i).moved = true := by
  by_cases hactor : action.actor = some i
  · rw [stage_effect]
    cases action with
    | testPresent j half req | testAbsent j half req =>
        obtain rfl := Option.some.inj hactor
        rw [henabled.1.2] at hmoved
        cases hmoved
    | writeProtect j half req oldOffset | copy j half req oldOffset =>
        obtain rfl := Option.some.inj hactor
        rw [henabled.2] at hmoved
        cases hmoved
    | remap j half req oldOffset | unlock j half req oldOffset =>
        obtain rfl := Option.some.inj hactor
        simp [MachineAction.stageMove, Stage.moved]
    | give j half req oldOffset =>
        obtain rfl := Option.some.inj hactor
        exact absurd rfl (hgive half req oldOffset)
    | recycle => exact hmoved
    | _ => cases hactor
  · rw [stage_effect_of_ne hactor]
    exact hmoved

/-! ## Step lemmas -/

/-- A named page gets another frame only by the half that names it. -/
theorem Naming.remap_of_reframes {s : Machine} (hnaming : s.Naming) {action : MachineAction}
    (henabled : s.Enabled action) {i : ℕ} {worker : Worker} {half : Half} {p : PageId}
    (hworker : s.pipe.workers[i]? = some worker) (hawaits : worker.awaits half p = true)
    (hreframes : action.reframes = some p) :
    ∃ req oldOffset, action = .remap i half req oldOffset ∧ worker = half.worker req := by
  cases action with
  | remap j other req oldOffset =>
      obtain rfl := Option.some.inj hreframes
      obtain ⟨rfl, rfl⟩ := (hnaming.once _).unique henabled.1 hworker
        (other.awaits_worker req).1 hawaits
      exact ⟨req, oldOffset, rfl, Option.some.inj (hworker.symm.trans henabled.1)⟩
  | give j other req oldOffset =>
      obtain rfl := Option.some.inj hreframes
      have hlent := Pipeline.Demands.borrowed_pos
        (Or.inr ⟨j, _, henabled.1, other.demand_worker req⟩)
      have hcount : 0 < s.pipe.awaiting half req.freePage :=
        Nat.lt_of_lt_of_le (one_le_countP hworker hawaits) (Nat.le_add_left _ _)
      have hnone := hnaming.unlent half _ hcount
      omega
  | _ => cases hreframes

theorem Naming.not_reframed {s : Machine} (hnaming : s.Naming) {action : MachineAction}
    (henabled : s.Enabled action) {req : MigrationReq} {half : Half} {p : PageId}
    (hmem : req ∈ s.pipe.migrationQueue) (hawaits : req.awaits half p = true) :
    action.reframes ≠ some p := by
  intro hreframes
  cases action with
  | remap j other otherReq oldOffset =>
      obtain rfl := Option.some.inj hreframes
      exact (hnaming.once _).not_queued hmem hawaits henabled.1 (other.awaits_worker otherReq).1
  | give j other otherReq oldOffset =>
      obtain rfl := Option.some.inj hreframes
      have hlent := Pipeline.Demands.borrowed_pos
        (Or.inr ⟨j, _, henabled.1, other.demand_worker otherReq⟩)
      have hqueue : 0 < s.pipe.migrationQueue.countP (MigrationReq.awaits half otherReq.freePage) :=
        List.countP_pos_iff.mpr ⟨req, hmem, hawaits⟩
      have hnone := hnaming.unlent half _ (Nat.lt_of_lt_of_le hqueue (Nat.le_add_right _ _))
      omega
  | _ => cases hreframes

theorem Naming.once_step {s : Machine} {action : MachineAction} {pipe : Pipeline}
    (hnaming : s.Naming) (hsynced : s.Synced) (henabled : s.Enabled action)
    (hpipe : s.pipe.advance action.pipeAction = some pipe) (p : PageId) : pipe.NamedOnce p := by
  have honce := hnaming.once p
  have hdemotion := awaiting_advance henabled hpipe .demotion p
  have hpromotion := awaiting_advance henabled hpipe .promotion p
  have hnone : ∀ {half}, action.names half = some p →
      s.pipe.awaiting .demotion p = 0 ∧ s.pipe.awaiting .promotion p = 0 := by
    intro half hnames
    obtain ⟨hpolicy, -, key, -, hkey⟩ := candidate_of_names henabled hpipe hnames
    exact ⟨hnaming.not_awaiting hsynced hpolicy hkey _, hnaming.not_awaiting hsynced hpolicy hkey _⟩
  -- a request names two pages, under different keys
  have hapart : action.names .demotion = some p → action.names .promotion ≠ some p := by
    intro hcold hhot
    cases action with
    | scheduleDemotion key coldKey q cp np =>
        obtain rfl := Option.some.inj hcold
        obtain rfl := Option.some.inj hhot
        have hva := hsynced.keyed key q henabled.1.1
        rw [hsynced.keyed coldKey q henabled.2.1.1] at hva
        exact henabled.2.2.1 hva.symm
    | _ => cases hcold
  unfold Pipeline.NamedOnce at honce ⊢
  by_cases hcold : action.names .demotion = some p
  · have hzero := hnone hcold
    simp only [hcold, beq_self_eq_true, one_true, beq_eq_false_iff_ne.mpr (hapart hcold),
      one_false] at hdemotion hpromotion
    omega
  · rw [beq_eq_false_iff_ne.mpr hcold, one_false] at hdemotion
    by_cases hhot : action.names .promotion = some p
    · have hzero := hnone hhot
      rw [hhot, beq_self_eq_true, one_true] at hpromotion
      omega
    · rw [beq_eq_false_iff_ne.mpr hhot, one_false] at hpromotion
      omega

/-- After a step a named page is named by its new request or was named before. -/
theorem awaiting_cases {s : Machine} {action : MachineAction} {pipe : Pipeline}
    (henabled : s.Enabled action) (hpipe : s.pipe.advance action.pipeAction = some pipe)
    {half : Half} {p : PageId} (hcount : 0 < pipe.awaiting half p) :
    0 < s.pipe.awaiting half p ∨ action.names half = some p := by
  have hle := awaiting_advance henabled hpipe half p
  by_cases hnames : action.names half = some p
  · exact Or.inr hnames
  · rw [beq_eq_false_iff_ne.mpr hnames, one_false] at hle
    exact Or.inl (by omega)

theorem lent_cases {s : Machine} {action : MachineAction} {pipe : Pipeline}
    (henabled : s.Enabled action) (hpipe : s.pipe.advance action.pipeAction = some pipe)
    (p : PageId) :
    pipe.borrowed p ≤ s.pipe.borrowed p ∨ s.pipe.policy = .schedule ∧ 0 < s.freeCount p := by
  have hmoved := Pipeline.borrowed_advance hpipe p
  have hhead : ∀ {list : FreeList} {np : PageId}, (s.freeList list).head? = some np →
      np = p → 0 < s.freeCount p := by
    rintro list np hhead rfl
    exact freeCount_pos (List.mem_of_mem_head? hhead)
  cases action with
  | schedulePromotion key q np =>
      by_cases hnp : np = p
      · cases Pipeline.advance_cases hpipe
        exact Or.inr ⟨by assumption, hhead henabled.2.2 hnp⟩
      · simp only [MachineAction.pipeAction, Option.map_some, Option.getD_some, Pipeline.lent,
          beq_eq_false_iff_ne.mpr hnp, one_false] at hmoved
        exact Or.inl (by omega)
  | scheduleDemotion key coldKey q cp np =>
      by_cases hnp : np = p
      · cases Pipeline.advance_cases hpipe
        exact Or.inr ⟨by assumption, hhead henabled.2.2.2.2.2 hnp⟩
      · simp only [MachineAction.pipeAction, Option.map_some, Option.getD_some, Pipeline.lent,
          beq_eq_false_iff_ne.mpr hnp, one_false] at hmoved
        exact Or.inl (by omega)
  | pipeline action =>
      cases action with
      | submit => cases henabled
      | _ => exact Or.inl (Nat.le_of_add_right_le (Nat.le_of_eq hmoved))
  | testAbsent i half req | give i half req =>
      cases half <;> exact Or.inl (Nat.le_of_add_right_le (Nat.le_of_eq hmoved))
  | _ => exact Or.inl (Nat.le_of_add_right_le (Nat.le_of_eq hmoved))

theorem Naming.unlent_step {s : Machine} {action : MachineAction} {pipe : Pipeline}
    (hplaced : s.Placed) (hnaming : s.Naming) (hsynced : s.Synced) (henabled : s.Enabled action)
    (hpipe : s.pipe.advance action.pipeAction = some pipe) {half : Half} {p : PageId}
    (hcount : 0 < pipe.awaiting half p) : pipe.borrowed p = 0 := by
  have hcases := awaiting_cases henabled hpipe hcount
  obtain hle | ⟨hpolicy, hfree⟩ := lent_cases henabled hpipe p
  · have hnone : s.pipe.borrowed p = 0 := by
      obtain hold | hnames := hcases
      · exact hnaming.unlent half p hold
      · obtain ⟨-, -, key, -, hkey⟩ := candidate_of_names henabled hpipe hnames
        exact (hsynced.known hplaced hkey.1).2
    omega
  · have hknown : s.freeCount p = 0 := by
      obtain hold | hnames := hcases
      · obtain ⟨key, -, hmap⟩ := hnaming.scheduled (Or.inl hpolicy) half p hold
        exact (hsynced.known hplaced hmap).1
      · obtain ⟨-, -, key, -, hkey⟩ := candidate_of_names henabled hpipe hnames
        exact (hsynced.known hplaced hkey.1).1
    omega

theorem queue_cases {s : Machine} {action : MachineAction} {pipe : Pipeline}
    (henabled : s.Enabled action) (hpipe : s.pipe.advance action.pipeAction = some pipe)
    {req : MigrationReq} (hmem : req ∈ pipe.migrationQueue) :
    req ∈ s.pipe.migrationQueue ∨
      ∀ half p, req.awaits half p = true → action.names half = some p := by
  cases haction : action.pipeAction with
  | none =>
      rw [haction] at hpipe
      obtain rfl : s.pipe = pipe := Option.some.inj hpipe
      exact Or.inl hmem
  | some pipeAction =>
      rw [haction] at hpipe
      cases Pipeline.advance_cases hpipe with
      | submit dramPage nvmPage freePage needDemotion =>
          obtain hold | hnew := List.mem_append.mp hmem
          · exact Or.inl hold
          · obtain rfl := List.mem_singleton.mp hnew
            refine Or.inr fun half p hawaits => ?_
            cases action with
            | schedulePromotion | scheduleDemotion =>
                cases haction
                cases half <;>
                  simp_all [MigrationReq.awaits, Pipeline.newReq, MachineAction.names, Half.page]
            | pipeline action =>
                cases haction
                cases henabled
            | testAbsent _ half | give _ half => cases half <;> cases haction
            | _ => cases haction
      | dequeue _ _ rest _ hqueue => exact Or.inl (hqueue ▸ List.mem_cons_of_mem _ hmem)
      | _ => exact Or.inl hmem

theorem Naming.queued_step {s : Machine} {action : MachineAction} {pipe : Pipeline}
    (hnaming : s.Naming) (henabled : s.Enabled action)
    (hpipe : s.pipe.advance action.pipeAction = some pipe) {req : MigrationReq}
    (hmem : req ∈ pipe.migrationQueue) {half : Half} {p : PageId}
    (hawaits : req.awaits half p = true) :
    ((s.effect action).page p).inDram = half.sourceInDram := by
  obtain hold | hnew := queue_cases henabled hpipe hmem
  · rw [inDram_effect (hnaming.not_reframed henabled hold hawaits)]
    exact hnaming.queued req hold half p hawaits
  · have hnames := hnew half p hawaits
    obtain ⟨-, htier, -⟩ := candidate_of_names henabled hpipe hnames
    have hnot : action.reframes = none := by
      cases action <;> first | rfl | cases hnames
    rw [inDram_effect (by rw [hnot]; simp)]
    exact htier

theorem Naming.working_step {s : Machine} {action : MachineAction} {pipe : Pipeline}
    (hnaming : s.Naming) (henabled : s.Enabled action)
    (hpipe : s.pipe.advance action.pipeAction = some pipe) {i : ℕ} {worker : Worker} {half : Half}
    {p : PageId} (hworker : pipe.workers[i]? = some worker)
    (hawaits : worker.awaits half p = true)
    (hstage : worker.runs half = true → ((s.effect action).stage i).moved = false) :
    ((s.effect action).page p).inDram = half.sourceInDram := by
  have hkept : s.pipe.workers[i]? = some worker →
      ((s.effect action).page p).inDram = half.sourceInDram := by
    intro hold
    have hnot : action.reframes ≠ some p := by
      intro hreframes
      obtain ⟨req, oldOffset, rfl, rfl⟩ :=
        hnaming.remap_of_reframes henabled hold hawaits hreframes
      have hmoved := hstage (half.awaits_worker req).2
      simp [effect, setStage, Stage.moved] at hmoved
    rw [inDram_effect hnot]
    refine hnaming.working i worker half p hold hawaits fun hruns => ?_
    by_contra hmoved
    rw [Bool.not_eq_false] at hmoved
    by_cases hgive : ∃ half req oldOffset, action = .give i half req oldOffset
    · obtain ⟨other, req, oldOffset, rfl⟩ := hgive
      have hnext := Half.finish_eq henabled.1 hpipe
      rw [hnext, Pipeline.setWorker_workers] at hworker
      obtain ⟨-, hafter⟩ | ⟨hne, -⟩ := getElem?_set_cases hworker
      · have hbefore := Option.some.inj (hold.symm.trans henabled.1)
        rw [hbefore] at hafter
        cases other <;> simp [Half.worker, Half.after] at hafter
      · exact hne rfl
    · have hmovedNext := moved_effect henabled hmoved
        (fun other req oldOffset heq => hgive ⟨other, req, oldOffset, heq⟩)
      rw [hstage hruns] at hmovedNext
      cases hmovedNext
  cases haction : action.pipeAction with
  | none =>
      rw [haction] at hpipe
      obtain rfl : s.pipe = pipe := Option.some.inj hpipe
      exact hkept hworker
  | some pipeAction =>
      rw [haction] at hpipe
      obtain hold | ⟨req, present, hold, rfl, rfl, hbefore⟩ | ⟨req, hmem, hqueued⟩ :=
        (Pipeline.advance_cases hpipe).awaits_origin hworker hawaits
      · exact hkept hold
      · have hnot : action.reframes ≠ some p := by
          intro hreframes
          obtain ⟨other, oldOffset, rfl, -⟩ :=
            hnaming.remap_of_reframes henabled hold hbefore hreframes
          cases haction
        rw [inDram_effect hnot]
        exact hnaming.working i _ _ p hold hbefore (by simp [Worker.runs])
      · rw [inDram_effect (hnaming.not_reframed henabled hmem hqueued)]
        exact hnaming.queued req hmem half p hqueued

theorem Naming.scheduled_step {s : Machine} {action : MachineAction} {pipe : Pipeline}
    (hnaming : s.Naming) (henabled : s.Enabled action)
    (hpipe : s.pipe.advance action.pipeAction = some pipe)
    (hpolicy : pipe.policy = .schedule ∨ pipe.policy = .wake) {half : Half} {p : PageId}
    (hcount : 0 < pipe.awaiting half p) :
    ∃ key ∈ (s.effect action).usedKeys, (s.effect action).pagesMap key = some p := by
  have hdrain : ∀ mp, action ≠ .drain mp := by
    rintro mp rfl
    obtain rfl : s.pipe = pipe := Option.some.inj hpipe
    rw [henabled.1] at hpolicy
    simp at hpolicy
  rw [pagesMap_effect hdrain]
  obtain hold | hnames := awaiting_cases henabled hpipe hcount
  · obtain hbefore | ⟨hzero, -⟩ := policy_advance hpipe hpolicy
    · obtain ⟨key, hused, hmap⟩ := hnaming.scheduled hbefore half p hold
      refine ⟨key, usedKeys_effect ?_ hused, hmap⟩
      rintro batch rfl
      cases Pipeline.advance_cases hpipe with
      | beginSchedule _ hwait => simp [hwait] at hbefore
    · have hnone := hnaming.jobs.awaiting_zero hzero half p
      omega
  · obtain ⟨-, -, key, hused, hkey⟩ := candidate_of_names henabled hpipe hnames
    exact ⟨key, hused, hkey.1⟩

theorem Naming.step {s next : Machine} {action : MachineAction} (hplaced : s.Placed)
    (hsynced : s.Synced) (hnaming : s.Naming) (hstep : machineStep s action = some next) :
    next.Naming := by
  obtain ⟨-, henabled, ⟨-, rfl⟩ | ⟨-, pipe, hpipe, rfl⟩⟩ := step_cases hstep
  · exact ⟨hnaming.jobs, hnaming.once, hnaming.unlent, hnaming.queued, hnaming.working,
      hnaming.scheduled⟩
  · have hjobs : pipe.JobsBalance := by
      cases haction : action.pipeAction with
      | none =>
          rw [haction] at hpipe
          obtain rfl : s.pipe = pipe := Option.some.inj hpipe
          exact hnaming.jobs
      | some pipeAction =>
          rw [haction] at hpipe
          exact (Pipeline.advance_cases hpipe).jobsBalance hnaming.jobs
    exact
      { jobs := hjobs
        once := hnaming.once_step hsynced henabled hpipe
        unlent := fun half p hcount =>
          hnaming.unlent_step hplaced hsynced henabled hpipe hcount
        queued := fun req hmem half p hawaits =>
          hnaming.queued_step henabled hpipe hmem hawaits
        working := fun i worker half p hworker hawaits hstage =>
          hnaming.working_step henabled hpipe hworker hawaits hstage
        scheduled := fun hpolicy half p hcount =>
          hnaming.scheduled_step henabled hpipe hpolicy hcount }

/-- The steps of client threads do not concern the requests. -/
theorem Naming.client_step {s next : Machine} {action : MachineAction} (hnaming : s.Naming)
    (hclient : action.byClient = true) (hstep : machineStep s action = some next) :
    next.Naming := by
  obtain ⟨-, -, ⟨-, rfl⟩ | ⟨-, pipe, hpipe, rfl⟩⟩ := step_cases hstep
  · exact ⟨hnaming.jobs, hnaming.once, hnaming.unlent, hnaming.queued, hnaming.working,
      hnaming.scheduled⟩
  · have hquiet : action.pipeAction = none := by
      cases action <;> first | rfl | cases hclient
    have hstage : (s.effect action).stage = s.stage := by
      cases action <;> first | rfl | cases hclient
    have hkeys : (s.effect action).usedKeys = s.usedKeys := by
      cases action <;> first | rfl | cases hclient
    have hmap : (s.effect action).pagesMap = s.pagesMap :=
      pagesMap_effect (by rintro mp rfl; cases hclient)
    have hdram : ∀ p, ((s.effect action).page p).inDram = (s.page p).inDram := by
      intro p
      have hnone : action.reframes = none := by
        cases action <;> first | rfl | cases hclient
      exact inDram_effect (by rw [hnone]; simp)
    rw [setPipe_quiet hpipe hquiet]
    have hpipeKept := (s.effect_kept action).1
    constructor
    all_goals simp only [hpipeKept, hstage, hkeys, hmap, hdram]
    · exact hnaming.jobs
    · exact hnaming.once
    · exact hnaming.unlent
    · exact hnaming.queued
    · exact hnaming.working
    · exact hnaming.scheduled

theorem naming_pebsInit (dramsize nvmsize workers clients : ℕ) :
    (pebsInit dramsize nvmsize workers clients).Naming := by
  have hjobs : (pebsInit dramsize nvmsize workers clients).pipe.JobsBalance :=
    Pipeline.jobsBalance_init workers
  have hzero := hjobs.awaiting_zero rfl
  constructor
  · exact hjobs
  · intro p
    unfold Pipeline.NamedOnce
    rw [hzero, hzero]
    exact Nat.zero_le 1
  · intro half p hcount
    rw [hzero] at hcount
    cases hcount
  · intro req hmem
    cases hmem
  · intro i worker half p hworker hawaits
    obtain rfl := List.eq_of_mem_replicate (List.mem_of_getElem? hworker)
    cases hawaits
  · intro hpolicy
    simp [pebsInit, pipelineInit] at hpolicy

end Machine

end ArmsTiering
