import ArmsTiering.Machine.LoopInvariant

/-!
# The migrations loop schedules a sound set of moves

All pages that the migration threads touch lie outside the range of scores
between the two indices, so what the loop has found out about the pages at its
indices stays true while requests complete.
-/

namespace ArmsTiering

open Transition

variable {F : Type} [CFloat F] {n : ℕ}

/-! ## Completed requests do not disturb the loop -/

section Frames

variable {page : PageId → ArmsPage F n} {half : Half} {req : MigrationReq}

omit [CFloat F] in
theorem eq_of_half_request {pc : Worker} (hpc : half.request pc = some req) :
    pc = half.worker req := by
  cases half <;> cases pc <;> cases hpc <;> rfl

theorem swapFrames_of_ne {p : PageId} (hpage : p ≠ half.page req) (hfree : p ≠ req.freePage) :
    swapFrames page half req p = page p := by
  rw [swapFrames, Function.update_of_ne hfree, Function.update_of_ne hpage]

theorem swapFrames_kept (p : PageId) :
    (swapFrames page half req p).va = (page p).va ∧
      (swapFrames page half req p).canPromote = (page p).canPromote := by
  have hmoved : ∀ q, (Function.update page (half.page req)
      { page (half.page req) with
        devdaxOffset := (page req.freePage).devdaxOffset
        inDram := !half.sourceInDram
        migrating := false } q).va = (page q).va ∧ (Function.update page (half.page req)
      { page (half.page req) with
        devdaxOffset := (page req.freePage).devdaxOffset
        inDram := !half.sourceInDram
        migrating := false } q).canPromote = (page q).canPromote := by
    intro q
    rcases eq_or_ne q (half.page req) with rfl | hne
    · rw [Function.update_self]
      exact ⟨rfl, rfl⟩
    · rw [Function.update_of_ne hne]
      exact ⟨rfl, rfl⟩
  rcases eq_or_ne p req.freePage with rfl | hne
  · rw [swapFrames, Function.update_self]
    exact hmoved _
  · rw [swapFrames, Function.update_of_ne hne]
    exact hmoved p

end Frames

namespace MigrationsLoop

variable {s : MigrationsLoop F n} {earlier : List MigrationReq}

/-- The state after a step of a migration thread. -/
def served (s : MigrationsLoop F n) (pipe : Pipeline) (page : PageId → ArmsPage F (n + 1))
    (freeList : FreeList → List PageId) (costs : CostEnv F) : MigrationsLoop F n :=
  { s with pipe := pipe, page := page, freeList := freeList, costs := costs }

/-- `page` agrees with the pages of the state between the two indices. -/
def SameInRange (s : MigrationsLoop F n) (page : PageId → ArmsPage F (n + 1)) : Prop :=
  ∀ k entry, s.scores[k]? = some entry → s.promoteIdx ≤ k → k ≤ s.demoteIdx →
    page entry.page = s.page entry.page

section Served

variable {pipe : Pipeline} {page : PageId → ArmsPage F (n + 1)}
  {freeList : FreeList → List PageId} {costs : CostEnv F}

omit [CFloat F]

theorem HotAt.served {p : PageId} (hhot : s.HotAt p) (hsame : s.SameInRange page)
    (hle : s.promoteIdx ≤ s.demoteIdx) : (s.served pipe page freeList costs).HotAt p := by
  obtain ⟨score, hentry⟩ := hhot.entry
  refine ⟨hhot.entry, hhot.rank, ?_⟩
  exact (congrArg ArmsPage.inDram (hsame _ _ hentry le_rfl hle)).trans hhot.tier

theorem ColdAt.served {cp : PageId} (hcold : s.ColdAt cp) (hsame : s.SameInRange page)
    (hle : s.promoteIdx ≤ s.demoteIdx) : (s.served pipe page freeList costs).ColdAt cp := by
  obtain ⟨score, hentry⟩ := hcold.entry
  refine ⟨hcold.entry, hcold.rank, ?_⟩
  exact (congrArg ArmsPage.inDram (hsame _ _ hentry hle le_rfl)).trans hcold.tier

theorem FactsAt.served {pc : LoopPc} (hfacts : s.FactsAt pc) (hsame : s.SameInRange page) :
    (s.served pipe page freeList costs).FactsAt pc := by
  cases pc with
  | selectHot =>
      intro hlt
      obtain ⟨entry, hentry, htier⟩ := hfacts hlt
      exact ⟨entry, hentry, (congrArg _ (hsame _ _ hentry le_rfl hlt.le)).trans htier⟩
  | takeDram => exact ⟨hfacts.1.served hsame hfacts.2.le, hfacts.2⟩
  | weighFree => exact ⟨hfacts.1.served hsame hfacts.2.le, hfacts.2⟩
  | submitFree => exact ⟨hfacts.1.served hsame hfacts.2.le, hfacts.2⟩
  | skipDemote => exact ⟨hfacts.1.served hsame hfacts.2, hfacts.2⟩
  | selectCold =>
      refine ⟨hfacts.1.served hsame hfacts.2.1, hfacts.2.1, fun hlt => ?_⟩
      obtain ⟨entry, hentry, htier⟩ := hfacts.2.2 hlt
      exact ⟨entry, hentry, (congrArg _ (hsame _ _ hentry hlt.le le_rfl)).trans htier⟩
  | weighSwap =>
      exact ⟨hfacts.1.served hsame hfacts.2.2.le, hfacts.2.1.served hsame hfacts.2.2.le,
        hfacts.2.2⟩
  | takeNvm =>
      exact ⟨hfacts.1.served hsame hfacts.2.2.le, hfacts.2.1.served hsame hfacts.2.2.le,
        hfacts.2.2⟩
  | submitSwap =>
      exact ⟨hfacts.1.served hsame hfacts.2.2.le, hfacts.2.1.served hsame hfacts.2.2.le,
        hfacts.2.2⟩
  | aborted => exact hfacts
  | loopTest => trivial
  | skipPromote => trivial
  | returnFree => trivial
  | wake => trivial
  | done => trivial
  | freePresent => trivial

end Served

/-- The frame rule for a migration thread: the loop does not notice it. -/
theorem LoopInv.frame (hinv : s.LoopInv earlier) {pipe : Pipeline}
    (hworker : Pipeline.WorkerStep s.pipe pipe) {page : PageId → ArmsPage F (n + 1)}
    (hkept : ∀ p, (page p).va = (s.page p).va ∧ (page p).canPromote = (s.page p).canPromote)
    (hsame : s.SameInRange page) {freeList : FreeList → List PageId}
    (hunscored : ∀ list, ∀ p ∈ freeList list, ¬ Scored s.scores p)
    (hmono : ∀ p ∈ s.freeList .dram, p ∈ freeList .dram) (costs : CostEnv F) :
    (s.served pipe page freeList costs).LoopInv earlier where
  marked := by
    refine ⟨hinv.marked.nodup, hinv.marked.sorted, fun entry hentry => ?_,
      fun k entry hk hentry => ?_⟩
    · change 0 < (page entry.page).va
      rw [(hkept _).1]
      exact hinv.marked.va_pos entry hentry
    · change (page entry.page).canPromote = false
      rw [(hkept _).2]
      exact hinv.marked.demoted k entry hk hentry
  indexed := ⟨hinv.indexed.demote_lt, hinv.indexed.crossed, hinv.indexed.sound,
    hinv.indexed.passed, hinv.indexed.ordered⟩
  accounted := by
    refine ⟨hinv.accounted.taken, fun entry hentry => ?_, hinv.accounted.returned_done,
      hunscored, hinv.accounted.unscored_taken⟩
    obtain ⟨hlist, hmem⟩ := hinv.accounted.returned entry hentry
    exact ⟨hlist, hmono _ hmem⟩
  piped := by
    refine ⟨fun req hpending => hinv.piped.pending req (hworker.pending req hpending),
      hworker.demotes hinv.piped.demoting, hworker.issued.trans hinv.piped.issued, ?_⟩
    change pipe.policy = .schedule ∨ s.pc = .wake ∧ pipe.policy = .wake
    rw [hworker.policy]
    exact hinv.piped.policy
  facts := FactsAt.served hinv.facts hsame

/-- A pending request of the interval is a move that the indices have passed. -/
theorem LoopInv.move_of_pending (hinv : s.LoopInv earlier) {req : MigrationReq}
    (hpending : s.pipe.Pending req) :
    ∃ m, m.req = req ∧ SoundMove s.dramPages s.scores m ∧
      Passed s.promoteIdx s.demoteIdx m ∧ ¬ Scored s.scores req.freePage := by
  obtain ⟨m, hm, rfl⟩ := hinv.piped.pending req hpending
  refine ⟨m, rfl, hinv.indexed.sound m hm, hinv.indexed.passed m hm, ?_⟩
  refine hinv.accounted.unscored_taken m.source ?_
  rw [hinv.accounted.taken]
  exact List.mem_append_left _ (List.mem_append_left _ (List.mem_map_of_mem hm))

/-- The pages of a pending request are not those between the indices. -/
theorem LoopInv.swapFrames_sameInRange (hinv : s.LoopInv earlier) {half : Half}
    {req : MigrationReq} (hpending : s.pipe.Pending req)
    (hneed : half = .demotion → req.needDemotion = true) :
    s.SameInRange (swapFrames s.page half req) := by
  obtain ⟨m, rfl, hsound, hpassed, hunscored⟩ := hinv.move_of_pending hpending
  intro k entry hentry hlow hhigh
  refine swapFrames_of_ne ?_ fun heq => hunscored ⟨entry, List.mem_of_getElem? hentry, heq⟩
  intro heq
  cases half with
  | demotion =>
      obtain ⟨other, hother, hpage⟩ := (hsound.cold (hneed rfl)).entry
      have hk := entry_index_unique hinv.marked.nodup hentry hother (heq.trans hpage.symm)
      have hcold := hpassed.cold (hneed rfl)
      omega
  | promotion =>
      obtain ⟨other, hother, hpage⟩ := hsound.entry
      have hk := entry_index_unique hinv.marked.nodup hentry hother (heq.trans hpage.symm)
      have hhot := hpassed.hot
      omega

theorem LoopInv.advancePipe {next : MigrationsLoop F n} (hinv : s.LoopInv earlier)
    {action : PipelineAction} (haction : action.ofWorker = true)
    (hstep : s.advancePipe action = some next) : next.LoopInv earlier := by
  obtain ⟨pipe, hpipe, rfl⟩ := Option.map_eq_some_iff.mp hstep
  exact hinv.frame ((Pipeline.step_cases hpipe).workerStep haction) (fun _ => ⟨rfl, rfl⟩)
    (fun _ _ _ _ _ => rfl) hinv.accounted.unscored (fun _ hp => hp) _

theorem LoopInv.finishHalf {next : MigrationsLoop F n} (hinv : s.LoopInv earlier) {i : ℕ}
    {half : Half} {present : Bool}
    (hstep : loopStep s (.finishHalf i half present) = some next) : next.LoopInv earlier := by
  rw [loopStep] at hstep
  split at hstep
  · rename_i req hreq
    obtain ⟨pc, hworker, hhalf⟩ := Option.bind_eq_some_iff.mp hreq
    obtain ⟨advanced, hadvance, rfl⟩ := Option.map_eq_some_iff.mp hstep
    obtain ⟨pipe, hpipe, rfl⟩ := Option.map_eq_some_iff.mp hadvance
    have hpc := eq_of_half_request hhalf
    have hpending : s.pipe.Pending req := by
      refine Pipeline.pending_of_worker hworker ?_
      rw [hpc]
      cases half <;> rfl
    have hneed : half = .demotion → req.needDemotion = true := by
      rintro rfl
      refine hinv.piped.demoting req (List.mem_of_getElem? (hworker.trans ?_))
      rw [hpc]
      rfl
    have hserved := (Pipeline.step_cases hpipe).workerStep (by cases half <;> rfl)
    cases present with
    | true =>
        exact hinv.frame hserved swapFrames_kept (hinv.swapFrames_sameInRange hpending hneed)
          hinv.accounted.unscored (fun _ hp => hp) _
    | false =>
        exact hinv.frame hserved (fun _ => ⟨rfl, rfl⟩) (fun _ _ _ _ _ => rfl)
          hinv.accounted.unscored (fun _ hp => hp) _
  · cases hstep

theorem LoopInv.recycle {next : MigrationsLoop F n} (hinv : s.LoopInv earlier) {i : ℕ}
    (hstep : loopStep s (.recycle i) = some next) : next.LoopInv earlier := by
  rw [loopStep] at hstep
  split at hstep
  · rename_i req outcome hworker
    obtain ⟨advanced, hadvance, rfl⟩ := Option.map_eq_some_iff.mp hstep
    obtain ⟨pipe, hpipe, rfl⟩ := Option.map_eq_some_iff.mp hadvance
    have hpending : s.pipe.Pending req := Pipeline.pending_of_worker hworker rfl
    obtain ⟨m, hm, hsound, hpassed, hunscored⟩ := hinv.move_of_pending hpending
    refine hinv.frame ((Pipeline.step_cases hpipe).workerStep rfl) (fun _ => ⟨rfl, rfl⟩)
      (fun _ _ _ _ _ => rfl) (fun list p hp => ?_) (fun p hp => ?_) _
    · rcases eq_or_ne list outcome.freeList with rfl | hne
      · rw [Function.update_self] at hp
        rcases List.mem_append.mp hp with hold | hnew
        · exact hinv.accounted.unscored _ p hold
        · exact List.mem_singleton.mp hnew ▸ hunscored
      · rw [Function.update_of_ne hne] at hp
        exact hinv.accounted.unscored list p hp
    · rcases eq_or_ne FreeList.dram outcome.freeList with heq | hne
      · rw [heq, Function.update_self]
        exact List.mem_append_left _ (heq ▸ hp)
      · rw [Function.update_of_ne hne]
        exact hp
  · cases hstep

/-- Step lemma: what the loop knows survives every step of every thread. -/
theorem LoopInv.step {next : MigrationsLoop F n} {action : LoopAction F}
    (hinv : s.LoopInv earlier) (hstep : loopStep s action = some next) :
    next.LoopInv earlier := by
  cases action with
  | policy => exact hinv.policyStep hstep
  | wakeUp i => exact hinv.advancePipe rfl hstep
  | dequeue i => exact hinv.advancePipe rfl hstep
  | finishHalf i half present => exact hinv.finishHalf hstep
  | measure promotionCostAvg demotionCostAvg =>
      rw [← Option.some.inj hstep]
      exact hinv.frame (.refl s.pipe) (fun _ => ⟨rfl, rfl⟩) (fun _ _ _ _ _ => rfl)
        hinv.accounted.unscored (fun _ hp => hp) _
  | recycle i => exact hinv.recycle hstep
  | postCompletion i => exact hinv.advancePipe rfl hstep
  | freeReq i => exact hinv.advancePipe rfl hstep

/-! ## The loop ends -/

end MigrationsLoop

/-- An upper bound for the steps that are left in the iteration. -/
def LoopPc.weight : LoopPc → ℕ
  | .wake => 15
  | .loopTest => 14
  | .skipPromote => 13
  | .selectHot => 12
  | .takeDram _ => 11
  | .weighFree _ _ => 10
  | .submitFree _ _ => 9
  | .skipDemote _ => 8
  | .selectCold _ => 7
  | .weighSwap _ _ => 6
  | .takeNvm _ _ => 5
  | .submitSwap _ _ _ => 4
  | .returnFree _ => 1
  | .done | .freePresent _ | .aborted => 0

def LoopAction.ofPolicy : LoopAction F → Bool
  | .policy => true
  | _ => false

namespace MigrationsLoop

/-- An upper bound for the steps that the policy thread has left. -/
def remaining (s : MigrationsLoop F n) : ℕ :=
  16 * (s.demoteIdx - s.promoteIdx) + s.pc.weight

variable {s next : MigrationsLoop F n} {earlier : List MigrationReq}

omit [CFloat F] in
theorem remaining_goto_lt {pc : LoopPc} (hlt : pc.weight < s.pc.weight) :
    (s.goto pc).remaining < s.remaining :=
  Nat.add_lt_add_left hlt _

omit [CFloat F] in
/-- An index that moves pays for a whole iteration. -/
theorem remaining_lt_of_narrowed
    (hnarrowed : next.demoteIdx - next.promoteIdx < s.demoteIdx - s.promoteIdx)
    (hpc : next.pc.weight < s.pc.weight + 16) : next.remaining < s.remaining := by
  unfold remaining
  omega

/-- The policy thread comes closer to the end of the loop with every step. -/
theorem LoopInv.policyStep_remaining (hinv : s.LoopInv earlier)
    (hstep : s.policyStep = some next) : next.remaining < s.remaining := by
  have hfacts := hinv.facts
  rw [PcFacts] at hfacts
  cases hpc : s.pc <;> simp only [MigrationsLoop.policyStep, hpc] at hstep <;> rw [hpc] at hfacts
  case loopTest =>
    split at hstep
    · split at hstep
      · rw [← Option.some.inj hstep]
        exact remaining_goto_lt (by rw [hpc]; decide)
      · obtain ⟨entry, hentry, rfl⟩ := Option.map_eq_some_iff.mp hstep
        refine remaining_goto_lt ?_
        rw [hpc]
        split <;> decide
    · rw [← Option.some.inj hstep]
      exact remaining_goto_lt (by rw [hpc]; decide)
  case skipPromote =>
    split at hstep
    · obtain ⟨entry, hentry, rfl⟩ := Option.map_eq_some_iff.mp hstep
      split
      · refine remaining_lt_of_narrowed ?_ (by rw [hpc]; simp [LoopPc.weight])
        simp only
        omega
      · exact remaining_goto_lt (by rw [hpc]; decide)
    · rw [← Option.some.inj hstep]
      exact remaining_goto_lt (by rw [hpc]; decide)
  case selectHot =>
    split at hstep
    · rw [← Option.some.inj hstep]
      exact remaining_goto_lt (by rw [hpc]; decide)
    · obtain ⟨entry, hentry, rfl⟩ := Option.map_eq_some_iff.mp hstep
      split
      · exact remaining_goto_lt (by rw [hpc]; decide)
      · split
        · exact remaining_goto_lt (by rw [hpc]; exact Nat.lt_succ_self 11)
        · refine remaining_lt_of_narrowed ?_ (by rw [hpc]; simp [LoopPc.weight])
          simp only
          omega
  case takeDram p =>
    split at hstep
    · rw [← Option.some.inj hstep]
      refine Nat.add_lt_add_left ?_ _
      rw [hpc]
      split <;> simp [LoopPc.weight, MigrationsLoop.goto]
    · rw [← Option.some.inj hstep]
      exact remaining_goto_lt (by rw [hpc]; simp [LoopPc.weight])
  case weighFree p np =>
    rw [← Option.some.inj hstep]
    refine remaining_goto_lt ?_
    rw [hpc]
    split <;> simp [LoopPc.weight]
  case returnFree np =>
    rw [← Option.some.inj hstep]
    refine Nat.add_lt_add_left ?_ _
    rw [hpc]
    exact Nat.zero_lt_one
  case submitFree p np =>
    rw [← Option.some.inj hstep]
    refine remaining_lt_of_narrowed ?_ (by rw [hpc]; simp [LoopPc.weight, MigrationsLoop.submit])
    have hlt := hfacts.2
    simp only [MigrationsLoop.submit]
    omega
  case skipDemote p =>
    split at hstep
    · obtain ⟨entry, hentry, rfl⟩ := Option.map_eq_some_iff.mp hstep
      split
      · exact remaining_goto_lt (by rw [hpc]; simp [LoopPc.weight])
      · refine remaining_lt_of_narrowed ?_ (by rw [hpc]; simp [LoopPc.weight])
        simp only
        omega
    · rw [← Option.some.inj hstep]
      exact remaining_goto_lt (by rw [hpc]; simp [LoopPc.weight])
  case selectCold p =>
    split at hstep
    · rw [← Option.some.inj hstep]
      exact remaining_goto_lt (by rw [hpc]; simp [LoopPc.weight])
    · obtain ⟨entry, hentry, rfl⟩ := Option.map_eq_some_iff.mp hstep
      refine remaining_goto_lt ?_
      rw [hpc]
      split <;> simp [LoopPc.weight]
  case weighSwap p cp =>
    rw [← Option.some.inj hstep]
    refine remaining_goto_lt ?_
    rw [hpc]
    split <;> simp [LoopPc.weight]
  case takeNvm p cp =>
    split at hstep
    · rw [← Option.some.inj hstep]
      refine Nat.add_lt_add_left ?_ _
      rw [hpc]
      simp [LoopPc.weight, MigrationsLoop.goto]
    · rw [← Option.some.inj hstep]
      exact remaining_goto_lt (by rw [hpc]; simp [LoopPc.weight])
  case submitSwap p cp np =>
    rw [← Option.some.inj hstep]
    refine remaining_lt_of_narrowed ?_ (by rw [hpc]; simp [LoopPc.weight, MigrationsLoop.submit])
    have hlt := hfacts.2.2
    simp only
    omega
  case wake =>
    split at hstep
    · obtain ⟨pipe, hpipe, rfl⟩ := Option.map_eq_some_iff.mp hstep
      refine Nat.add_lt_add_left ?_ _
      rw [hpc]
      exact Nat.lt_succ_self 14
    · rw [← Option.some.inj hstep]
      exact remaining_goto_lt (by rw [hpc]; decide)
  all_goals cases hstep

theorem remaining_le_of_worker {action : LoopAction F} (hworker : action.ofPolicy = false)
    (hstep : loopStep s action = some next) : next.remaining ≤ s.remaining := by
  have hpipe : ∀ {pipeAction : PipelineAction} {after : MigrationsLoop F n},
      s.advancePipe pipeAction = some after → after.remaining = s.remaining := by
    intro pipeAction after hafter
    obtain ⟨pipe, _, rfl⟩ := Option.map_eq_some_iff.mp hafter
    rfl
  cases action with
  | policy => cases hworker
  | wakeUp i => exact (hpipe hstep).le
  | dequeue i => exact (hpipe hstep).le
  | postCompletion i => exact (hpipe hstep).le
  | freeReq i => exact (hpipe hstep).le
  | measure promotionCostAvg demotionCostAvg =>
      rw [← Option.some.inj hstep]
      exact le_rfl
  | finishHalf i half present =>
      rw [loopStep] at hstep
      split at hstep
      · obtain ⟨after, hafter, rfl⟩ := Option.map_eq_some_iff.mp hstep
        cases present <;> exact (hpipe hafter).le
      · cases hstep
  | recycle i =>
      rw [loopStep] at hstep
      split at hstep
      · obtain ⟨after, hafter, rfl⟩ := Option.map_eq_some_iff.mp hstep
        exact (hpipe hafter).le
      · cases hstep

omit [CFloat F] in
theorem exists_entry (hlt : s.demoteIdx < s.scores.length) {i : ℕ} (hi : i ≤ s.demoteIdx) :
    ∃ entry, s.scores[i]? = some entry :=
  ⟨_, List.getElem?_eq_getElem (Nat.lt_of_le_of_lt hi hlt)⟩

/-- Unless the loop has ended, its next step is defined: it reads no entry
past the end of `scores`. -/
theorem LoopInv.exists_policyStep (hinv : s.LoopInv earlier) (hhalted : s.pc.halted = false) :
    ∃ next, s.policyStep = some next := by
  have hread : ∀ {i : ℕ} (f : ScoreEntry F → MigrationsLoop F n), i ≤ s.demoteIdx →
      ∃ next, s.scores[i]?.map f = some next := by
    intro i f hi
    obtain ⟨entry, hentry⟩ := exists_entry hinv.indexed.demote_lt hi
    exact ⟨f entry, by rw [hentry]; rfl⟩
  cases hpc : s.pc <;> simp only [MigrationsLoop.policyStep, hpc]
  case loopTest =>
    split
    · rename_i hcond
      split
      · exact ⟨_, rfl⟩
      · exact hread _ hcond.2.le
    · exact ⟨_, rfl⟩
  case skipPromote =>
    split
    · rename_i hlt
      exact hread _ hlt.le
    · exact ⟨_, rfl⟩
  case selectHot =>
    split
    · exact ⟨_, rfl⟩
    · rename_i hge
      exact hread _ (Nat.le_of_not_le hge)
  case takeDram => split <;> exact ⟨_, rfl⟩
  case skipDemote =>
    split
    · exact hread _ le_rfl
    · exact ⟨_, rfl⟩
  case selectCold =>
    split
    · exact ⟨_, rfl⟩
    · exact hread _ le_rfl
  case takeNvm => split <;> exact ⟨_, rfl⟩
  case wake =>
    split
    · rename_i hpolicy
      exact ⟨_, by rw [pipelineStep, if_pos hpolicy]; rfl⟩
    · exact ⟨_, rfl⟩
  case done => rw [hpc] at hhalted; cases hhalted
  case freePresent => rw [hpc] at hhalted; cases hhalted
  case aborted => rw [hpc] at hhalted; cases hhalted
  all_goals exact ⟨_, rfl⟩

/-! ## What has been scheduled -/

/-- The pages that the requests of the interval name: all hot pages, then all
cold pages. -/
def namedPages (s : MigrationsLoop F n) : List PageId :=
  s.moves.map (fun m => m.req.nvmPage) ++
    (s.moves.filter fun m => m.req.needDemotion).map fun m => m.req.dramPage

/-- `nvm_page` was in NVM, and its rank is among the top pages. -/
def HotChoice (s : MigrationsLoop F n) (m : Move) : Prop :=
  m.nvmPageInDram = false ∧ ∃ rank entry, rank < s.dramPages ∧
    s.scores[rank]? = some entry ∧ entry.page = m.req.nvmPage

/-- `dram_page` was in DRAM, its rank is below the top pages, and its score is
not larger than that of its partner. -/
def ColdChoice (s : MigrationsLoop F n) (m : Move) : Prop :=
  m.dramPageInDram = true ∧ ∃ rank entry partner, s.dramPages < rank ∧
    s.scores[rank]? = some entry ∧ entry.page = m.req.dramPage ∧
    partner ∈ s.scores ∧ partner.page = m.req.nvmPage ∧
    CFloat.lt partner.score entry.score = false

structure SoundMoves (s : MigrationsLoop F n) : Prop where
  distinct : s.namedPages.Nodup
  hot : ∀ m ∈ s.moves, s.HotChoice m
  cold : ∀ m ∈ s.moves, m.req.needDemotion = true → s.ColdChoice m

/-- Each page taken from a free list went into one request, in the order
taken, but for the last one while it is in hand, or when it is back on its
list. -/
structure FreePagesKept (s : MigrationsLoop F n) : Prop where
  taken : s.taken = s.moves.map Move.source ++ s.pc.inHand ++ s.returned
  back : ∀ entry ∈ s.returned, entry.2 ∈ s.freeList entry.1

theorem LoopInv.namedPages_nodup (hinv : s.LoopInv earlier) : s.namedPages.Nodup := by
  have hcrossed := hinv.indexed.crossed
  refine List.nodup_append.mpr ⟨?_, ?_, ?_⟩
  · refine List.pairwise_map.mpr (hinv.indexed.ordered.imp_of_mem ?_)
    intro left right hleft hright hinward heq
    obtain ⟨leftEntry, hleftEntry, hleftPage⟩ := (hinv.indexed.sound left hleft).entry
    obtain ⟨rightEntry, hrightEntry, hrightPage⟩ := (hinv.indexed.sound right hright).entry
    have hsame := entry_index_unique hinv.marked.nodup hleftEntry hrightEntry
      (by rw [hleftPage, hrightPage, heq])
    exact absurd hsame hinward.1.ne
  · refine List.pairwise_map.mpr ((hinv.indexed.ordered.filter _).imp_of_mem ?_)
    intro left right hleft hright hinward heq
    obtain ⟨hleftMem, hleftNeed⟩ := List.mem_filter.mp hleft
    obtain ⟨hrightMem, hrightNeed⟩ := List.mem_filter.mp hright
    obtain ⟨leftEntry, hleftEntry, hleftPage⟩ :=
      ((hinv.indexed.sound left hleftMem).cold hleftNeed).entry
    obtain ⟨rightEntry, hrightEntry, hrightPage⟩ :=
      ((hinv.indexed.sound right hrightMem).cold hrightNeed).entry
    have hsame := entry_index_unique hinv.marked.nodup hleftEntry hrightEntry
      (by rw [hleftPage, hrightPage, heq])
    exact absurd hsame (hinward.2 hrightNeed hleftNeed).ne'
  · intro hot hhot cold hcold heq
    obtain ⟨left, hleft, rfl⟩ := List.mem_map.mp hhot
    obtain ⟨right, hright, rfl⟩ := List.mem_map.mp hcold
    obtain ⟨hrightMem, hrightNeed⟩ := List.mem_filter.mp hright
    obtain ⟨leftEntry, hleftEntry, hleftPage⟩ := (hinv.indexed.sound left hleft).entry
    obtain ⟨rightEntry, hrightEntry, hrightPage⟩ :=
      ((hinv.indexed.sound right hrightMem).cold hrightNeed).entry
    have hsame := entry_index_unique hinv.marked.nodup hleftEntry hrightEntry
      (by rw [hleftPage, hrightPage, heq])
    -- hot indices lie before both bounds, cold indices after them
    have hhotPassed := (hinv.indexed.passed left hleft).hot
    have hcoldPassed := (hinv.indexed.passed right hrightMem).cold hrightNeed
    omega

theorem LoopInv.soundMoves (hinv : s.LoopInv earlier) : s.SoundMoves where
  distinct := hinv.namedPages_nodup
  hot m hm := by
    obtain ⟨entry, hentry, hpage⟩ := (hinv.indexed.sound m hm).entry
    exact ⟨(hinv.indexed.sound m hm).tier, _, entry, (hinv.indexed.sound m hm).rank, hentry, hpage⟩
  cold m hm hneed := by
    obtain ⟨hot, hhot, hhotPage⟩ := (hinv.indexed.sound m hm).entry
    obtain ⟨⟨cold, hcold, hcoldPage⟩, hrank, horder, htier⟩ :=
      (hinv.indexed.sound m hm).cold hneed
    obtain ⟨hhotLt, hhotGet⟩ := List.getElem?_eq_some_iff.mp hhot
    obtain ⟨hcoldLt, hcoldGet⟩ := List.getElem?_eq_some_iff.mp hcold
    have hscore := List.pairwise_iff_getElem.mp hinv.marked.sorted _ _ hhotLt hcoldLt horder
    rw [hhotGet, hcoldGet] at hscore
    exact ⟨htier, _, cold, hot, hrank, hcold, hcoldPage, List.mem_of_getElem? hhot, hhotPage,
      hscore⟩

theorem LoopInv.freePagesKept (hinv : s.LoopInv earlier) : s.FreePagesKept where
  taken := hinv.accounted.taken
  back entry hentry := by
    obtain ⟨hlist, hmem⟩ := hinv.accounted.returned entry hentry
    rw [hlist]
    exact hmem

/-- The loop starts with its invariant. -/
theorem loopInv_enterLoop {scores : List (ScoreEntry F)} {page : PageId → ArmsPage F (n + 1)}
    {freeList : FreeList → List PageId} {pipe : Pipeline} (dramPages maxMigrations : ℕ)
    (costs : CostEnv F) (hscores : SortedScores scores page) (hlength : 1 ≤ scores.length)
    (hfree : ∀ list, ∀ p ∈ freeList list, ¬ Scored scores p) (hpipe : pipe.Collected) :
    (enterLoop dramPages maxMigrations scores costs page freeList pipe).LoopInv pipe.issued where
  marked := by
    refine ⟨hscores.nodup, hscores.sorted, fun entry hentry => ?_,
      fun k entry hk hentry => ?_⟩
    · obtain ⟨k, hk⟩ := List.getElem?_of_mem hentry
      change 0 < (markScores dramPages scores page entry.page).va
      rw [markScores_entry dramPages page hscores.nodup hk, markRank_va]
      exact hscores.va_pos entry hentry
    · change (markScores dramPages scores page entry.page).canPromote = false
      rw [markScores_entry dramPages page hscores.nodup hentry, markRank_canPromote]
      exact if_neg (Nat.not_lt_of_le hk)
  indexed := by
    refine ⟨Nat.sub_one_lt_of_lt hlength, Nat.zero_le _, ?_, ?_, List.Pairwise.nil⟩ <;>
      exact fun m hm => absurd hm List.not_mem_nil
  accounted := by
    refine ⟨rfl, ?_, fun hne => absurd rfl hne, hfree, ?_⟩ <;>
      exact fun entry hentry => absurd hentry List.not_mem_nil
  piped := by
    refine ⟨fun req hpending => absurd hpending (hpipe.none_pending req), fun req hreq => ?_,
      (List.append_nil _).symm, .inl hpipe.policy⟩
    exact absurd (.inr ⟨_, hreq, rfl⟩) (hpipe.none_pending req)
  facts := trivial

end MigrationsLoop

/-- One round of the migrations loop: for any free lists, cost averages and
budget, and with migration threads completing requests between any two steps,
the requests queued are sound, no free page is lost, no assertion on a selected
page fails, and the policy thread takes at most `16` steps for each score. -/
theorem migrationsLoop_sound {scores : List (ScoreEntry F)}
    {page : PageId → ArmsPage F (n + 1)} {freeList : FreeList → List PageId} {pipe : Pipeline}
    (dramPages maxMigrations : ℕ) (costs : CostEnv F) (hscores : SortedScores scores page)
    (hlength : 1 ≤ scores.length) (hfree : ∀ list, ∀ p ∈ freeList list, ¬ Scored scores p)
    (hpipe : pipe.Collected) {actions : List (LoopAction F)} {s : MigrationsLoop F n}
    (hrun : run loopStep (enterLoop dramPages maxMigrations scores costs page freeList pipe)
      actions = some s) :
    s.SoundMoves ∧ s.FreePagesKept ∧ s.pipe.issued = pipe.issued ++ s.moves.map Move.req ∧
      s.pc ≠ .aborted ∧ actions.countP LoopAction.ofPolicy ≤ 16 * scores.length ∧
      (s.pc.halted = false → ∃ next, loopStep s .policy = some next) := by
  have hstart := MigrationsLoop.loopInv_enterLoop dramPages maxMigrations costs hscores hlength
    hfree hpipe
  have hinv : s.LoopInv pipe.issued :=
    run_preserves (fun s => s.LoopInv pipe.issued) (fun _ _ _ h hstep => h.step hstep) hstart hrun
  have hbound := run_countP_le (fun s => s.LoopInv pipe.issued) MigrationsLoop.remaining
    LoopAction.ofPolicy (fun _ _ _ h hstep => h.step hstep)
    (fun s action next h hstep hpolicy => by
      cases action <;> cases hpolicy
      exact h.policyStep_remaining hstep)
    (fun s action next _ hstep hworker =>
      MigrationsLoop.remaining_le_of_worker hworker hstep) hstart hrun
  refine ⟨hinv.soundMoves, hinv.freePagesKept, hinv.piped.issued, fun haborted => ?_, ?_,
    hinv.exists_policyStep⟩
  · have hfacts := hinv.facts
    rw [MigrationsLoop.PcFacts, haborted] at hfacts
    exact hfacts
  · have hweight : (enterLoop dramPages maxMigrations scores costs page freeList pipe).remaining =
        16 * (scores.length - 1 - 0) + 14 := rfl
    omega

/-! A round in which the hottest page is in NVM and no DRAM page is free: it is
swapped with the coldest page, while worker 0 is asleep. -/

def swapPage (p : PageId) : ArmsPage ℚ 2 :=
  let page : ArmsPage ℚ 2 := { callocPage 0 false with va := (p + 1) * hugepageSize }
  match p with
  | 1 => { page with w := ![9, 8], score := 9, prevScore := 9, hotAge := 2 }
  | 2 => { page with w := ![1, 1], score := 1, inDram := true }
  | _ => page

def swapScores : List (ScoreEntry ℚ) := [⟨1, 9⟩, ⟨3, 5⟩, ⟨2, 1⟩]

def swapFreeList : FreeList → List PageId
  | .dram => []
  | .nvm => [5]

def scheduling : Pipeline := { pipelineInit 1 with policy := .schedule }

theorem sortedScores_swap : SortedScores swapScores swapPage where
  nodup := by decide
  sorted := by decide +kernel
  va_pos := by simp [swapScores, swapPage, hugepageSize]

theorem collected_scheduling : scheduling.Collected := by
  refine ⟨rfl, fun req hpending => ?_⟩
  rcases hpending with hqueue | ⟨worker, hworker, hreq⟩
  · exact absurd hqueue List.not_mem_nil
  · obtain rfl : worker = .asleep := List.eq_of_mem_replicate hworker
    cases hreq

theorem migrationsLoop_sound_swap :
    ∃ s, run loopStep (enterLoop 1 4 swapScores ⟨600, 600, 1⟩ swapPage swapFreeList scheduling)
        (List.replicate 11 .policy) = some s ∧ s.moves.length = 1 ∧ s.SoundMoves := by
  have hmoves : (run loopStep
      (enterLoop 1 4 swapScores ⟨600, 600, 1⟩ swapPage swapFreeList scheduling)
      (List.replicate 11 .policy)).map (fun s => s.moves.length) = some 1 := by
    decide +kernel
  obtain ⟨s, hrun, hlength⟩ := Option.map_eq_some_iff.mp hmoves
  have hfree : ∀ list, ∀ p ∈ swapFreeList list, ¬ Scored swapScores p := by
    intro list p hp
    cases list <;> simp_all [swapFreeList, Scored, swapScores]
  exact ⟨s, hrun, hlength, (migrationsLoop_sound 1 4 ⟨600, 600, 1⟩ sortedScores_swap (by decide)
    hfree collected_scheduling hrun).1⟩

end ArmsTiering
