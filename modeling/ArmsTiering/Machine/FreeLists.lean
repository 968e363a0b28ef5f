import ArmsTiering.Core.Transition
import ArmsTiering.Machine.Places

/-!
# The free lists

Free pages are not present and lie in the tier of their list.  This holds as
long as the policy thread finds `present` cleared in each page that it puts on
a free list: the record of a removed page is pushed before `pebs_remove_page`
clears `present`, so the policy thread can come too early.
-/

namespace ArmsTiering

open Counting

/-- Where a worker goes at the end of a half. -/
def Half.after : Half → MigrationReq → Bool → Worker
  | .demotion, req, true => .promote req
  | .demotion, req, false => .recycle req .demotionAbandoned
  | .promotion, req, true => .recycle req .migrated
  | .promotion, req, false => .recycle req .promotionAbandoned

theorem Half.finish_eq {s next : Pipeline} {half : Half} {i : ℕ} {present : Bool}
    {req : MigrationReq} (hworker : s.workers[i]? = some (half.worker req))
    (hstep : pipelineStep s (half.finish i present) = some next) :
    next = s.setWorker i (half.after req present) := by
  cases half <;> cases present <;>
    simp_all [Half.finish, Half.worker, Half.after, pipelineStep]

theorem Half.worker_inj {half other : Half} {req otherReq : MigrationReq}
    (hworker : half.worker req = other.worker otherReq) : half = other ∧ req = otherReq := by
  cases half <;> cases other <;> simp_all [Half.worker]

/-- The half needs the free page in the tier that the page moves to. -/
theorem Half.demand_worker (half : Half) (req : MigrationReq) :
    (half.worker req).demand = some (req.freePage, !half.sourceInDram) := by
  cases half <;> rfl

/-- Having moved the page, the worker keeps the frame that the page left. -/
theorem Half.demand_after (half : Half) (req : MigrationReq) (present : Bool) :
    (half.after req present).demand =
      some (req.freePage, if present then half.sourceInDram else !half.sourceInDram) := by
  cases half <;> cases present <;> rfl

namespace Pipeline

theorem Step.halfWorker {s next : Pipeline} {action : PipelineAction} (hstep : Step s action next)
    (hplain : action.plain = true) {i : ℕ} {half : Half} {req : MigrationReq}
    (hworker : next.workers[i]? = some (half.worker req)) :
    s.workers[i]? = some (half.worker req) ∨ s.workers[i]? = some .scan := by
  have hmoved : ∀ (j : ℕ) (old new : Worker), s.workers[j]? = some old →
      (s.workers.set j new)[i]? = some (half.worker req) → new ≠ half.worker req ∨ old = .scan →
        s.workers[i]? = some (half.worker req) ∨ s.workers[i]? = some .scan := by
    intro j old new hold hset hnew
    obtain ⟨rfl, hfound⟩ | ⟨-, hother⟩ := getElem?_set_cases hset
    · obtain hnew | rfl := hnew
      · exact absurd hfound.symm hnew
      · exact Or.inr hold
    · exact Or.inl hother
  cases hstep with
  | submit | beginSchedule | endDemote | endPromote | recycle => cases hplain
  | skipInterval | beginWait | awaitCompletion | postSubmission | endInterval =>
      exact Or.inl hworker
  | wakeUp j hold | dequeueNone j hold | postCompletion j _ hold | freeReq j _ hold =>
      exact hmoved j _ _ hold hworker (Or.inl (by cases half <;> simp [Half.worker]))
  | dequeue j r rest hold => exact hmoved j _ _ hold hworker (Or.inr rfl)

theorem Step.halfWorker_stays {s next : Pipeline} {action : PipelineAction}
    (hstep : Step s action next) (hplain : action.plain = true) {i : ℕ} {half : Half}
    {req : MigrationReq} (hworker : s.workers[i]? = some (half.worker req)) :
    next.workers[i]? = some (half.worker req) := by
  have hmoved : ∀ (j : ℕ) (old new : Worker), s.workers[j]? = some old →
      old ≠ half.worker req → (s.workers.set j new)[i]? = some (half.worker req) := by
    intro j old new hold hne
    have hij : j ≠ i := by
      rintro rfl
      exact hne (Option.some.inj (hold.symm.trans hworker))
    rw [List.getElem?_set_ne hij]
    exact hworker
  cases hstep with
  | submit | beginSchedule | endDemote | endPromote | recycle => cases hplain
  | skipInterval | beginWait | awaitCompletion | postSubmission | endInterval => exact hworker
  | wakeUp j hold | dequeueNone j hold | dequeue j _ _ hold | postCompletion j _ hold
  | freeReq j _ hold =>
      exact hmoved j _ _ hold (by cases half <;> simp [Half.worker])

end Pipeline

/-- Where a step takes the acting worker, if it does. -/
def MachineAction.workerMove : MachineAction → Option (ℕ × Worker)
  | .testAbsent i half req => some (i, half.after req false)
  | .give i half req _ => some (i, half.after req true)
  | .recycle i req _ => some (i, .post req)
  | _ => none

namespace Machine

/-- Every page on a free list is free and in the list's tier. -/
def FreeListsOk (s : Machine) : Prop :=
  ∀ list, ∀ p ∈ s.freeList list, (s.page p).inDram = list.inDram ∧ (s.page p).present = false

/-- A page that the policy thread puts on a free list is no longer present. -/
def DrainsCleared (s : Machine) : MachineAction → Prop
  | .drain mp =>
      mp.free = true → s.pagesMap (s.page mp.page).va ≠ none →
        (s.page mp.page).present = false
  | _ => True

/-! ## The invariant -/

/-- Worker `i` holds the lock of a page that it has found present. -/
def Holds (s : Machine) (i : ℕ) (p : PageId) : Prop :=
  s.pageLock p = some i ∧ (s.page p).present = true

/-- What a worker knows about the page that it moves. -/
def StageOk (s : Machine) (i : ℕ) (half : Half) (req : MigrationReq) : Stage → Prop
  | .start | .unlocked _ => True
  | .locked oldOffset | .writeProtected oldOffset =>
      s.Holds i (half.page req) ∧ (s.page (half.page req)).devdaxOffset = oldOffset
  | .copied oldOffset =>
      s.Holds i (half.page req) ∧ (s.page (half.page req)).devdaxOffset = oldOffset ∧
        (s.page (half.page req)).inDram = half.sourceInDram
  | .remapped _ => s.Holds i (half.page req)

structure Tiers (s : Machine) : Prop where
  lists : s.FreeListsOk
  stages : ∀ i half req, s.pipe.workers[i]? = some (half.worker req) →
    s.StageOk i half req (s.stage i)
  started : ∀ i, s.stage i ≠ .start →
    ∃ half req, s.pipe.workers[i]? = some (Half.worker half req)
  lent : ∀ np inDram, s.pipe.Demands np inDram →
    (s.page np).inDram = inDram ∧ (s.page np).present = false

/-! ## Exclusion -/

theorem freeCount_pos {s : Machine} {list : FreeList} {p : PageId} (hmem : p ∈ s.freeList list) :
    0 < s.freeCount p := by
  have hcount := List.count_pos_iff.mpr hmem
  unfold freeCount
  cases list <;> omega

theorem Placed.not_lent {s : Machine} (hplaced : s.Placed) {list : FreeList} {p : PageId}
    (hmem : p ∈ s.freeList list) {inDram : Bool} : ¬ s.pipe.Demands p inDram := by
  intro hdemands
  have honce := hplaced.once p
  have hfree := freeCount_pos hmem
  have hlent := hdemands.borrowed_pos
  unfold places at honce
  omega

/-- A dequeued page is gone from the free lists. -/
theorem Placed.dequeued {s : Machine} (hplaced : s.Placed) {list other : FreeList} {q p : PageId}
    (hhead : (s.freeList list).head? = some q) (hmem : p ∈ (s.dequeueFifo list).freeList other) :
    p ∈ s.freeList other ∧ p ≠ q := by
  constructor
  · by_cases hlist : other = list
    · subst hlist
      exact List.mem_of_mem_tail (by simpa [dequeueFifo] using hmem)
    · simpa [dequeueFifo, hlist] using hmem
  · rintro rfl
    have honce := hplaced.once p
    have hleft := freeCount_pos hmem
    have hcount := freeCount_dequeueFifo hhead p
    rw [beq_self_eq_true, one_true] at hcount
    unfold places at honce
    omega

theorem mem_enqueueFifo {s : Machine} {list other : FreeList} {q p : PageId}
    (hmem : p ∈ (s.enqueueFifo list q).freeList other) :
    p ∈ s.freeList other ∨ other = list ∧ p = q := by
  by_cases hlist : other = list
  · subst hlist
    simpa [enqueueFifo] using hmem
  · exact Or.inl (by simpa [enqueueFifo, hlist] using hmem)

/-! ## Step lemmas -/

theorem FreeListsOk.of_same {s t : Machine} (hlists : s.FreeListsOk)
    (hsame : ∀ list p, p ∈ t.freeList list → p ∈ s.freeList list ∧ SameLocation s t p) :
    t.FreeListsOk := by
  intro list p hmem
  obtain ⟨hold, htier, hpresent, -⟩ := hsame list p hmem
  rw [htier, hpresent]
  exact hlists list p hold

theorem Tiers.lists_effect {s : Machine} {action : MachineAction} (hplaced : s.Placed)
    (htiers : s.Tiers) (henabled : s.Enabled action) (hasserts : s.Asserts action)
    (hcleared : s.DrainsCleared action) : (s.effect action).FreeListsOk := by
  have hlists := htiers.lists
  cases action with
  | allocate c va list q =>
      refine hlists.of_same fun other p hmem => ?_
      obtain ⟨hold, hne⟩ := hplaced.dequeued henabled.2.2.1 hmem
      exact ⟨hold, sameLocation_effect s (by simpa [MachineAction.moved] using hne.symm)⟩
  | clearPresent c va q =>
      intro list p hmem
      by_cases hpq : p = q
      · subst hpq
        simpa [effect, setClient, setPage] using (hlists list p hmem).1
      · have hsame : SameLocation s (s.effect (.clearPresent c va q)) p :=
          sameLocation_effect s (by simpa [MachineAction.moved] using Ne.symm hpq)
        rw [hsame.1, hsame.2.1]
        exact hlists list p hmem
  | remap i half req oldOffset =>
      refine hlists.of_same fun list p hmem => ⟨hmem, ?_⟩
      have hok := htiers.stages i half req henabled.1
      rw [henabled.2] at hok
      have hne : p ≠ half.page req := by
        rintro rfl
        have habsent := (hlists list _ hmem).2
        rw [hok.1.2] at habsent
        cases habsent
      exact sameLocation_effect s (by simpa [MachineAction.moved] using hne.symm)
  | give i half req oldOffset =>
      refine hlists.of_same fun list p hmem => ⟨hmem, ?_⟩
      have hne : p ≠ req.freePage := by
        rintro rfl
        exact hplaced.not_lent hmem (Or.inr ⟨i, _, henabled.1, half.demand_worker req⟩)
      exact sameLocation_effect s (by simpa [MachineAction.moved] using hne.symm)
  | drain mp =>
      intro list p hmem
      have hsame := sameLocation_effect s (show (MachineAction.drain mp).moved ≠ some p by simp [MachineAction.moved])
      rw [hsame.1, hsame.2.1]
      simp only [effect] at hmem
      split at hmem
      · rename_i hfrees
        obtain ⟨hfree, hfound⟩ := drainFrees_iff.mp hfrees
        obtain hold | ⟨rfl, rfl⟩ := mem_enqueueFifo hmem
        · exact hlists list p hold
        · refine ⟨?_, hcleared hfree hfound⟩
          cases (s.page mp.page).inDram <;> rfl
      · exact hlists list p hmem
  | schedulePromotion key q np =>
      refine hlists.of_same fun other p hmem => ?_
      exact ⟨(hplaced.dequeued henabled.2.2 hmem).1, sameLocation_effect s (by simp [MachineAction.moved])⟩
  | scheduleDemotion key coldKey q cp np =>
      refine hlists.of_same fun other p hmem => ?_
      exact ⟨(hplaced.dequeued henabled.2.2.2.2.2 hmem).1, sameLocation_effect s (by simp [MachineAction.moved])⟩
  | returnFree np =>
      intro list p hmem
      obtain hold | ⟨rfl, rfl⟩ := mem_enqueueFifo hmem
      · exact hlists list p (hplaced.dequeued henabled hold).1
      · exact hlists .dram p (List.mem_of_mem_head? henabled)
  | recycle i req outcome =>
      intro list p hmem
      have hsame := sameLocation_effect s (show (MachineAction.recycle i req outcome).moved ≠ some p by
        simp [MachineAction.moved])
      rw [hsame.1, hsame.2.1]
      obtain hold | ⟨rfl, rfl⟩ := mem_enqueueFifo hmem
      · exact hlists list p hold
      · exact htiers.lent _ _ (Or.inr ⟨i, _, henabled.1, rfl⟩)
  | writeProtect | setVa =>
      exact hlists.of_same fun other p hmem => ⟨hmem, sameLocation_effect s (by simp [MachineAction.moved])⟩
  | _ => exact hlists

/-- What a worker knows survives a step that leaves its locked page alone. -/
theorem StageOk.congr {s t : Machine} {i : ℕ} {half : Half} {req : MigrationReq} {stage : Stage}
    (hok : s.StageOk i half req stage)
    (hsame : s.Holds i (half.page req) →
      t.pageLock (half.page req) = s.pageLock (half.page req) ∧
        SameLocation s t (half.page req)) :
    t.StageOk i half req stage := by
  have hholds : s.Holds i (half.page req) → t.Holds i (half.page req) := by
    intro hheld
    obtain ⟨hlock, -, hpresent, -⟩ := hsame hheld
    exact ⟨hlock.trans hheld.1, hpresent.trans hheld.2⟩
  cases stage with
  | start | unlocked => trivial
  | locked oldOffset | writeProtected oldOffset =>
      exact ⟨hholds hok.1, (hsame hok.1).2.2.2.trans hok.2⟩
  | copied oldOffset =>
      exact ⟨hholds hok.1, (hsame hok.1).2.2.2.trans hok.2.1, (hsame hok.1).2.1.trans hok.2.2⟩
  | remapped oldOffset => exact hholds hok

theorem Holds.ne_of_lock {s : Machine} {i : ℕ} {p q : PageId} {holder : Option ℕ}
    (hholds : s.Holds i p) (hlock : s.pageLock q = holder) (hne : holder ≠ some i) : p ≠ q := by
  rintro rfl
  exact hne (hlock.symm.trans hholds.1)

theorem Holds.ne_of_absent {s : Machine} {i : ℕ} {p q : PageId}
    (hholds : s.Holds i p) (habsent : (s.page q).present = false) : p ≠ q := by
  rintro rfl
  rw [hholds.2] at habsent
  cases habsent

/-- What a worker holds, the steps of others leave alone. -/
theorem Tiers.holds_effect {s : Machine} {action : MachineAction} (htiers : s.Tiers)
    (henabled : s.Enabled action) (hasserts : s.Asserts action) {j : ℕ} {p : PageId}
    (hholds : s.Holds j p) (hactor : action.actor ≠ some j) :
    (s.effect action).pageLock p = s.pageLock p ∧ SameLocation s (s.effect action) p := by
  have hother : ∀ {i : ℕ}, action.actor = some i → some i ≠ some j := by
    intro i hi
    rwa [← hi]
  cases action with
  | allocate c va list q =>
      refine ⟨rfl, sameLocation_effect s ?_⟩
      simpa [MachineAction.moved] using (hholds.ne_of_absent hasserts.2).symm
  | clearPresent c va q =>
      refine ⟨rfl, sameLocation_effect s ?_⟩
      simpa [MachineAction.moved] using (hholds.ne_of_lock henabled.2 (by simp)).symm
  | testPresent i half req =>
      refine ⟨?_, sameLocation_effect s (by simp [MachineAction.moved])⟩
      have hne := hholds.ne_of_lock henabled.2.1 (by simp)
      simp [effect, setStage, setLock, hne]
  | testAbsent i half req =>
      refine ⟨?_, sameLocation_effect s (by simp [MachineAction.moved])⟩
      cases half with
      | demotion => rfl
      | promotion =>
          have hne : p ≠ req.nvmPage := hholds.ne_of_lock henabled.2.1 (by simp)
          simp [effect, hne]
  | remap i half req oldOffset =>
      refine ⟨rfl, sameLocation_effect s ?_⟩
      have hacting := htiers.stages i half req henabled.1
      rw [henabled.2] at hacting
      have hne := hholds.ne_of_lock hacting.1.1 (hother rfl)
      simpa [MachineAction.moved] using hne.symm
  | unlock i half req oldOffset =>
      refine ⟨?_, sameLocation_effect s (by simp [MachineAction.moved])⟩
      have hne := hholds.ne_of_lock henabled.2 (hother rfl)
      simp [effect, setStage, setLock, hne]
  | give i half req oldOffset =>
      refine ⟨rfl, sameLocation_effect s ?_⟩
      have hlent := htiers.lent _ _ (Or.inr ⟨i, _, henabled.1, half.demand_worker req⟩)
      simpa [MachineAction.moved] using (hholds.ne_of_absent hlent.2).symm
  | recycle i req outcome =>
      refine ⟨?_, sameLocation_effect s (by simp [MachineAction.moved])⟩
      by_cases houtcome : outcome = .promotionAbandoned
      · have hne : p ≠ req.nvmPage := hholds.ne_of_lock (henabled.2 houtcome) (hother rfl)
        simp [effect, houtcome, hne]
      · simp [effect, houtcome]
  | _ => exact ⟨rfl, sameLocation_effect s (by simp [MachineAction.moved])⟩

theorem Tiers.stages_effect {s : Machine} {action : MachineAction} (htiers : s.Tiers)
    (henabled : s.Enabled action) (hasserts : s.Asserts action) {j : ℕ} {half : Half}
    {req : MigrationReq} (hworker : s.pipe.workers[j]? = some (half.worker req)) :
    (s.effect action).StageOk j half req ((s.effect action).stage j) := by
  have hok := htiers.stages j half req hworker
  by_cases hactor : action.actor = some j
  · -- the acting worker is `j`
    have hself : ∀ {other : Half} {otherReq : MigrationReq} {stage : Stage},
        s.At j other otherReq stage → other = half ∧ otherReq = req ∧ s.stage j = stage := by
      rintro other otherReq stage ⟨hother, hstage⟩
      obtain ⟨rfl, rfl⟩ := Half.worker_inj (Option.some.inj (hother.symm.trans hworker))
      exact ⟨rfl, rfl, hstage⟩
    cases action with
    | testPresent i other otherReq =>
        obtain rfl := Option.some.inj hactor
        obtain ⟨rfl, rfl, -⟩ := hself henabled.1
        simp [effect, setStage, setLock, StageOk, Holds, henabled.2.2]
    | testAbsent i other otherReq =>
        obtain rfl := Option.some.inj hactor
        rw [stage_effect]
        simp [MachineAction.stageMove, henabled.1.2, StageOk]
    | writeProtect i other otherReq oldOffset =>
        obtain rfl := Option.some.inj hactor
        obtain ⟨rfl, rfl, hstage⟩ := hself henabled
        rw [hstage] at hok
        have hlocked : (s.effect (.writeProtect i other otherReq oldOffset)).StageOk i other
            otherReq (.locked oldOffset) :=
          hok.congr fun _ => ⟨rfl, sameLocation_effect s (by simp [MachineAction.moved])⟩
        rw [stage_effect]
        simpa [MachineAction.stageMove, StageOk] using hlocked
    | copy i other otherReq oldOffset =>
        obtain rfl := Option.some.inj hactor
        obtain ⟨rfl, rfl, hstage⟩ := hself henabled
        rw [hstage] at hok
        have hprotected : (s.effect (.copy i other otherReq oldOffset)).StageOk i other
            otherReq (.writeProtected oldOffset) :=
          hok.congr fun _ => ⟨rfl, sameLocation_effect s (by simp [MachineAction.moved])⟩
        have htier : ((s.effect (.copy i other otherReq oldOffset)).page
            (other.page otherReq)).inDram = other.sourceInDram := hasserts.1
        rw [stage_effect]
        simpa [MachineAction.stageMove, StageOk, htier] using hprotected
    | remap i other otherReq oldOffset =>
        obtain rfl := Option.some.inj hactor
        obtain ⟨rfl, rfl, hstage⟩ := hself henabled
        rw [hstage] at hok
        have hpresent : ((s.effect (.remap i other otherReq oldOffset)).page
            (other.page otherReq)).present = (s.page (other.page otherReq)).present := by
          simp [effect, setStage, setPage, mapFrame]
        rw [stage_effect]
        simp only [MachineAction.stageMove, Function.update_self]
        exact ⟨hok.1.1, hpresent.trans hok.1.2⟩
    | unlock i other otherReq oldOffset | give i other otherReq oldOffset =>
        obtain rfl := Option.some.inj hactor
        rw [stage_effect]
        simp [MachineAction.stageMove, StageOk]
    | recycle i otherReq outcome =>
        obtain rfl := Option.some.inj hactor
        have hrecycle := henabled.1.symm.trans hworker
        cases half <;> cases hrecycle
    | _ => cases hactor
  · rw [stage_effect_of_ne hactor]
    exact hok.congr fun hholds => htiers.holds_effect henabled hasserts hholds hactor

theorem workers_advance {s : Machine} {action : MachineAction} {pipe : Pipeline}
    (henabled : s.Enabled action) (hpipe : s.pipe.advance action.pipeAction = some pipe)
    (hnot : ∀ plain, action ≠ .pipeline plain) :
    pipe.workers =
      match action.workerMove with
      | none => s.pipe.workers
      | some (i, worker) => s.pipe.workers.set i worker := by
  cases action with
  | beginSchedule batch =>
      cases Pipeline.advance_cases hpipe
      rfl
  | schedulePromotion | scheduleDemotion | returnFree =>
      cases Pipeline.advance_cases hpipe
      rfl
  | testAbsent i half req =>
      rw [Half.finish_eq henabled.1.1 hpipe]
      rfl
  | give i half req oldOffset =>
      rw [Half.finish_eq henabled.1 hpipe]
      rfl
  | recycle i req outcome =>
      cases Pipeline.advance_cases hpipe with
      | recycle i r o hworker =>
          cases hworker.symm.trans henabled.1
          rfl
  | pipeline plain => exact absurd rfl (hnot plain)
  | _ =>
      cases Option.some.inj hpipe
      rfl

/-- A worker that is in a half after a step was in it before, or starts it. -/
theorem Tiers.halfWorker_step {s : Machine} {action : MachineAction} {pipe : Pipeline}
    (htiers : s.Tiers) (henabled : s.Enabled action)
    (hpipe : s.pipe.advance action.pipeAction = some pipe) {j : ℕ} {half : Half}
    {req : MigrationReq} (hworker : pipe.workers[j]? = some (half.worker req)) :
    s.pipe.workers[j]? = some (half.worker req) ∨ (s.effect action).stage j = .start := by
  cases action with
  | pipeline plain =>
      obtain hold | hscan := (Pipeline.step_cases hpipe).halfWorker henabled hworker
      · exact Or.inl hold
      · refine Or.inr (by_contra fun hstarted => ?_)
        obtain ⟨other, otherReq, hother⟩ := htiers.started j hstarted
        cases other <;> cases hscan.symm.trans hother
  | testAbsent i other otherReq =>
      rw [workers_advance henabled hpipe (by simp)] at hworker
      obtain ⟨-, hnew⟩ | ⟨-, hold⟩ := getElem?_set_cases hworker
      · cases half <;> cases other <;> cases hnew
      · exact Or.inl hold
  | give i other otherReq oldOffset =>
      rw [workers_advance henabled hpipe (by simp)] at hworker
      obtain ⟨rfl, -⟩ | ⟨-, hold⟩ := getElem?_set_cases hworker
      · exact Or.inr (by simp [effect, setStage])
      · exact Or.inl hold
  | recycle i otherReq outcome =>
      rw [workers_advance henabled hpipe (by simp)] at hworker
      obtain ⟨-, hnew⟩ | ⟨-, hold⟩ := getElem?_set_cases hworker
      · cases half <;> cases hnew
      · exact Or.inl hold
  | _ =>
      rw [workers_advance henabled hpipe (by simp)] at hworker
      exact Or.inl hworker

/-- A worker in a half stays there through the steps of others. -/
theorem halfWorker_of_ne {s : Machine} {action : MachineAction} {pipe : Pipeline}
    (henabled : s.Enabled action) (hpipe : s.pipe.advance action.pipeAction = some pipe) {j : ℕ}
    {half : Half} {req : MigrationReq} (hworker : s.pipe.workers[j]? = some (half.worker req))
    (hactor : action.actor ≠ some j) : pipe.workers[j]? = some (half.worker req) := by
  cases action with
  | pipeline plain => exact (Pipeline.advance_cases hpipe).halfWorker_stays henabled hworker
  | testAbsent | give | recycle =>
      have hne : _ ≠ j := fun heq => hactor (congrArg some heq)
      rw [workers_advance henabled hpipe (by simp)]
      exact (List.getElem?_set_ne hne).trans hworker
  | _ =>
      rw [workers_advance henabled hpipe (by simp)]
      exact hworker

theorem Tiers.started_step {s : Machine} {action : MachineAction} {pipe : Pipeline}
    (htiers : s.Tiers) (henabled : s.Enabled action)
    (hpipe : s.pipe.advance action.pipeAction = some pipe) {j : ℕ}
    (hstarted : (s.effect action).stage j ≠ .start) :
    ∃ half req, pipe.workers[j]? = some (Half.worker half req) := by
  by_cases hactor : action.actor = some j
  · -- only the end of a half moves the acting worker on
    have hkept : ∀ {half : Half} {req : MigrationReq} {stage : Stage},
        s.At j half req stage → action.workerMove = none →
          (∀ plain, action ≠ .pipeline plain) →
            ∃ half req, pipe.workers[j]? = some (Half.worker half req) := by
      intro half req stage hat hmove hnot
      refine ⟨half, req, ?_⟩
      rw [workers_advance henabled hpipe hnot, hmove]
      exact hat.1
    rw [stage_effect] at hstarted
    cases action with
    | testPresent i half req =>
        obtain rfl := Option.some.inj hactor
        exact hkept henabled.1 rfl (by simp)
    | writeProtect i half req oldOffset | copy i half req oldOffset
    | remap i half req oldOffset =>
        obtain rfl := Option.some.inj hactor
        exact hkept henabled rfl (by simp)
    | unlock i half req oldOffset =>
        obtain rfl := Option.some.inj hactor
        exact hkept henabled.1 rfl (by simp)
    | testAbsent i half req =>
        obtain rfl := Option.some.inj hactor
        exact absurd henabled.1.2 hstarted
    | give i half req oldOffset =>
        obtain rfl := Option.some.inj hactor
        simp [MachineAction.stageMove] at hstarted
    | recycle i req outcome =>
        obtain rfl := Option.some.inj hactor
        obtain ⟨half, otherReq, hworker⟩ := htiers.started i hstarted
        cases half <;> cases henabled.1.symm.trans hworker
    | _ => cases hactor
  · rw [stage_effect_of_ne hactor] at hstarted
    obtain ⟨half, req, hworker⟩ := htiers.started j hstarted
    exact ⟨half, req, halfWorker_of_ne henabled hpipe hworker hactor⟩

/-- Demands arise from new requests and from pages given to a request. -/
theorem demands_advance {s : Machine} {action : MachineAction} {pipe : Pipeline}
    (henabled : s.Enabled action) (hpipe : s.pipe.advance action.pipeAction = some pipe)
    {np : PageId} {inDram : Bool} (hdemands : pipe.Demands np inDram) :
    s.pipe.Demands np inDram ∨
      (∃ i half req oldOffset, action = .give i half req oldOffset ∧ np = req.freePage ∧
        inDram = half.sourceInDram) ∨
      (∃ key p, action = .schedulePromotion key p np ∧ inDram = true) ∨
      ∃ key coldKey p cp, action = .scheduleDemotion key coldKey p cp np ∧ inDram = false := by
  have hsubmit : ∀ (dramPage nvmPage freePage : PageId) (needDemotion : Bool),
      action.pipeAction = some (.submit dramPage nvmPage freePage needDemotion) →
        s.pipe.Demands np inDram ∨ freePage = np ∧ inDram = !needDemotion := by
    intro dramPage nvmPage freePage needDemotion haction
    rw [haction] at hpipe
    cases Pipeline.advance_cases hpipe
    obtain ⟨req, hmem, hreq⟩ | hworkers := hdemands
    · obtain hold | hnew := List.mem_append.mp hmem
      · exact Or.inl (Or.inl ⟨req, hold, hreq⟩)
      · obtain rfl := List.mem_singleton.mp hnew
        exact Or.inr hreq
    · exact Or.inl (Or.inr hworkers)
  cases action with
  | schedulePromotion key p freePage =>
      obtain hold | ⟨rfl, htier⟩ := hsubmit _ _ _ _ rfl
      · exact Or.inl hold
      · exact Or.inr (Or.inr (Or.inl ⟨key, p, rfl, htier⟩))
  | scheduleDemotion key coldKey p cp freePage =>
      obtain hold | ⟨rfl, htier⟩ := hsubmit _ _ _ _ rfl
      · exact Or.inl hold
      · exact Or.inr (Or.inr (Or.inr ⟨key, coldKey, p, cp, rfl, htier⟩))
  | give i half req oldOffset =>
      rw [Half.finish_eq henabled.1 hpipe] at hdemands
      obtain hold | hnew := hdemands.of_setWorker
      · exact Or.inl hold
      · rw [half.demand_after] at hnew
        obtain ⟨rfl, rfl⟩ := Prod.mk.inj (Option.some.inj hnew)
        exact Or.inr (Or.inl ⟨i, half, req, oldOffset, rfl, rfl, rfl⟩)
  | testAbsent i half req =>
      rw [Half.finish_eq henabled.1.1 hpipe] at hdemands
      obtain hold | hnew := hdemands.of_setWorker
      · exact Or.inl hold
      · rw [half.demand_after] at hnew
        exact Or.inl (Or.inr ⟨i, _, henabled.1.1, (half.demand_worker req).trans hnew⟩)
  | recycle i req outcome =>
      cases Pipeline.advance_cases hpipe with
      | recycle i r o hworker =>
          have hmoved : (s.pipe.setWorker i (.post r)).Demands np inDram := hdemands
          obtain hold | hnew := hmoved.of_setWorker
          · exact Or.inl hold
          · cases hnew
  | beginSchedule batch =>
      cases Pipeline.advance_cases hpipe
      exact Or.inl hdemands
  | returnFree freePage =>
      cases Pipeline.advance_cases hpipe
      exact Or.inl hdemands
  | pipeline plain => exact Or.inl ((Pipeline.advance_cases hpipe).demands henabled hdemands)
  | _ =>
      cases Option.some.inj hpipe
      exact Or.inl hdemands

theorem Tiers.lent_step {s : Machine} {action : MachineAction} {pipe : Pipeline}
    (hplaced : s.Placed) (htiers : s.Tiers) (henabled : s.Enabled action)
    (hpipe : s.pipe.advance action.pipeAction = some pipe)
    (honce : ∀ np, pipe.borrowed np ≤ 1) {np : PageId} {inDram : Bool}
    (hdemands : pipe.Demands np inDram) :
    ((s.effect action).page np).inDram = inDram ∧ ((s.effect action).page np).present = false := by
  -- a page that was lent before, and that the step does not give to a request
  have hkept : s.pipe.Demands np inDram →
      (∀ i half req oldOffset, action = .give i half req oldOffset → np ≠ req.freePage) →
        ((s.effect action).page np).inDram = inDram ∧
          ((s.effect action).page np).present = false := by
    intro hold hnot
    obtain ⟨htier, habsent⟩ := htiers.lent np inDram hold
    have hsame : action.moved ≠ some np →
        ((s.effect action).page np).inDram = inDram ∧
          ((s.effect action).page np).present = false := by
      intro hmoved
      obtain ⟨htierSame, hpresentSame, -⟩ := sameLocation_effect s hmoved
      exact ⟨htierSame.trans htier, hpresentSame.trans habsent⟩
    cases action with
    | allocate c va list q =>
        refine hsame fun hmoved => ?_
        obtain rfl : q = np := Option.some.inj hmoved
        exact hplaced.not_lent (List.mem_of_mem_head? henabled.2.2.1) hold
    | clearPresent c va q =>
        by_cases hq : np = q
        · subst hq
          simp [effect, setClient, setPage, htier]
        · exact hsame (by simpa [MachineAction.moved] using Ne.symm hq)
    | remap i half req oldOffset =>
        refine hsame fun hmoved => ?_
        obtain rfl : half.page req = np := Option.some.inj hmoved
        have hok := htiers.stages i half req henabled.1
        rw [henabled.2] at hok
        exact (Holds.ne_of_absent hok.1 habsent) rfl
    | give i half req oldOffset =>
        refine hsame fun hmoved => ?_
        exact hnot i half req oldOffset rfl (Option.some.inj hmoved).symm
    | _ => exact hsame (by simp [MachineAction.moved])
  have hgiven : ∀ i half req oldOffset, action = .give i half req oldOffset →
      np = req.freePage → ((s.effect action).page np).inDram = inDram ∧
        ((s.effect action).page np).present = false := by
    rintro i half req oldOffset rfl rfl
    have hnew : pipe.Demands req.freePage half.sourceInDram := by
      have hworkers := workers_advance henabled hpipe (by simp)
      have hlength : i < s.pipe.workers.length :=
        (List.getElem?_eq_some_iff.mp henabled.1).1
      refine Or.inr ⟨i, half.after req true, ?_, half.demand_after req true⟩
      rw [hworkers]
      simp [MachineAction.workerMove, hlength]
    rw [hdemands.unique (honce _) hnew]
    simp [effect, setStage, setPage]
  obtain hold | ⟨i, half, req, oldOffset, hgive, hpage, -⟩ | ⟨key, p, rfl, rfl⟩ |
    ⟨key, coldKey, p, cp, rfl, rfl⟩ := demands_advance henabled hpipe hdemands
  · by_cases hgive : ∃ i half req oldOffset,
        action = .give i half req oldOffset ∧ np = req.freePage
    · obtain ⟨i, half, req, oldOffset, haction, hpage⟩ := hgive
      exact hgiven i half req oldOffset haction hpage
    · exact hkept hold fun i half req oldOffset haction hpage =>
        hgive ⟨i, half, req, oldOffset, haction, hpage⟩
  · exact hgiven i half req oldOffset hgive hpage
  · exact htiers.lists .dram np (List.mem_of_mem_head? henabled.2.2)
  · exact htiers.lists .nvm np (List.mem_of_mem_head? henabled.2.2.2.2.2)

/-- Step lemma: a step that drains no page too early keeps the free lists, and
what workers and requests rely on. -/
theorem Tiers.step {s next : Machine} {action : MachineAction} (hplaced : s.Placed)
    (htiers : s.Tiers) (hcleared : s.DrainsCleared action)
    (hstep : machineStep s action = some next) : next.Tiers := by
  have hnext := hplaced.step hstep
  obtain ⟨-, henabled, ⟨-, rfl⟩ | ⟨hasserts, pipe, hpipe, rfl⟩⟩ := step_cases hstep
  · exact ⟨htiers.lists, htiers.stages, htiers.started, htiers.lent⟩
  · refine
      { lists := htiers.lists_effect hplaced henabled hasserts hcleared
        stages := fun j half req hworker => ?_
        started := fun j hstarted => htiers.started_step henabled hpipe hstarted
        lent := fun np inDram hdemands => ?_ }
    · obtain hold | hstart := htiers.halfWorker_step henabled hpipe hworker
      · exact htiers.stages_effect henabled hasserts hold
      · have hstage : ((s.effect action).setPipe pipe).stage j = .start := hstart
        rw [hstage]
        trivial
    · refine htiers.lent_step hplaced henabled hpipe (fun q => ?_) hdemands
      have honce : (s.effect action).held q + pipe.borrowed q ≤ 1 := hnext.once q
      omega

theorem tiers_pebsInit (dramsize nvmsize workers clients : ℕ) :
    (pebsInit dramsize nvmsize workers clients).Tiers := by
  have hasleep : ∀ (i : ℕ) (worker : Worker),
      (pipelineInit workers).workers[i]? = some worker → worker = .asleep := by
    intro i worker hworker
    exact List.eq_of_mem_replicate (List.mem_of_getElem? hworker)
  refine
    { lists := ?_
      stages := fun i half req hworker => ?_
      started := fun i hstarted => absurd rfl hstarted
      lent := fun np inDram hdemands => ?_ }
  · intro list p hmem
    cases list with
    | dram =>
        have hp : p < dramsize / pageSize := List.mem_range.mp hmem
        simp [pebsInit, callocPage, initialFrame, hp, FreeList.inDram]
    | nvm =>
        have hp : ¬ p < dramsize / pageSize := Nat.not_lt.mpr (List.mem_range'_1.mp hmem).1
        simp [pebsInit, callocPage, initialFrame, hp, FreeList.inDram]
  · cases half <;> cases hasleep i _ hworker
  · obtain ⟨req, hmem, -⟩ | ⟨i, worker, hworker, hdemand⟩ := hdemands
    · cases hmem
    · rw [hasleep i worker hworker] at hdemand
      cases hdemand

/-- An early drain breaks the free lists at once. -/
theorem drainsCleared_of_freeListsOk {s next : Machine} {action : MachineAction}
    (hstep : machineStep s action = some next) (hlists : next.FreeListsOk) :
    s.DrainsCleared action := by
  cases action with
  | drain mp =>
      intro hfree hfound
      obtain ⟨-, henabled, ⟨hfails, -⟩ | ⟨hasserts, pipe, hpipe, rfl⟩⟩ := step_cases hstep
      · exact absurd (fun hadd => absurd hfree (by simp [hadd])) hfails
      · have heffect : (s.effect (.drain mp)).freeList =
            (s.enqueueFifo (.ofTier (s.page mp.page).inDram) mp.page).freeList :=
          if_pos (drainFrees_iff.mpr ⟨hfree, hfound⟩)
        have hmem : mp.page ∈ ((s.effect (.drain mp)).setPipe pipe).freeList
            (.ofTier (s.page mp.page).inDram) := by
          change mp.page ∈ (s.effect (.drain mp)).freeList _
          rw [heffect]
          simp [enqueueFifo]
        have habsent := (hlists _ _ hmem).2
        have hsame := sameLocation_effect s
          (show (MachineAction.drain mp).moved ≠ some mp.page by simp [MachineAction.moved])
        exact hsame.2.1.symm.trans habsent
  | _ => trivial

end Machine

/-- Along every run, with any sizes and any numbers of threads: the free lists
hold only free pages of their own tier exactly as long as every page that the
policy thread puts on a free list has `present` cleared. -/
theorem freeListsOk_iff_drainsCleared (dramsize nvmsize workers clients : ℕ)
    (actions : List MachineAction) :
    Transition.Along machineStep Machine.FreeListsOk
        (pebsInit dramsize nvmsize workers clients) actions ↔
      Transition.Meets machineStep Machine.DrainsCleared
        (pebsInit dramsize nvmsize workers clients) actions := by
  refine Transition.along_iff_meets (fun s => s.Placed ∧ s.Tiers) ?_ ?_ ?_
    ⟨Machine.placed_pebsInit .., Machine.tiers_pebsInit ..⟩
  · rintro s ⟨-, htiers⟩
    exact htiers.lists
  · rintro s action next ⟨hplaced, htiers⟩ hcleared hstep
    exact ⟨hplaced.step hstep, htiers.step hplaced hcleared hstep⟩
  · rintro s action next - hstep hlists
    exact Machine.drainsCleared_of_freeListsOk hstep hlists

/-- The policy thread drains the record between the push and the clearing of
`present`. -/
theorem earlyDrain_frees_present :
    ¬ ∀ actions : List MachineAction,
      Transition.Along machineStep Machine.FreeListsOk (pebsInit pageSize pageSize 1 1)
        actions := by
  intro hall
  let actions : List MachineAction :=
    [.allocate 0 pageSize .dram 0, .zeroAndMap 0 pageSize 0, .setVa 0 pageSize 0,
      .addToPages 0 0, .pushAdd 0 0, .drain ⟨0, false⟩, .deleteFromPages 0 pageSize 0,
      .pushFree 0 pageSize 0, .drain ⟨0, true⟩]
  obtain ⟨final, hfinal⟩ : ∃ final,
      Transition.run machineStep (pebsInit pageSize pageSize 1 1) actions = some final :=
    ⟨_, rfl⟩
  have hok := (hall actions).of_run hfinal
  obtain rfl := Option.some.inj hfinal
  have habsent := (hok .dram 0 (by decide)).2
  revert habsent
  decide

end ArmsTiering
