import ArmsTiering.Machine.Schedule
import ArmsTiering.Machine.Tiered
import Mathlib.Data.Finset.Card

/-!
# The array of scores

`pebs_init` allocates `scores` for the default sizes of the two devices, and
creates page structs for the sizes that it is given.  `calculate_scores_map`
writes an entry for every present page of `pages_map`.  How many entries the
map can have is an equation that every step of the machine keeps: a struct is
on a free list, with a thread or a request, in an add record, or has brought
an entry into the map.
-/

namespace ArmsTiering

open Counting

/-! ## The scoring loop -/

def nvmsizeDefault : ℕ := 64 * (1024 * 1024 * 1024)
def dramsizeDefault : ℕ := 32 * (1024 * 1024 * 1024)

/-- `MAX_NVME_PAGES` -/
def maxNvmePages : ℕ := nvmsizeDefault / pageSize

/-- `MAX_DRAM_PAGES` -/
def maxDramPages : ℕ := dramsizeDefault / pageSize

/-- The number of entries that `pebs_init` allocates for `scores`. -/
def scoresCapacity : ℕ := maxNvmePages + maxDramPages

/-- A bucket of the khash table: `none` where `kh_exist` fails. -/
abbrev Bucket := Option (Va × PageId)

/-- The state of the loop of `calculate_scores_map`, with the indices of
`scores_out` that it has written as history. -/
structure ScoreLoop where
  page : PageId → Page
  sIdx : ℕ
  scoresOut : List (ScoreEntry ℚ)
  written : List ℕ

/-- The body of the loop, for the bucket at `key`. -/
def scoreBucket (env : ScoreEnv ℚ windowSize) (prevAccessVersion : Fin 2) (s : ScoreLoop) :
    Bucket → ScoreLoop
  | none => s
  | some (_, p) =>
      if (s.page p).present then
        let page := scorePage env prevAccessVersion (s.page p)
        { page := Function.update s.page p page
          sIdx := s.sIdx + 1
          scoresOut := s.scoresOut ++ [⟨p, page.score⟩]
          written := s.written ++ [s.sIdx] }
      else s

def scoreLoopStart (page : PageId → Page) : ScoreLoop where
  page := page
  sIdx := 0
  scoresOut := []
  written := []

/-- `calculate_scores_map`; for an empty map it returns before the loop, which
would pass no bucket that exists. -/
def calculateScoresMap (env : ScoreEnv ℚ windowSize) (prevAccessVersion : Fin 2)
    (buckets : List Bucket) (page : PageId → Page) : ScoreLoop :=
  if buckets.countP Option.isSome = 0 then scoreLoopStart page
  else buckets.foldl (scoreBucket env prevAccessVersion) (scoreLoopStart page)

/-- The bucket has a page that is present. -/
def Bucket.scored (page : PageId → Page) : Bucket → Bool
  | none => false
  | some (_, p) => (page p).present

theorem scoreBucket_spec (env : ScoreEnv ℚ windowSize) (prevAccessVersion : Fin 2)
    (s : ScoreLoop) (bucket : Bucket) :
    (∀ p, ((scoreBucket env prevAccessVersion s bucket).page p).present = (s.page p).present) ∧
      (scoreBucket env prevAccessVersion s bucket).sIdx =
        s.sIdx + one (bucket.scored s.page) ∧
      (scoreBucket env prevAccessVersion s bucket).written =
        s.written ++ if bucket.scored s.page then [s.sIdx] else [] := by
  match bucket with
  | none => simp [scoreBucket, Bucket.scored]
  | some (key, p) =>
      cases hpresent : (s.page p).present with
      | false => simp [scoreBucket, Bucket.scored, hpresent]
      | true =>
          refine ⟨fun q => ?_, ?_, ?_⟩
          · by_cases hq : q = p
            · subst hq
              simp [scoreBucket, hpresent, scorePage, updateWindow]
            · simp [scoreBucket, hpresent, hq]
          · simp [scoreBucket, Bucket.scored, hpresent]
          · simp [scoreBucket, Bucket.scored, hpresent]

theorem foldl_scoreBucket (env : ScoreEnv ℚ windowSize) (prevAccessVersion : Fin 2)
    (buckets : List Bucket) (s : ScoreLoop) :
    (buckets.foldl (scoreBucket env prevAccessVersion) s).written =
      s.written ++ List.range' s.sIdx (buckets.countP (Bucket.scored s.page)) := by
  induction buckets generalizing s with
  | nil => simp
  | cons bucket buckets ih =>
      obtain ⟨hpage, hidx, hwritten⟩ := scoreBucket_spec env prevAccessVersion s bucket
      have hscored : Bucket.scored (scoreBucket env prevAccessVersion s bucket).page =
          Bucket.scored s.page := by
        funext other
        match other with
        | none => rfl
        | some (_, p) => exact hpage p
      rw [List.foldl_cons, ih, hscored, hidx, hwritten, countP_cons]
      cases bucket.scored s.page with
      | false => simp
      | true =>
          rw [one_true, List.range'_succ, if_pos rfl, List.append_assoc]
          rfl

/-- The loop fills the array from its start, one entry for each present page. -/
theorem written_calculateScoresMap (env : ScoreEnv ℚ windowSize) (prevAccessVersion : Fin 2)
    (buckets : List Bucket) (page : PageId → Page) :
    (calculateScoresMap env prevAccessVersion buckets page).written =
      List.range (buckets.countP (Bucket.scored page)) := by
  unfold calculateScoresMap
  split
  · rename_i hempty
    have hnone : buckets.countP (Bucket.scored page) = 0 := by
      rw [List.countP_eq_zero] at hempty ⊢
      intro bucket hmem
      match bucket, hempty bucket hmem with
      | none, _ => simp [Bucket.scored]
      | some _, hsome => simp at hsome
    rw [hnone]
    rfl
  · rw [foldl_scoreBucket, List.range_eq_range']
    rfl

/-- The buckets are those of a table that stores `map`. -/
structure Stores (map : Va → Option PageId) (buckets : List Bucket) : Prop where
  nodup : ((buckets.filterMap id).map Prod.fst).Nodup
  mem_iff : ∀ va p, some (va, p) ∈ buckets ↔ map va = some p

/-- The policy thread is where it calculates the scores: it has left the loop
that drains the records. -/
def Machine.AtScoring (s : Machine) : Prop := s.pipe.policy = .drain

/-- In every run, whenever the policy thread scores the pages, it writes within
the array. -/
def ScoresInBounds (dramsize nvmsize : ℕ) : Prop :=
  ∀ workers clients s,
    Transition.Reachable (· = pebsInit dramsize nvmsize workers clients) machineStep s →
      s.AtScoring → ∀ buckets, Stores s.pagesMap buckets → ∀ env prevAccessVersion,
        ∀ i ∈ (calculateScoresMap env prevAccessVersion buckets s.page).written,
          i < scoresCapacity

/-! ## Structs and entries -/

/-- The thread has taken a struct and not yet pushed its add record. -/
def Client.unrecorded : Client → Bool
  | .allocated _ _ | .mapped _ _ | .vaSet _ | .added _ => true
  | _ => false

def ModPage.isAdd (mp : ModPage) : Bool := !mp.free

/-- The worker has a request whose free page is still lent. -/
def Worker.lends : Worker → Bool
  | .demote _ | .promote _ | .recycle _ _ => true
  | _ => false

namespace Pipeline

/-- Free pages lent to requests. -/
def loans (s : Pipeline) : ℕ := s.migrationQueue.length + s.workers.countP Worker.lends

/-- The loan that an action makes. -/
def makesLoan : PipelineAction → Bool
  | .submit _ _ _ _ => true
  | _ => false

/-- The action ends a loan. -/
def endsLoan : PipelineAction → Bool
  | .recycle _ => true
  | _ => false

theorem loans_setWorker {s : Pipeline} {i : ℕ} {old : Worker}
    (hworker : s.workers[i]? = some old) (new : Worker) :
    (s.setWorker i new).loans + one old.lends = s.loans + one new.lends := by
  have hcount := countP_set Worker.lends hworker new
  simp only [loans, setWorker]
  omega

theorem Step.loans {s next : Pipeline} {action : PipelineAction} (hstep : Step s action next) :
    next.loans + one (endsLoan action) = s.loans + one (makesLoan action) := by
  cases hstep with
  | skipInterval | beginWait | awaitCompletion | beginSchedule | postSubmission | endInterval =>
      rfl
  | submit dramPage nvmPage freePage needDemotion =>
      simp only [Pipeline.loans, Pipeline.submit, List.length_append, List.length_singleton,
        makesLoan, endsLoan, one_true, one_false]
      omega
  | wakeUp i hworker => exact loans_setWorker hworker .scan
  | dequeueNone i hworker => exact loans_setWorker hworker .asleep
  | dequeue i req rest hworker hqueue =>
      have hset := countP_set Worker.lends hworker
        (if req.needDemotion then .demote req else .promote req)
      have hlends :
          (if req.needDemotion then Worker.demote req else .promote req).lends = true := by
        split <;> rfl
      rw [hlends] at hset
      simp only [Worker.lends, one_false, one_true] at hset
      simp only [Pipeline.loans, record, setWorker, hqueue, List.length_cons, makesLoan, endsLoan,
        one_false]
      omega
  | endDemote i present req hworker =>
      have hset := loans_setWorker hworker
        (if present then .promote req else .recycle req .demotionAbandoned)
      cases present <;> exact Nat.add_right_cancel hset
  | endPromote i present req hworker =>
      exact Nat.add_right_cancel (loans_setWorker hworker
        (.recycle req (if present then .migrated else .promotionAbandoned)))
  | recycle i req outcome hworker => exact loans_setWorker hworker (.post req)
  | postCompletion i req hworker => exact loans_setWorker hworker (.release req)
  | freeReq i req hworker => exact loans_setWorker hworker .scan

theorem loans_advance {s next : Pipeline} {action : Option PipelineAction}
    (hadvance : s.advance action = some next) :
    next.loans + one (action.any endsLoan) = s.loans + one (action.any makesLoan) := by
  cases action with
  | none =>
      obtain rfl : s = next := Option.some.inj hadvance
      rfl
  | some action => exact (step_cases hadvance).loans

end Pipeline

namespace Machine

/-- Structs on the free lists. -/
def freeLength (s : Machine) : ℕ := (s.freeList .dram).length + (s.freeList .nvm).length

/-- Structs that can still bring an entry into `pages_map`, but for those lent
to requests. -/
def unmapped (s : Machine) : ℕ :=
  s.freeLength + s.clients.countP Client.unrecorded + s.modPageDq.countP ModPage.isAdd

theorem freeLength_enqueueFifo (s : Machine) (list : FreeList) (p : PageId) :
    (s.enqueueFifo list p).freeLength = s.freeLength + 1 := by
  cases list <;> simp [freeLength, enqueueFifo] <;> omega

theorem freeLength_dequeueFifo {s : Machine} {list : FreeList} {p : PageId}
    (hhead : (s.freeList list).head? = some p) :
    (s.dequeueFifo list).freeLength + 1 = s.freeLength := by
  obtain ⟨rest, hlist⟩ := List.head?_eq_some_iff.mp hhead
  cases list <;> simp [freeLength, dequeueFifo, hlist] <;> omega

theorem unmapped_setClient (s : Machine) {c : ℕ} {old : Client}
    (hclient : s.clients[c]? = some old) (new : Client) :
    (s.setClient c new).unmapped + one old.unrecorded = s.unmapped + one new.unrecorded := by
  have hcount := countP_set Client.unrecorded hclient new
  have hunmapped : (s.setClient c new).unmapped =
      s.freeLength + (s.clients.set c new).countP Client.unrecorded +
        s.modPageDq.countP ModPage.isAdd := rfl
  unfold unmapped at *
  omega

theorem unmapped_pushRecord (s : Machine) (mp : ModPage) :
    (s.pushRecord mp).unmapped = s.unmapped + one mp.isAdd := by
  have hcount := countP_append_singleton ModPage.isAdd s.modPageDq mp
  have hunmapped : (s.pushRecord mp).unmapped =
      s.freeLength + s.clients.countP Client.unrecorded +
        (s.modPageDq ++ [mp]).countP ModPage.isAdd := rfl
  unfold unmapped at *
  omega

theorem unmapped_enqueueFifo (s : Machine) (list : FreeList) (p : PageId) :
    (s.enqueueFifo list p).unmapped = s.unmapped + 1 := by
  have hfree := freeLength_enqueueFifo s list p
  have hunmapped : (s.enqueueFifo list p).unmapped =
      (s.enqueueFifo list p).freeLength + s.clients.countP Client.unrecorded +
        s.modPageDq.countP ModPage.isAdd := rfl
  unfold unmapped at *
  omega

theorem unmapped_dequeueFifo {s : Machine} {list : FreeList} {p : PageId}
    (hhead : (s.freeList list).head? = some p) :
    (s.dequeueFifo list).unmapped + 1 = s.unmapped := by
  have hfree := freeLength_dequeueFifo hhead
  have hunmapped : (s.dequeueFifo list).unmapped =
      (s.dequeueFifo list).freeLength + s.clients.countP Client.unrecorded +
        s.modPageDq.countP ModPage.isAdd := rfl
  unfold unmapped at *
  omega

/-- All steps but those of the drain only move structs that have no entry. -/
theorem unmapped_effect {s : Machine} {action : MachineAction} (henabled : s.Enabled action)
    (hdrain : ∀ mp, action ≠ .drain mp) :
    (s.effect action).unmapped + one (action.pipeAction.any Pipeline.makesLoan) =
      s.unmapped + one (action.pipeAction.any Pipeline.endsLoan) := by
  cases action with
  | drain mp => exact absurd rfl (hdrain mp)
  | allocate c va list p =>
      obtain ⟨hclient, -, hhead, -⟩ := henabled
      have hmoved := unmapped_setClient (s.dequeueFifo list) hclient (.allocated va p)
      exact hmoved.trans (unmapped_dequeueFifo hhead)
  | zeroAndMap c va p | setVa c va p => exact Nat.add_right_cancel (unmapped_setClient s henabled _)
  | addToPages c p => exact Nat.add_right_cancel (unmapped_setClient s henabled (.added p))
  | pushAdd c p =>
      have hmoved := unmapped_setClient (s.pushRecord ⟨p, false⟩) henabled .idle
      rw [unmapped_pushRecord] at hmoved
      exact Nat.add_right_cancel hmoved
  | deleteFromPages c va p => exact unmapped_setClient s henabled.1 (.deleted va p)
  | pushFree c va p =>
      have hmoved := unmapped_setClient (s.pushRecord ⟨p, true⟩) henabled (.pushed va p)
      rw [unmapped_pushRecord] at hmoved
      exact hmoved
  | clearPresent c va p => exact unmapped_setClient s henabled.1 (.cleared va)
  | unmap c va => exact unmapped_setClient s henabled .idle
  | schedulePromotion key p np =>
      exact unmapped_dequeueFifo henabled.2.2
  | scheduleDemotion key coldKey p cp np =>
      exact unmapped_dequeueFifo henabled.2.2.2.2.2
  | returnFree np =>
      have hgiven := unmapped_enqueueFifo (s.dequeueFifo .dram) .dram np
      exact hgiven.trans (unmapped_dequeueFifo henabled)
  | recycle i req outcome =>
      exact unmapped_enqueueFifo s outcome.freeList req.freePage
  | testAbsent i half req => cases half <;> rfl
  | give i half req oldOffset => cases half <;> rfl
  | pipeline action =>
      cases action with
      | submit | recycle | beginSchedule | endDemote | endPromote => cases henabled
      | _ => rfl
  | _ => rfl

theorem unmapped_drain {s : Machine} {mp : ModPage} (hhead : s.modPageDq.head? = some mp) :
    (s.effect (.drain mp)).unmapped + one mp.isAdd = s.unmapped + one (s.drainFrees mp) := by
  obtain ⟨rest, hqueue⟩ := List.head?_eq_some_iff.mp hhead
  have hrecords : (s.effect (.drain mp)).modPageDq.countP ModPage.isAdd + one mp.isAdd =
      s.modPageDq.countP ModPage.isAdd := by
    rw [hqueue, countP_cons]
    simp only [effect, hqueue, List.tail_cons]
  have hfree : (s.effect (.drain mp)).freeLength = s.freeLength + one (s.drainFrees mp) := by
    have henqueued := freeLength_enqueueFifo s (.ofTier (s.page mp.page).inDram) mp.page
    simp only [freeLength, effect] at henqueued ⊢
    cases s.drainFrees mp with
    | false => rfl
    | true => exact henqueued
  have hclients : (s.effect (.drain mp)).clients = s.clients := rfl
  unfold unmapped
  rw [hclients]
  omega

/-! ## The equation -/

/-- Entries, structs without one and lent structs make up all structs. -/
def Budget (s : Machine) : Prop :=
  ∃ keys : Finset Va, (∀ va, va ∈ keys ↔ s.pagesMap va ≠ none) ∧
    keys.card + s.unmapped + s.pipe.loans = s.total

theorem budget_pebsInit (dramsize nvmsize workers clients : ℕ) :
    (pebsInit dramsize nvmsize workers clients).Budget := by
  refine ⟨∅, fun va => by simp [pebsInit], ?_⟩
  have hclients : (List.replicate clients Client.idle).countP Client.unrecorded = 0 := by
    rw [List.countP_eq_zero]
    intro client hmem
    rw [List.eq_of_mem_replicate hmem]
    simp [Client.unrecorded]
  have hworkers : (List.replicate workers Worker.asleep).countP Worker.lends = 0 := by
    rw [List.countP_eq_zero]
    intro worker hmem
    rw [List.eq_of_mem_replicate hmem]
    simp [Worker.lends]
  simp [unmapped, freeLength, total, Pipeline.loans, pebsInit, pipelineInit, hclients, hworkers]

/-- A drained record moves a struct between the map and the rest. -/
theorem Budget.drain {s : Machine} {mp : ModPage} (hbudget : s.Budget)
    (hhead : s.modPageDq.head? = some mp) (hasserts : s.Asserts (.drain mp)) :
    (s.effect (.drain mp)).Budget := by
  obtain ⟨keys, hkeys, hsum⟩ := hbudget
  have hmoved := unmapped_drain hhead
  have hloans : (s.effect (.drain mp)).pipe = s.pipe := rfl
  have htotal : (s.effect (.drain mp)).total = s.total := rfl
  unfold Budget
  rw [hloans, htotal]
  cases hfree : mp.free with
  | false =>
      have habsent : s.pagesMap (s.page mp.page).va = none := hasserts hfree
      have hnew : (s.page mp.page).va ∉ keys := by
        rw [hkeys, habsent]
        exact fun hne => hne rfl
      refine ⟨insert (s.page mp.page).va keys, fun va => ?_, ?_⟩
      · by_cases hva : va = (s.page mp.page).va
        · simp [effect, hva, hfree]
        · simp [effect, hva, hkeys]
      · rw [Finset.card_insert_of_notMem hnew]
        simp only [ModPage.isAdd, drainFrees, hfree, Bool.not_false, Bool.false_and, one_true,
          one_false] at hmoved
        omega
  | true =>
      refine ⟨keys.erase (s.page mp.page).va, fun va => ?_, ?_⟩
      · by_cases hva : va = (s.page mp.page).va
        · simp [effect, hva, hfree]
        · simp [effect, hva, hkeys]
      · simp only [ModPage.isAdd, drainFrees, hfree, Bool.not_true, Bool.true_and,
          one_false] at hmoved
        cases hentry : s.pagesMap (s.page mp.page).va with
        | none =>
            have hnot : (s.page mp.page).va ∉ keys := by
              rw [hkeys, hentry]
              exact fun hne => hne rfl
            rw [hentry, Option.isSome_none, one_false] at hmoved
            rw [Finset.erase_eq_of_notMem hnot]
            omega
        | some p =>
            have hin : (s.page mp.page).va ∈ keys := by
              rw [hkeys, hentry]
              simp
            have hcard := Finset.card_erase_add_one hin
            rw [hentry, Option.isSome_some, one_true] at hmoved
            omega

theorem Budget.step {s next : Machine} {action : MachineAction} (hbudget : s.Budget)
    (hstep : machineStep s action = some next) : next.Budget := by
  obtain ⟨-, henabled, ⟨-, rfl⟩ | ⟨hasserts, pipe, hpipe, rfl⟩⟩ := step_cases hstep
  · exact hbudget
  · by_cases hdrain : ∃ mp, action = .drain mp
    · obtain ⟨mp, rfl⟩ := hdrain
      obtain rfl : s.pipe = pipe := Option.some.inj hpipe
      exact hbudget.drain henabled.2 hasserts
    · have hnot : ∀ mp, action ≠ .drain mp := fun mp heq => hdrain ⟨mp, heq⟩
      obtain ⟨keys, hkeys, hsum⟩ := hbudget
      have hmoved := unmapped_effect henabled hnot
      have hloans := Pipeline.loans_advance hpipe
      refine ⟨keys, fun va => ?_, ?_⟩
      · rw [hkeys, setPipe_pagesMap, pagesMap_effect hnot]
      · have hunmapped : ((s.effect action).setPipe pipe).unmapped =
            (s.effect action).unmapped := rfl
        rw [hunmapped, total_effect, setPipe_pipe]
        omega

theorem budget_of_reachable {dramsize nvmsize workers clients : ℕ} {s : Machine}
    (hreach : Transition.Reachable (· = pebsInit dramsize nvmsize workers clients) machineStep s) :
    s.Budget ∧ s.total = dramsize / pageSize + nvmsize / pageSize := by
  refine hreach.invariant
    (fun s => s.Budget ∧ s.total = dramsize / pageSize + nvmsize / pageSize) ?_ ?_
  · rintro start rfl
    exact ⟨budget_pebsInit dramsize nvmsize workers clients, rfl⟩
  · rintro s action next ⟨hbudget, htotal⟩ hstep
    exact ⟨hbudget.step hstep, (total_step hstep).trans htotal⟩

end Machine

/-! ## Entries written -/

/-- The table stores no more entries than there are structs. -/
theorem Stores.length_le {s : Machine} (hbudget : s.Budget) {buckets : List Bucket}
    (hstores : Stores s.pagesMap buckets) : (buckets.filterMap id).length ≤ s.total := by
  obtain ⟨keys, hkeys, hsum⟩ := hbudget
  have hsub : ((buckets.filterMap id).map Prod.fst).toFinset ⊆ keys := by
    intro va hmem
    rw [List.mem_toFinset, List.mem_map] at hmem
    obtain ⟨⟨va, p⟩, hentry, rfl⟩ := hmem
    obtain ⟨bucket, hbucket, rfl⟩ := List.mem_filterMap.mp hentry
    rw [hkeys, (hstores.mem_iff va p).mp hbucket]
    simp
  have hcard := Finset.card_le_card hsub
  rw [List.toFinset_card_of_nodup hstores.nodup, List.length_map] at hcard
  omega

theorem countP_scored_le (page : PageId → Page) (buckets : List Bucket) :
    buckets.countP (Bucket.scored page) ≤ (buckets.filterMap id).length := by
  rw [List.length_filterMap_eq_countP]
  refine List.countP_mono_left fun bucket _ hscored => ?_
  match bucket with
  | none => cases hscored
  | some _ => rfl

/-! ## A run that faults every struct in -/

namespace Machine

theorem step_quiet {s : Machine} {action : MachineAction} (hrunning : s.aborted = false)
    (henabled : s.Enabled action) (hasserts : s.Asserts action)
    (hquiet : action.pipeAction = none) :
    machineStep s action = some (s.effect action) := by
  have hpipe : (s.effect action).pipe = s.pipe := (effect_kept s action).1
  unfold machineStep
  rw [if_pos ⟨hrunning, henabled⟩, if_pos hasserts, hquiet, ← hpipe]
  rfl

/-- The address of the run's fault that takes struct `p`. -/
def faultVa (p : PageId) : Va := (p + 1) * hugepageSize

theorem faultVa_injective : Function.Injective faultVa := by
  intro (p : ℕ) (q : ℕ) hva
  exact Nat.succ_injective (Nat.eq_of_mul_eq_mul_right (by decide) hva)

/-- The first `k` structs are tracked, recorded and present, and the others as
`pebs_init` left them; one client thread is idle. -/
structure Filled (dramPages nvmPages k : ℕ) (s : Machine) : Prop where
  running : s.aborted = false
  idle : s.clients = [.idle]
  draining : s.pipe.policy = .drain
  drained : s.modPageDq = []
  dram : s.freeList .dram = List.range' k (dramPages - k)
  nvm : s.freeList .nvm = List.range' (max k dramPages) (dramPages + nvmPages - max k dramPages)
  recorded : ∀ p < k, s.pagesMap (faultVa p) = some p ∧ (s.page p).present = true
  fresh : ∀ p, k ≤ p → s.pagesMap (faultVa p) = none ∧ s.pages (faultVa p) = none ∧
    s.mapping (faultVa p) = none
  unused : ∀ p, k ≤ p → (s.page p).inDram = decide (p < dramPages) ∧ (s.page p).present = false

theorem filled_pebsInit (dramsize nvmsize workers : ℕ) :
    Filled (dramsize / pageSize) (nvmsize / pageSize) 0 (pebsInit dramsize nvmsize workers 1) where
  running := rfl
  idle := rfl
  draining := rfl
  drained := rfl
  dram := List.range_eq_range'
  nvm := by simp [pebsInit]
  recorded := fun p hp => absurd hp (Nat.not_lt_zero p)
  fresh := fun p _ => ⟨rfl, rfl, rfl⟩
  unused := fun p _ => by
    refine ⟨?_, rfl⟩
    simp only [pebsInit, callocPage, initialFrame]
    split <;> simp [*]

/-- The list from which the next fault takes its struct. -/
def fillList (dramPages k : ℕ) : FreeList := if k < dramPages then .dram else .nvm

theorem Filled.head {dramPages nvmPages k : ℕ} {s : Machine} (hfilled : Filled dramPages nvmPages k s)
    (hk : k < dramPages + nvmPages) :
    (s.freeList (fillList dramPages k)).head? = some k ∧
      (fillList dramPages k = .nvm → s.freeList .dram = []) := by
  unfold fillList
  split
  · rename_i hdram
    refine ⟨?_, fun h => by cases h⟩
    obtain ⟨rest, hrest⟩ : ∃ rest, dramPages - k = rest + 1 := ⟨dramPages - k - 1, by omega⟩
    rw [hfilled.dram, hrest, List.range'_succ]
    rfl
  · rename_i hnvm
    refine ⟨?_, fun _ => ?_⟩
    · obtain ⟨rest, hrest⟩ : ∃ rest, dramPages + nvmPages - max k dramPages = rest + 1 :=
        ⟨dramPages + nvmPages - max k dramPages - 1, by omega⟩
      rw [hfilled.nvm, hrest, List.range'_succ, Nat.max_eq_left (by omega)]
      rfl
    · rw [hfilled.dram, Nat.sub_eq_zero_of_le (by omega)]
      rfl

theorem Filled.dequeued {dramPages nvmPages k : ℕ} {s : Machine}
    (hfilled : Filled dramPages nvmPages k s) :
    (s.dequeueFifo (fillList dramPages k)).freeList .dram =
        List.range' (k + 1) (dramPages - (k + 1)) ∧
      (s.dequeueFifo (fillList dramPages k)).freeList .nvm =
        List.range' (max (k + 1) dramPages) (dramPages + nvmPages - max (k + 1) dramPages) := by
  unfold fillList
  split
  · rename_i hdram
    simp only [dequeueFifo_freeList, Function.update_self, hfilled.dram, List.tail_range', ne_eq,
      reduceCtorEq, not_false_eq_true, Function.update_of_ne, hfilled.nvm]
    rw [Nat.max_eq_right (by omega), Nat.max_eq_right (by omega), Nat.sub_sub]
    exact ⟨rfl, rfl⟩
  · rename_i hnvm
    simp only [dequeueFifo_freeList, Function.update_self, hfilled.dram, List.tail_range', ne_eq,
      reduceCtorEq, not_false_eq_true, Function.update_of_ne, hfilled.nvm]
    rw [Nat.max_eq_left (by omega), Nat.max_eq_left (by omega), Nat.sub_eq_zero_of_le (by omega),
      Nat.sub_eq_zero_of_le (by omega), Nat.sub_sub]
    exact ⟨rfl, rfl⟩

/-- The six steps that fault struct `k` in and drain its record. -/
def fillActions (dramPages k : ℕ) : List MachineAction :=
  faultActions 0 (faultVa k) (fillList dramPages k) k ++ [.drain ⟨k, false⟩]

theorem Filled.next {dramPages nvmPages k : ℕ} {s : Machine}
    (hfilled : Filled dramPages nvmPages k s) (hk : k < dramPages + nvmPages) :
    ∃ final, Transition.run machineStep s (fillActions dramPages k) = some final ∧
      Filled dramPages nvmPages (k + 1) final := by
  obtain ⟨hhead, hlist⟩ := hfilled.head hk
  obtain ⟨hmap, hpages, hmapping⟩ := hfilled.fresh k le_rfl
  obtain ⟨hdram, hpresent⟩ := hfilled.unused k le_rfl
  obtain ⟨va, hva⟩ : ∃ va, va = faultVa k := ⟨_, rfl⟩
  obtain ⟨list, hfill⟩ : ∃ list, list = fillList dramPages k := ⟨_, rfl⟩
  obtain ⟨t₁, ht₁⟩ : ∃ t, t = s.effect (.allocate 0 va list k) := ⟨_, rfl⟩
  obtain ⟨t₂, ht₂⟩ : ∃ t, t = t₁.effect (.zeroAndMap 0 va k) := ⟨_, rfl⟩
  obtain ⟨t₃, ht₃⟩ : ∃ t, t = t₂.effect (.setVa 0 va k) := ⟨_, rfl⟩
  obtain ⟨t₄, ht₄⟩ : ∃ t, t = t₃.effect (.addToPages 0 k) := ⟨_, rfl⟩
  obtain ⟨t₅, ht₅⟩ : ∃ t, t = t₄.effect (.pushAdd 0 k) := ⟨_, rfl⟩
  obtain ⟨t₆, ht₆⟩ : ∃ t, t = t₅.effect (.drain ⟨k, false⟩) := ⟨_, rfl⟩
  have hstep₁ : machineStep s (.allocate 0 va list k) = some t₁ := by
    rw [ht₁]
    refine step_quiet hfilled.running ⟨by rw [hfilled.idle]; rfl, ⟨?_, ?_, ?_, ?_⟩, ?_, ?_⟩
      ⟨?_, hpresent⟩ rfl
    · rw [hva]; exact Nat.mul_pos (Nat.succ_pos k) (by decide)
    · rw [hva]; exact Nat.mul_mod_left _ _
    · rw [hva, hmapping]
    · simp [hfilled.idle, Client.faultsAt]
    · rw [hfill, hhead]
    · rw [hfill]; exact hlist
    · rw [hdram, hfill, fillList]
      split <;> simp [*, FreeList.inDram]
  have hstep₂ : machineStep t₁ (.zeroAndMap 0 va k) = some t₂ := by
    rw [ht₂]
    refine step_quiet ?_ ?_ trivial rfl
    · simp [ht₁, effect, hfilled.running]
    · simp [ht₁, Enabled, effect, hfilled.idle]
  have hstep₃ : machineStep t₂ (.setVa 0 va k) = some t₃ := by
    rw [ht₃]
    refine step_quiet ?_ ?_ trivial rfl
    · simp [ht₂, ht₁, effect, hfilled.running]
    · simp [ht₂, ht₁, Enabled, effect, hfilled.idle]
  have hkva : (t₃.page k).va = va := by simp [ht₃, effect]
  have hstep₄ : machineStep t₃ (.addToPages 0 k) = some t₄ := by
    rw [ht₄]
    refine step_quiet ?_ ?_ ?_ rfl
    · simp [ht₃, ht₂, ht₁, effect, hfilled.running]
    · simp [ht₃, ht₂, ht₁, Enabled, effect, hfilled.idle]
    · simp only [Asserts, hkva]
      simp [ht₃, ht₂, ht₁, effect, hva, hpages]
  have hstep₅ : machineStep t₄ (.pushAdd 0 k) = some t₅ := by
    rw [ht₅]
    refine step_quiet ?_ ?_ trivial rfl
    · simp [ht₄, ht₃, ht₂, ht₁, effect, hfilled.running]
    · simp [ht₄, ht₃, ht₂, ht₁, Enabled, effect, hfilled.idle]
  have hkva₅ : (t₅.page k).va = va := by simp [ht₅, ht₄, effect, hkva]
  have hmap₅ : t₅.pagesMap = s.pagesMap := by simp [ht₅, ht₄, ht₃, ht₂, ht₁, effect]
  have hstep₆ : machineStep t₅ (.drain ⟨k, false⟩) = some t₆ := by
    rw [ht₆]
    refine step_quiet ?_ ⟨?_, ?_⟩ ?_ rfl
    · simp [ht₅, ht₄, ht₃, ht₂, ht₁, effect, hfilled.running]
    · simp [ht₅, ht₄, ht₃, ht₂, ht₁, effect, hfilled.draining]
    · simp [ht₅, ht₄, ht₃, ht₂, ht₁, effect, hfilled.drained]
    · intro _
      rw [hkva₅, hmap₅, hva, hmap]
  refine ⟨t₆, ?_, ?_⟩
  · simp only [fillActions, faultActions, List.cons_append, List.nil_append, Transition.run,
      ← hva, ← hfill, hstep₁, hstep₂, hstep₃, hstep₄, hstep₅, hstep₆, Option.bind_some]
  have hpage₆ : ∀ p, (t₆.page p).inDram = (s.page p).inDram ∧
      (t₆.page p).present = if p = k then true else (s.page p).present := by
    intro p
    by_cases hp : p = k
    · subst hp
      simp [ht₆, ht₅, ht₄, ht₃, ht₂, ht₁, effect, drainFrees]
    · simp [ht₆, ht₅, ht₄, ht₃, ht₂, ht₁, effect, drainFrees, hp]
  have hmap₆ : t₆.pagesMap = Function.update s.pagesMap va (some k) := by
    rw [ht₆, ← hkva₅, ← hmap₅]
    rfl
  have hpages₆ : t₆.pages = Function.update s.pages va (some k) := by
    have hpages₃ : t₃.pages = s.pages := by simp [ht₃, ht₂, ht₁, effect]
    rw [← hkva, ← hpages₃]
    simp [ht₆, ht₅, ht₄, effect]
  have hmapping₆ : t₆.mapping = Function.update s.mapping va (some (t₁.frameOf k)) := by
    simp [ht₆, ht₅, ht₄, ht₃, ht₂, ht₁, effect]
  have hfree₆ : t₆.freeList = (s.dequeueFifo list).freeList := by
    simp [ht₆, ht₅, ht₄, ht₃, ht₂, ht₁, effect, drainFrees]
  constructor
  case running => simp [ht₆, ht₅, ht₄, ht₃, ht₂, ht₁, effect, hfilled.running]
  case idle => simp [ht₆, ht₅, ht₄, ht₃, ht₂, ht₁, effect, hfilled.idle]
  case draining => simp [ht₆, ht₅, ht₄, ht₃, ht₂, ht₁, effect, hfilled.draining]
  case drained => simp [ht₆, ht₅, ht₄, ht₃, ht₂, ht₁, effect, hfilled.drained]
  case dram => rw [hfree₆, hfill, hfilled.dequeued.1]
  case nvm => rw [hfree₆, hfill, hfilled.dequeued.2]
  case recorded =>
    intro p hp
    rw [hmap₆, (hpage₆ p).2, hva]
    by_cases hpk : p = k
    · simp [hpk]
    · have hne : faultVa p ≠ faultVa k := fun heq => hpk (faultVa_injective heq)
      rw [Function.update_of_ne hne, if_neg hpk]
      exact hfilled.recorded p (by omega)
  case fresh =>
    intro p hp
    have hne : faultVa p ≠ faultVa k := fun heq => Nat.ne_of_gt hp (faultVa_injective heq)
    rw [hmap₆, hpages₆, hmapping₆, hva, Function.update_of_ne hne, Function.update_of_ne hne,
      Function.update_of_ne hne]
    exact hfilled.fresh p (by omega)
  case unused =>
    intro p hp
    have hpk : p ≠ k := by omega
    rw [(hpage₆ p).1, (hpage₆ p).2, if_neg hpk]
    exact hfilled.unused p (by omega)

theorem reachable_filled (dramsize nvmsize workers : ℕ) {k : ℕ}
    (hk : k ≤ dramsize / pageSize + nvmsize / pageSize) :
    ∃ s, Transition.Reachable (· = pebsInit dramsize nvmsize workers 1) machineStep s ∧
      Filled (dramsize / pageSize) (nvmsize / pageSize) k s := by
  induction k with
  | zero =>
      exact ⟨_, Transition.Reachable.start rfl, filled_pebsInit dramsize nvmsize workers⟩
  | succ k ih =>
      obtain ⟨s, ⟨start, actions, hstart, hrun⟩, hfilled⟩ := ih (by omega)
      obtain ⟨next, hnext, hfilledNext⟩ := hfilled.next (by omega)
      refine ⟨next, ⟨start, actions ++ fillActions (dramsize / pageSize) k, hstart, ?_⟩,
        hfilledNext⟩
      rw [Transition.run_append, hrun]
      exact hnext

/-- A table that stores the map: its buckets in any order. -/
theorem Budget.exists_stores {s : Machine} (hbudget : s.Budget) :
    ∃ buckets, Stores s.pagesMap buckets := by
  obtain ⟨keys, hkeys, -⟩ := hbudget
  let entry : Va → Option (Va × PageId) := fun va => (s.pagesMap va).map fun p => (va, p)
  have hmem : ∀ va p, some (va, p) ∈ keys.toList.map entry ↔ s.pagesMap va = some p := by
    intro va p
    rw [List.mem_map]
    constructor
    · rintro ⟨key, -, hentry⟩
      obtain ⟨q, hq, hpair⟩ := Option.map_eq_some_iff.mp hentry
      obtain ⟨rfl, rfl⟩ := Prod.mk.inj hpair
      exact hq
    · intro hmap
      refine ⟨va, ?_, by simp [entry, hmap]⟩
      rw [Finset.mem_toList, hkeys, hmap]
      simp
  refine ⟨keys.toList.map entry, ?_, hmem⟩
  have hfst : ((keys.toList.map entry).filterMap id).map Prod.fst =
      keys.toList.filter fun va => (s.pagesMap va).isSome := by
    induction keys.toList with
    | nil => rfl
    | cons va rest ih =>
        cases hmap : s.pagesMap va with
        | none => simpa [entry, hmap] using ih
        | some p => simpa [entry, hmap] using ih
  rw [hfst]
  exact keys.nodup_toList.filter _

/-- Every filled struct is scored. -/
theorem Filled.le_countP {dramPages nvmPages k : ℕ} {s : Machine}
    (hfilled : Filled dramPages nvmPages k s) {buckets : List Bucket}
    (hstores : Stores s.pagesMap buckets) : k ≤ buckets.countP (Bucket.scored s.page) := by
  let filled : List Bucket := (List.range k).map fun p => some (faultVa p, p)
  have hnodup : filled.Nodup := by
    refine List.nodup_range.map fun p q heq => ?_
    exact (Prod.mk.inj (Option.some.inj heq)).2
  have hsub : filled ⊆ buckets.filter (Bucket.scored s.page) := by
    intro bucket hmem
    obtain ⟨p, hp, rfl⟩ := List.mem_map.mp hmem
    obtain ⟨hmap, hpresent⟩ := hfilled.recorded p (List.mem_range.mp hp)
    exact List.mem_filter.mpr ⟨(hstores.mem_iff _ p).mpr hmap, hpresent⟩
  have hlength := (List.subperm_of_subset hnodup hsub).length_le
  rw [← List.countP_eq_length_filter] at hlength
  simpa [filled] using hlength

end Machine

open Machine

theorem scoresInBounds_of_le {dramsize nvmsize : ℕ}
    (hfits : dramsize / pageSize + nvmsize / pageSize ≤ scoresCapacity) :
    ScoresInBounds dramsize nvmsize := by
  intro workers clients s hreach _ buckets hstores env prevAccessVersion i hi
  obtain ⟨hbudget, htotal⟩ := budget_of_reachable hreach
  rw [written_calculateScoresMap, List.mem_range] at hi
  calc
    i < buckets.countP (Bucket.scored s.page) := hi
    _ ≤ (buckets.filterMap id).length := countP_scored_le s.page buckets
    _ ≤ s.total := hstores.length_le hbudget
    _ ≤ scoresCapacity := htotal ▸ hfits

/-- A run that faults every struct in fills more entries than there are. -/
theorem not_scoresInBounds_of_lt {dramsize nvmsize : ℕ}
    (hexceeds : scoresCapacity < dramsize / pageSize + nvmsize / pageSize) :
    ¬ ScoresInBounds dramsize nvmsize := by
  intro hbounds
  obtain ⟨s, hreach, hfilled⟩ := reachable_filled dramsize nvmsize numMigrationThreads le_rfl
  obtain ⟨buckets, hstores⟩ := (budget_of_reachable hreach).1.exists_stores
  have hcount := hfilled.le_countP hstores
  refine absurd (hbounds numMigrationThreads 1 s hreach hfilled.draining buckets hstores
    ⟨wEwmaAlpha, histBias, .defaultSampling⟩ 0 scoresCapacity ?_) (lt_irrefl _)
  rw [written_calculateScoresMap, List.mem_range]
  omega

/-- The array is never overrun exactly when it has an entry for every struct
that `pebs_init` creates. -/
theorem scoresInBounds_iff (dramsize nvmsize : ℕ) :
    ScoresInBounds dramsize nvmsize ↔
      dramsize / pageSize + nvmsize / pageSize ≤ scoresCapacity := by
  refine ⟨fun hbounds => ?_, scoresInBounds_of_le⟩
  by_contra hexceeds
  exact not_scoresInBounds_of_lt (Nat.lt_of_not_le hexceeds) hbounds

/-- With `DRAMSIZE` at its default and 96 GiB of NVM there are more structs
than entries. -/
theorem not_scoresInBounds_largeNvm :
    ¬ ScoresInBounds dramsizeDefault (96 * (1024 * 1024 * 1024)) :=
  not_scoresInBounds_of_lt (by decide)

end ArmsTiering
