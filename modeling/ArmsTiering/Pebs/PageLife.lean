import ArmsTiering.Core.Transition
import ArmsTiering.Pebs.Sampling
import Mathlib.Data.Fin.VecNotation

/-!
# The hotness fields over the lives of a page struct

Scoring, marking and the promotion tests of `pebs_policy_thread`, as they act
on one `struct arms_page`, and the events that end one life of a struct and
start the next.  `reset_page_access_fields` runs when a struct goes back to a
free list; it clears neither `score`, which the scorer copies to `prev_score`
before it overwrites it, nor `can_promote`, which the marking loop only sets
for the top pages.
-/

namespace ArmsTiering

open scoped CFloat

variable {F : Type} [CFloat F] {n : ℕ}

/-- Read by the literals of `Fin 2` as one named proof. -/
theorem neZero_two : @NeZero ℕ Zero.ofOfNat0 2 :=
  Nat.instNeZeroSucc

/-- The constants and globals that scoring reads in one interval. -/
structure ScoreEnv (F : Type) (n : ℕ) where
  wEwmaAlpha : Fin n → F
  bias : Fin n → F
  samplingMode : SamplingMode

/-- `w_ewma_alpha`: windows of one and of ten seconds. -/
def wEwmaAlpha : Fin windowSize → ℚ := ![2 / 3, 2 / 21]

def histBias : Fin windowSize → ℚ := ![4 / 10, 6 / 10]

def recnBias : Fin windowSize → ℚ := ![731 / 1000, 269 / 1000]

/-- The array that `bias` points to. -/
def Bias.weights : Bias → Fin windowSize → ℚ
  | .hist => histBias
  | .recn => recnBias

/-- The `uint32_t accesses` of `update_window`. -/
def windowAccesses (page : ArmsPage F n) (prevAccessVersion : Fin 2) : ℕ :=
  page.accesses .dramread prevAccessVersion + page.accesses .nvmread prevAccessVersion +
    nvmWritesWeight * page.accesses .write prevAccessVersion

def updateWindow (env : ScoreEnv F n) (prevAccessVersion : Fin 2) (page : ArmsPage F n) :
    ArmsPage F n :=
  let accesses := windowAccesses page prevAccessVersion
  { page with
    w := fun i =>
      (CFloat.ofRat 1 - env.wEwmaAlpha i) * page.w i +
        env.wEwmaAlpha i * CFloat.ofNat (windowScale env.samplingMode * accesses) }

/-- `compute_score`: the loop adds the biased averages in index order. -/
def computeScore (page : ArmsPage F n) (bias : Fin n → F) : F :=
  (List.finRange n).foldl (fun score i => score + page.w i * bias i) (CFloat.ofRat 0)

/-- The body of the loop of `calculate_scores_map` for one present page. -/
def scorePage (env : ScoreEnv F n) (prevAccessVersion : Fin 2) (page : ArmsPage F n) :
    ArmsPage F n :=
  let page := updateWindow env prevAccessVersion page
  let page := { page with
    accesses := fun type version =>
      if version = prevAccessVersion then 0 else page.accesses type version }
  let page := { page with prevScore := page.score }
  { page with score := computeScore page env.bias }

/-- The two marking loops, for the page at index `rank` of the sorted scores.
`dramPages` is `dramsize / PAGE_SIZE`. -/
def markRank (dramPages rank : ℕ) (page : ArmsPage F n) : ArmsPage F n :=
  if rank < dramPages then
    if CFloat.eq page.score (CFloat.ofRat 0) then page
    else
      let page := { page with hotAge := (page.hotAge + 1) % 2 ^ 16 }
      if 1 < page.hotAge ∧ CFloat.le page.prevScore page.score then
        { page with canPromote := true }
      else page
  else
    { page with hotAge := 0, canPromote := false }

/-- Cost averages and latency estimate read by the promotion tests. -/
structure CostEnv (F : Type) where
  promotionCostAvg : F
  demotionCostAvg : F
  latencyDiff : F

def migrationCost (costs : CostEnv F) : F :=
  CFloat.ofRat cbMultiplier * (costs.promotionCostAvg + costs.demotionCostAvg)

/-- The promotion into a free DRAM page: `can_promote` and the cost-benefit
test of the migrations loop. -/
def promotesFreely (costs : CostEnv F) (p : ArmsPage F n) : Bool :=
  let benefit :=
    p.score * CFloat.ofNat p.hotAge * CFloat.ofNat hfSamplePeriod * costs.latencyDiff
  p.canPromote && !CFloat.lt benefit (migrationCost costs)

/-- `continue_migration`, for a window of at least one average. -/
def continueMigration (costs : CostEnv F) (hp cp : ArmsPage F (n + 1)) : Bool :=
  let bounds := (List.finRange n).foldl
    (fun (bounds : F × F) i =>
      (if CFloat.lt (hp.w i.succ) bounds.1 then hp.w i.succ else bounds.1,
        if CFloat.lt bounds.2 (cp.w i.succ) then cp.w i.succ else bounds.2))
    (hp.w 0, cp.w (Fin.last n))
  let benefit := (hp.score - cp.score) * CFloat.ofNat hp.hotAge *
    CFloat.ofNat hfSamplePeriod * costs.latencyDiff
  !CFloat.lt bounds.1 bounds.2 && !CFloat.lt benefit (migrationCost costs)

/-- The promotion that needs the demotion of `cp`. -/
def promotesBySwap (costs : CostEnv F) (hp cp : ArmsPage F (n + 1)) : Bool :=
  hp.canPromote && continueMigration costs hp cp

/-! ## Lives of a struct -/

/-- What one policy interval brings to a page: the samples counted since the
last one, the access version that the interval reads, the scoring environment
and the page's rank. -/
structure Interval (F : Type) (n : ℕ) where
  samples : List (PbufType × Fin 2)
  prevAccessVersion : Fin 2
  env : ScoreEnv F n
  rank : ℕ

/-- `page->accesses[j][curr_access_version]++` on a `uint16_t`. -/
def countSample (accesses : PbufType → Fin 2 → ℕ) (sample : PbufType × Fin 2) :
    PbufType → Fin 2 → ℕ :=
  fun type version =>
    if type = sample.1 ∧ version = sample.2 then (accesses type version + 1) % 2 ^ 16
    else accesses type version

def countSamples (samples : List (PbufType × Fin 2)) (page : ArmsPage F n) : ArmsPage F n :=
  { page with accesses := samples.foldl countSample page.accesses }

def pageInterval (dramPages : ℕ) (page : ArmsPage F n) (interval : Interval F n) :
    ArmsPage F n :=
  markRank dramPages interval.rank
    (scorePage interval.env interval.prevAccessVersion (countSamples interval.samples page))

/-- Events in the life of a page struct. -/
inductive LifeEvent (F : Type) (n : ℕ)
  /-- `pebs_allocate_page` hands the struct to a fault, which sets its `va`. -/
  | allocate (va : ℕ)
  | interval (interval : Interval F n)
  /-- `arms_migrate_up` or `arms_migrate_down` -/
  | migrate (inDram : Bool) (devdaxOffset : ℕ)
  | remove
  /-- The drain of the free record puts the struct on the list of its tier. -/
  | drain
  /-- A worker hands the struct the frame a migrated page left. -/
  | recycle (inDram : Bool) (devdaxOffset : ℕ)

def lifeStep (dramPages : ℕ) (page : ArmsPage F n) : LifeEvent F n → ArmsPage F n
  | .allocate va => { page with present := true, va := va, migrating := false }
  | .interval interval => pageInterval dramPages page interval
  | .migrate inDram devdaxOffset =>
      { page with inDram := inDram, devdaxOffset := devdaxOffset }
  | .remove => { page with present := false }
  | .drain => resetPageAccessFields page
  | .recycle inDram devdaxOffset =>
      resetPageAccessFields
        { page with devdaxOffset := devdaxOffset, inDram := inDram, present := false }

def life (dramPages : ℕ) (page : ArmsPage F n) (events : List (LifeEvent F n)) :
    ArmsPage F n :=
  events.foldl (lifeStep dramPages) page

/-- The ways in which a struct gets back to a free list. -/
inductive FreedBy
  | drained
  | recycled (inDram : Bool) (devdaxOffset : ℕ)

def FreedBy.events : FreedBy → List (LifeEvent F n)
  | .drained => [.remove, .drain]
  | .recycled inDram devdaxOffset => [.recycle inDram devdaxOffset]

/-- The struct after an earlier life, once it was freed and allocated again. -/
def reallocated (dramPages : ℕ) (earlier : ArmsPage F n) (freed : FreedBy) (va : ℕ) :
    ArmsPage F n :=
  life dramPages earlier (freed.events ++ [.allocate va])

/-- The fields that the promotion decisions read, and `prev_score`. -/
structure SameHotness (left right : ArmsPage F n) : Prop where
  w : left.w = right.w
  score : left.score = right.score
  prevScore : left.prevScore = right.prevScore
  hotAge : left.hotAge = right.hotAge
  canPromote : left.canPromote = right.canPromote

/-- Every promotion decision is the same for both structs. -/
structure SameDecisions (left right : ArmsPage F (n + 1)) : Prop where
  freely : ∀ costs, promotesFreely costs left = promotesFreely costs right
  asHot : ∀ costs cp, promotesBySwap costs left cp = promotesBySwap costs right cp
  asCold : ∀ costs hp, promotesBySwap costs hp left = promotesBySwap costs hp right

/-- Two structs treated alike: one step is one interval of both. -/
def pairStep (dramPages : ℕ) (pages : ArmsPage F n × ArmsPage F n) (interval : Interval F n) :
    Option (ArmsPage F n × ArmsPage F n) :=
  some (pageInterval dramPages pages.1 interval, pageInterval dramPages pages.2 interval)

/-- After every interval of a later life the two structs agree. -/
def LaterLivesAgree (dramPages : ℕ) (left right : ArmsPage F (n + 1)) :
    List (Interval F (n + 1)) → Prop
  | [] => True
  | interval :: intervals =>
      Transition.Along (pairStep dramPages)
        (fun pages => SameHotness pages.1 pages.2 ∧ SameDecisions pages.1 pages.2)
        (pageInterval dramPages left interval, pageInterval dramPages right interval) intervals

/-- The fields that a removal leaves behind make no difference: both earlier
lives ended with the same `score`, and with the same `can_promote` unless the
first rank of the new life is outside the top pages. -/
def StaleFieldsHarmless (dramPages : ℕ) (left right : ArmsPage F n) :
    List (Interval F n) → Prop
  | [] => True
  | interval :: _ =>
      left.score = right.score ∧
        (interval.rank < dramPages → left.canPromote = right.canPromote)

theorem SameHotness.sameDecisions {left right : ArmsPage F (n + 1)}
    (hsame : SameHotness left right) : SameDecisions left right where
  freely costs := by
    simp only [promotesFreely, hsame.score, hsame.hotAge, hsame.canPromote]
  asHot costs cp := by
    simp only [promotesBySwap, continueMigration, hsame.w, hsame.score, hsame.hotAge,
      hsame.canPromote]
  asCold costs hp := by
    simp only [promotesBySwap, continueMigration, hsame.w, hsame.score]

/-- The fields that an interval reads before it writes them. -/
structure SameInputs (left right : ArmsPage F n) : Prop where
  accesses : left.accesses = right.accesses
  w : left.w = right.w
  score : left.score = right.score
  hotAge : left.hotAge = right.hotAge
  canPromote : left.canPromote = right.canPromote

theorem reallocated_fields (dramPages : ℕ) (earlier : ArmsPage F n) (freed : FreedBy)
    (va : ℕ) :
    (reallocated dramPages earlier freed va).accesses = (fun _ _ => 0) ∧
      (reallocated dramPages earlier freed va).w = (fun _ => CFloat.ofRat 0) ∧
      (reallocated dramPages earlier freed va).hotAge = 0 ∧
      (reallocated dramPages earlier freed va).score = earlier.score ∧
      (reallocated dramPages earlier freed va).canPromote = earlier.canPromote := by
  cases freed with
  | drained => exact ⟨rfl, rfl, rfl, rfl, rfl⟩
  | recycled inDram devdaxOffset => exact ⟨rfl, rfl, rfl, rfl, rfl⟩

/-! ### One interval -/

section Interval

variable (dramPages : ℕ) (page : ArmsPage F n) (interval : Interval F n)

/-- The counts, averages and score after an interval; marking leaves them. -/
def scored : ArmsPage F n :=
  scorePage interval.env interval.prevAccessVersion (countSamples interval.samples page)

theorem markRank_keeps (rank : ℕ) :
    (markRank dramPages rank page).accesses = page.accesses ∧
      (markRank dramPages rank page).w = page.w ∧
      (markRank dramPages rank page).score = page.score ∧
      (markRank dramPages rank page).prevScore = page.prevScore := by
  unfold markRank
  split
  · split
    · exact ⟨rfl, rfl, rfl, rfl⟩
    · dsimp only
      split <;> exact ⟨rfl, rfl, rfl, rfl⟩
  · exact ⟨rfl, rfl, rfl, rfl⟩

theorem markRank_hotAge (rank : ℕ) :
    (markRank dramPages rank page).hotAge =
      if rank < dramPages then
        if CFloat.eq page.score (CFloat.ofRat 0) then page.hotAge
        else (page.hotAge + 1) % 2 ^ 16
      else 0 := by
  unfold markRank
  split
  · split
    · rfl
    · dsimp only
      split <;> rfl
  · rfl

theorem markRank_canPromote (rank : ℕ) :
    (markRank dramPages rank page).canPromote =
      if rank < dramPages then
        if CFloat.eq page.score (CFloat.ofRat 0) then page.canPromote
        else if 1 < (page.hotAge + 1) % 2 ^ 16 ∧ CFloat.le page.prevScore page.score then true
        else page.canPromote
      else false := by
  unfold markRank
  split
  · split
    · rfl
    · dsimp only
      split <;> rfl
  · rfl

theorem pageInterval_prevScore :
    (pageInterval dramPages page interval).prevScore = page.score := by
  rw [pageInterval, (markRank_keeps dramPages _ _).2.2.2]
  rfl

/-- A page that was not hot before cannot earn `can_promote` in this interval:
in the top it keeps the flag it came with, elsewhere it loses it. -/
theorem pageInterval_canPromote_of_cold (hcold : page.hotAge = 0) :
    (pageInterval dramPages page interval).canPromote =
      if interval.rank < dramPages then page.canPromote else false := by
  have hage : (scored page interval).hotAge = 0 := hcold
  have hflag : (scored page interval).canPromote = page.canPromote := rfl
  change (markRank dramPages interval.rank (scored page interval)).canPromote = _
  rw [markRank_canPromote, hage, hflag]
  simp

end Interval

/-! ### Two structs treated alike -/

/-- Counts, averages and age after an interval depend on nothing else of the
struct; so does the new score. -/
theorem pageInterval_counters (dramPages : ℕ) {left right : ArmsPage F n}
    (haccesses : left.accesses = right.accesses) (hw : left.w = right.w)
    (hhotAge : left.hotAge = right.hotAge) (interval : Interval F n) :
    (pageInterval dramPages left interval).accesses =
        (pageInterval dramPages right interval).accesses ∧
      (pageInterval dramPages left interval).w =
        (pageInterval dramPages right interval).w ∧
      (pageInterval dramPages left interval).score =
        (pageInterval dramPages right interval).score ∧
      (pageInterval dramPages left interval).hotAge =
        (pageInterval dramPages right interval).hotAge := by
  have hcounted : (scored left interval).accesses = (scored right interval).accesses := by
    simp only [scored, scorePage, updateWindow, countSamples, haccesses]
  have haverages : (scored left interval).w = (scored right interval).w := by
    simp only [scored, scorePage, updateWindow, windowAccesses, countSamples, haccesses, hw]
  have hscore : (scored left interval).score = (scored right interval).score := by
    simp only [scored, scorePage, updateWindow, windowAccesses, countSamples, computeScore,
      haccesses, hw]
  have hage : (scored left interval).hotAge = (scored right interval).hotAge := hhotAge
  obtain ⟨hkeepAccesses, hkeepW, hkeepScore, -⟩ :=
    markRank_keeps dramPages (scored left interval) interval.rank
  obtain ⟨hkeepAccesses', hkeepW', hkeepScore', -⟩ :=
    markRank_keeps dramPages (scored right interval) interval.rank
  refine ⟨hkeepAccesses.trans (hcounted.trans hkeepAccesses'.symm),
    hkeepW.trans (haverages.trans hkeepW'.symm),
    hkeepScore.trans (hscore.trans hkeepScore'.symm), ?_⟩
  change (markRank dramPages interval.rank (scored left interval)).hotAge =
    (markRank dramPages interval.rank (scored right interval)).hotAge
  rw [markRank_hotAge, markRank_hotAge, hscore, hage]

/-- Step lemma: equal inputs give equal results and equal inputs to the next
interval. -/
theorem SameInputs.interval (dramPages : ℕ) {left right : ArmsPage F n}
    (hsame : SameInputs left right) (interval : Interval F n) :
    SameInputs (pageInterval dramPages left interval)
        (pageInterval dramPages right interval) ∧
      SameHotness (pageInterval dramPages left interval)
        (pageInterval dramPages right interval) := by
  obtain ⟨haccesses, hw, hscore, hhotAge⟩ :=
    pageInterval_counters dramPages hsame.accesses hsame.w hsame.hotAge interval
  have hprevScore : (pageInterval dramPages left interval).prevScore =
      (pageInterval dramPages right interval).prevScore := by
    rw [pageInterval_prevScore, pageInterval_prevScore, hsame.score]
  have hscored : (scored left interval).score = (scored right interval).score := by
    have hleft := (markRank_keeps dramPages (scored left interval) interval.rank).2.2.1
    have hright := (markRank_keeps dramPages (scored right interval) interval.rank).2.2.1
    exact hleft.symm.trans (hscore.trans hright)
  have hcanPromote : (pageInterval dramPages left interval).canPromote =
      (pageInterval dramPages right interval).canPromote := by
    have hage : (scored left interval).hotAge = (scored right interval).hotAge := hsame.hotAge
    have hprev : (scored left interval).prevScore = (scored right interval).prevScore :=
      hsame.score
    have hflag : (scored left interval).canPromote = (scored right interval).canPromote :=
      hsame.canPromote
    change (markRank dramPages interval.rank (scored left interval)).canPromote =
      (markRank dramPages interval.rank (scored right interval)).canPromote
    rw [markRank_canPromote, markRank_canPromote, hscored, hage, hprev, hflag]
  exact ⟨⟨haccesses, hw, hscore, hhotAge, hcanPromote⟩,
    ⟨hw, hscore, hprevScore, hhotAge, hcanPromote⟩⟩

/-- Run lemma: from equal inputs the two structs agree after every interval. -/
theorem SameInputs.along (dramPages : ℕ) {left right : ArmsPage F (n + 1)}
    (hsame : SameInputs left right) (hhot : SameHotness left right)
    (later : List (Interval F (n + 1))) :
    Transition.Along (pairStep dramPages)
      (fun pages => SameHotness pages.1 pages.2 ∧ SameDecisions pages.1 pages.2)
      (left, right) later := by
  induction later generalizing left right with
  | nil => exact ⟨hhot, hhot.sameDecisions⟩
  | cons interval later ih =>
      refine ⟨⟨hhot, hhot.sameDecisions⟩, fun next hnext => ?_⟩
      obtain rfl : (pageInterval dramPages left interval,
          pageInterval dramPages right interval) = next := by
        simpa [pairStep] using hnext
      obtain ⟨hinputs, hagain⟩ := hsame.interval dramPages interval
      exact ih hinputs hagain

/-- Whatever the two earlier lives were, and however they ended: the later
lives agree in every interval exactly when the fields that
`reset_page_access_fields` forgets make no difference. -/
theorem laterLivesAgree_iff (F : Type) [CFloat F] (n dramPages devdaxOffset : ℕ)
    (inDram : Bool) (leftLife rightLife : List (LifeEvent F (n + 1)))
    (leftFreed rightFreed : FreedBy) (leftVa rightVa : ℕ)
    (later : List (Interval F (n + 1))) :
    let left := life dramPages (callocPage devdaxOffset inDram) leftLife
    let right := life dramPages (callocPage devdaxOffset inDram) rightLife
    LaterLivesAgree dramPages (reallocated dramPages left leftFreed leftVa)
        (reallocated dramPages right rightFreed rightVa) later ↔
      StaleFieldsHarmless dramPages left right later := by
  intro left right
  obtain ⟨hlAccesses, hlW, hlAge, hlScore, hlFlag⟩ :=
    reallocated_fields dramPages left leftFreed leftVa
  obtain ⟨hrAccesses, hrW, hrAge, hrScore, hrFlag⟩ :=
    reallocated_fields dramPages right rightFreed rightVa
  cases later with
  | nil => exact Iff.rfl
  | cons interval later =>
      obtain ⟨haccesses, hw, hscore, hhotAge⟩ :=
        pageInterval_counters dramPages (hlAccesses.trans hrAccesses.symm)
          (hlW.trans hrW.symm) (hlAge.trans hrAge.symm) interval
      have hlPrev := pageInterval_prevScore dramPages
        (reallocated dramPages left leftFreed leftVa) interval
      have hrPrev := pageInterval_prevScore dramPages
        (reallocated dramPages right rightFreed rightVa) interval
      have hlCan := pageInterval_canPromote_of_cold dramPages
        (reallocated dramPages left leftFreed leftVa) interval hlAge
      have hrCan := pageInterval_canPromote_of_cold dramPages
        (reallocated dramPages right rightFreed rightVa) interval hrAge
      rw [hlScore] at hlPrev
      rw [hrScore] at hrPrev
      rw [hlFlag] at hlCan
      rw [hrFlag] at hrCan
      constructor
      · intro hagree
        obtain ⟨hhot, -⟩ := hagree.head
        refine ⟨?_, fun hrank => ?_⟩
        · rw [← hlPrev, ← hrPrev]
          exact hhot.prevScore
        · have hflags := hhot.canPromote
          rwa [hlCan, hrCan, if_pos hrank, if_pos hrank] at hflags
      · rintro ⟨hstaleScore, hstaleFlag⟩
        have hcanPromote :
            (pageInterval dramPages (reallocated dramPages left leftFreed leftVa)
                interval).canPromote =
              (pageInterval dramPages (reallocated dramPages right rightFreed rightVa)
                interval).canPromote := by
          rw [hlCan, hrCan]
          by_cases hrank : interval.rank < dramPages
          · rw [if_pos hrank, if_pos hrank]
            exact hstaleFlag hrank
          · rw [if_neg hrank, if_neg hrank]
        have hprevScore := hlPrev.trans (hstaleScore.trans hrPrev.symm)
        exact SameInputs.along dramPages
          ⟨haccesses, hw, hscore, hhotAge, hcanPromote⟩
          ⟨hw, hscore, hprevScore, hhotAge, hcanPromote⟩ later

/-- One interval at the top rank with a single DRAM sample, under the initial
bias and mode. -/
def oneSampleInterval : Interval ℚ windowSize where
  samples := [(.dramread, 0)]
  prevAccessVersion := 0
  env := ⟨wEwmaAlpha, Bias.hist.weights, .defaultSampling⟩
  rank := 0

/-- A struct that was idle in its earlier life and one that was hot disagree
after the first interval of the next life: the hot one starts with the old
score as `prev_score` and with `can_promote` set. -/
theorem hotLife_influences_next :
    ¬ ∀ (leftLife rightLife : List (LifeEvent ℚ windowSize))
        (later : List (Interval ℚ windowSize)),
      LaterLivesAgree 1
        (reallocated 1 (life 1 (callocPage 0 true) leftLife) .drained pageSize)
        (reallocated 1 (life 1 (callocPage 0 true) rightLife) .drained pageSize) later := by
  intro hall
  have hagree := hall
    [.allocate pageSize, .interval { oneSampleInterval with samples := [] }]
    [.allocate pageSize, .interval oneSampleInterval, .interval oneSampleInterval]
    [oneSampleInterval]
  have hflags := hagree.head.1.canPromote
  exact absurd hflags (by decide +kernel)

end ArmsTiering
