import ArmsTiering.Machine.LoopInvariant
import ArmsTiering.Machine.ScoreArray
import ArmsTiering.Pebs.Domination

/-!
# The age of hot pages

`hot_age` counts the intervals that a page has spent in the top ranks, and the
two cost-benefit tests multiply it into the benefit of a promotion.  The count
of intervals has no bound and the field has 16 bits.  Intervals are whole here:
scoring, the sort and the marking loops; between them other threads write the
fields that the marking loops do not.
-/

namespace ArmsTiering

open Machine

attribute [local instance] neZero_two

/-- What one interval scores with, and what `qsort` makes of `scores`. -/
structure ScoringInterval where
  bias : Bias
  samplingMode : SamplingMode
  prevAccessVersion : Fin 2
  buckets : List Bucket
  sorted : List (ScoreEntry ℚ)

namespace ScoringInterval

def env (i : ScoringInterval) : ScoreEnv ℚ windowSize :=
  ⟨wEwmaAlpha, i.bias.weights, i.samplingMode⟩

def scored (i : ScoringInterval) (page : PageId → Page) : ScoreLoop :=
  calculateScoresMap i.env i.prevAccessVersion i.buckets page

/-- The table has one bucket for each struct, and the sort gives a descending
permutation. -/
def Runs (i : ScoringInterval) (page : PageId → Page) : Prop :=
  ((i.buckets.filterMap id).map Prod.snd).Nodup ∧ i.sorted.Perm (i.scored page).scoresOut ∧
    i.sorted.Pairwise fun left right => right.score ≤ left.score

end ScoringInterval

deriving instance DecidableEq for ScoreEntry

instance (i : ScoringInterval) (page : PageId → Page) : Decidable (i.Runs page) :=
  inferInstanceAs (Decidable (_ ∧ _ ∧ _))

/-- The page structs, with the length of each page's stay as history: the
intervals in the top ranks with a score that is not zero, since the page last
was outside. -/
structure PolicyState where
  page : PageId → Page
  stay : PageId → ℕ

inductive PolicyEvent
  | interval (i : ScoringInterval)
  /-- a sample, a fault, a migration or a removal writes its fields -/
  | write (p : PageId) (va devdaxOffset : ℕ) (inDram migrating present : Bool)
      (accesses : PbufType → Fin 2 → ℕ)
  /-- the struct goes back to a free list -/
  | reset (p : PageId)

/-- The stay of a page after an interval with the given scores. -/
def nextStay (dramPages : ℕ) (sorted : List (ScoreEntry ℚ)) (page : PageId → Page)
    (stay : PageId → ℕ) (p : PageId) : ℕ :=
  match sorted.findIdx? fun entry => entry.page == p with
  | none => stay p
  | some rank =>
      if rank < dramPages then if (page p).score = 0 then stay p else stay p + 1 else 0

def policyStep (dramPages : ℕ) (s : PolicyState) : PolicyEvent → Option PolicyState
  | .interval i =>
      if i.Runs s.page then
        some { page := markScores dramPages i.sorted (i.scored s.page).page
               stay := nextStay dramPages i.sorted (i.scored s.page).page s.stay }
      else none
  | .write p va devdaxOffset inDram migrating present accesses =>
      some { s with
        page := Function.update s.page p
          { s.page p with
            va := va
            devdaxOffset := devdaxOffset
            inDram := inDram
            migrating := migrating
            present := present
            accesses := accesses } }
  | .reset p =>
      some { page := Function.update s.page p (resetPageAccessFields (s.page p))
             stay := Function.update s.stay p 0 }

def policyInit (dramsize nvmsize : ℕ) : PolicyState where
  page := (pebsInit dramsize nvmsize 0 0).page
  stay := fun _ => 0

/-- A state that the intervals and the other threads' writes can lead to. -/
def PolicyReachable (dramsize nvmsize : ℕ) : PolicyState → Prop :=
  Transition.Reachable (· = policyInit dramsize nvmsize) (policyStep (dramsize / pageSize))

/-! ## The benefits -/

/-- The benefit that the migrations loop compares with the cost before it
promotes into a free page. -/
def freeBenefit (costs : CostEnv ℚ) (p : Page) : ℚ :=
  p.score * p.hotAge * hfSamplePeriod * costs.latencyDiff

theorem promotesFreely_iff (costs : CostEnv ℚ) (p : Page) :
    promotesFreely costs p = true ↔
      p.canPromote = true ∧ migrationCost costs ≤ freeBenefit costs p := by
  have htest : promotesFreely costs p =
      (p.canPromote && !decide (freeBenefit costs p < migrationCost costs)) := rfl
  rw [htest, Bool.and_eq_true, Bool.not_eq_true', decide_eq_false_iff_not, not_lt]

/-- The page with the age of another. -/
def withAge (p : Page) (hotAge : ℕ) : Page := { p with hotAge := hotAge }

theorem freeBenefit_mono {costs : CostEnv ℚ} {p : Page} (hlatency : 0 ≤ costs.latencyDiff)
    (hscore : 0 ≤ p.score) {hotAge : ℕ} (hage : hotAge ≤ p.hotAge) :
    freeBenefit costs (withAge p hotAge) ≤ freeBenefit costs p := by
  have hcast : (hotAge : ℚ) ≤ p.hotAge := Nat.cast_le.mpr hage
  have hperiod : (0 : ℚ) ≤ hfSamplePeriod := Nat.cast_nonneg _
  unfold freeBenefit withAge
  gcongr

theorem swapBenefit_mono {costs : CostEnv ℚ} {hp cp : Page} (hlatency : 0 ≤ costs.latencyDiff)
    (hscore : cp.score ≤ hp.score) {hotAge : ℕ} (hage : hotAge ≤ hp.hotAge) :
    swapBenefit costs (withAge hp hotAge) cp ≤ swapBenefit costs hp cp := by
  have hcast : (hotAge : ℚ) ≤ hp.hotAge := Nat.cast_le.mpr hage
  have hperiod : (0 : ℚ) ≤ hfSamplePeriod := Nat.cast_nonneg _
  have hdiff : 0 ≤ hp.score - cp.score := sub_nonneg.mpr hscore
  unfold swapBenefit withAge
  gcongr

/-- The age of `p` is the length of its stay, and no shorter stay, of any page
in any run, would give it a larger benefit in one of the two tests.  The cold
page of a swap ranks behind the hot one. -/
def LongerStayCounts (dramsize nvmsize : ℕ) (s : PolicyState) (p : PageId) : Prop :=
  (s.page p).hotAge = s.stay p ∧
    ∀ other, PolicyReachable dramsize nvmsize other → ∀ q, other.stay q ≤ s.stay p →
      ∀ costs : CostEnv ℚ, 0 ≤ costs.latencyDiff →
        freeBenefit costs (withAge (s.page p) (other.page q).hotAge) ≤
            freeBenefit costs (s.page p) ∧
          ∀ cp : Page, cp.score ≤ (s.page p).score →
            swapBenefit costs (withAge (s.page p) (other.page q).hotAge) cp ≤
              swapBenefit costs (s.page p) cp

/-! ## Scoring -/

/-- Averages and score of the page are not negative. -/
structure NonnegScores (page : Page) : Prop where
  w : ∀ i, 0 ≤ page.w i
  score : 0 ≤ page.score

theorem wEwmaAlpha_le (i : Fin windowSize) : wEwmaAlpha i ≤ 1 := by
  revert i
  decide +kernel

theorem wEwmaAlpha_pos (i : Fin windowSize) : 0 < wEwmaAlpha i := by
  revert i
  decide +kernel

theorem weights_nonneg (bias : Bias) (i : Fin windowSize) : 0 ≤ bias.weights i := by
  revert i
  cases bias <;> decide +kernel

theorem updateWindow_w (env : ScoreEnv ℚ windowSize) (prevAccessVersion : Fin 2) (page : Page)
    (i : Fin windowSize) :
    (updateWindow env prevAccessVersion page).w i =
      (1 - env.wEwmaAlpha i) * page.w i +
        env.wEwmaAlpha i *
          ((windowScale env.samplingMode * windowAccesses page prevAccessVersion : ℕ) : ℚ) :=
  rfl

theorem computeScore_nonneg {page : Page} (hw : ∀ i, 0 ≤ page.w i) (bias : Bias) :
    0 ≤ computeScore page bias.weights := by
  have hstart : ∀ (indices : List (Fin windowSize)) (score : ℚ), 0 ≤ score →
      0 ≤ indices.foldl (fun score i => score + page.w i * bias.weights i) score := by
    intro indices
    induction indices with
    | nil => exact fun score hscore => hscore
    | cons i indices ih =>
        intro score hscore
        exact ih _ (add_nonneg hscore (mul_nonneg (hw i) (weights_nonneg bias i)))
  exact hstart (List.finRange windowSize) 0 le_rfl

theorem NonnegScores.scorePage {page : Page} (hpage : NonnegScores page) (i : ScoringInterval) :
    NonnegScores (scorePage i.env i.prevAccessVersion page) := by
  have hw : ∀ j, 0 ≤ (updateWindow i.env i.prevAccessVersion page).w j := by
    intro j
    rw [updateWindow_w]
    have hold : 0 ≤ (1 - wEwmaAlpha j) * page.w j :=
      mul_nonneg (sub_nonneg.mpr (wEwmaAlpha_le j)) (hpage.w j)
    have hnew : 0 ≤ wEwmaAlpha j *
        ((windowScale i.env.samplingMode * windowAccesses page i.prevAccessVersion : ℕ) : ℚ) :=
      mul_nonneg (wEwmaAlpha_pos j).le (Nat.cast_nonneg _)
    exact add_nonneg hold hnew
  exact ⟨hw, computeScore_nonneg hw i.bias⟩

theorem scoreBucket_page (env : ScoreEnv ℚ windowSize) (prevAccessVersion : Fin 2)
    (s : ScoreLoop) (bucket : Bucket) (p : PageId) :
    (scoreBucket env prevAccessVersion s bucket).page p = s.page p ∨
      (scoreBucket env prevAccessVersion s bucket).page p =
        scorePage env prevAccessVersion (s.page p) := by
  match bucket with
  | none => exact Or.inl rfl
  | some (_, q) =>
      simp only [scoreBucket]
      split
      · by_cases hpq : p = q
        · subst hpq
          exact Or.inr (Function.update_self _ _ _)
        · exact Or.inl (Function.update_of_ne hpq _ _)
      · exact Or.inl rfl

/-- What scoring a page keeps, the loop keeps. -/
theorem ScoringInterval.scored_preserves (i : ScoringInterval) (P : Page → Prop)
    (hscore : ∀ page, P page → P (scorePage i.env i.prevAccessVersion page))
    {page : PageId → Page} {p : PageId} (hpage : P (page p)) : P ((i.scored page).page p) := by
  have hfold : ∀ (buckets : List Bucket) (s : ScoreLoop), P (s.page p) →
      P ((buckets.foldl (scoreBucket i.env i.prevAccessVersion) s).page p) := by
    intro buckets
    induction buckets with
    | nil => exact fun s hs => hs
    | cons bucket buckets ih =>
        intro s hs
        refine ih _ ?_
        obtain hkept | hscored := scoreBucket_page i.env i.prevAccessVersion s bucket p
        · rw [hkept]
          exact hs
        · rw [hscored]
          exact hscore _ hs
  unfold scored calculateScoresMap
  split
  · exact hpage
  · exact hfold i.buckets _ hpage

/-- The entries are those of present pages, in the order of the buckets. -/
theorem foldl_scoreBucket_pages (env : ScoreEnv ℚ windowSize) (prevAccessVersion : Fin 2)
    (buckets : List Bucket) (s : ScoreLoop) :
    ∃ pages, pages.Sublist ((buckets.filterMap id).map Prod.snd) ∧
      (buckets.foldl (scoreBucket env prevAccessVersion) s).scoresOut.map ScoreEntry.page =
        s.scoresOut.map ScoreEntry.page ++ pages := by
  induction buckets generalizing s with
  | nil => exact ⟨[], List.Sublist.refl _, by simp⟩
  | cons bucket buckets ih =>
      obtain ⟨pages, hsub, hout⟩ := ih (scoreBucket env prevAccessVersion s bucket)
      rw [List.foldl_cons]
      match bucket with
      | none => exact ⟨pages, hsub, hout⟩
      | some (key, p) =>
          simp only [scoreBucket] at hout ⊢
          split at hout
          · rename_i hpresent
            rw [if_pos hpresent]
            refine ⟨p :: pages, hsub.cons_cons p, hout.trans ?_⟩
            simp
          · rename_i habsent
            rw [if_neg habsent]
            exact ⟨pages, hsub.cons p, hout⟩

theorem ScoringInterval.Runs.nodup {i : ScoringInterval} {page : PageId → Page}
    (hruns : i.Runs page) : (i.sorted.map ScoreEntry.page).Nodup := by
  obtain ⟨hnodup, hperm, -⟩ := hruns
  rw [(hperm.map ScoreEntry.page).nodup_iff]
  unfold scored calculateScoresMap
  split
  · exact List.nodup_nil
  · obtain ⟨pages, hsub, hout⟩ :=
      foldl_scoreBucket_pages i.env i.prevAccessVersion i.buckets (scoreLoopStart page)
    rw [hout]
    exact hsub.nodup hnodup

/-! ## The invariant -/

structure AgeInv (s : PolicyState) : Prop where
  age : ∀ p, (s.page p).hotAge = s.stay p % 2 ^ 16
  nonneg : ∀ p, NonnegScores (s.page p)

theorem ageInv_policyInit (dramsize nvmsize : ℕ) : AgeInv (policyInit dramsize nvmsize) where
  age := fun _ => rfl
  nonneg := fun _ => ⟨fun _ => le_refl _, le_refl _⟩

/-- The marking loops give a page the age that belongs to its stay. -/
theorem markScores_age (dramPages : ℕ) {sorted : List (ScoreEntry ℚ)} {page : PageId → Page}
    (hnodup : (sorted.map ScoreEntry.page).Nodup) {stay : PageId → ℕ} {p : PageId}
    (hage : (page p).hotAge = stay p % 2 ^ 16) :
    (markScores dramPages sorted page p).hotAge = nextStay dramPages sorted page stay p % 2 ^ 16 ∧
      (markScores dramPages sorted page p).w = (page p).w ∧
      (markScores dramPages sorted page p).score = (page p).score := by
  unfold nextStay
  cases hrank : sorted.findIdx? fun entry => entry.page == p with
  | none =>
      have hne : ∀ entry ∈ sorted.zipIdx, entry.1.page ≠ p := by
        rw [List.findIdx?_eq_none_iff] at hrank
        intro entry hmem heq
        have hfound := hrank entry.1 (List.fst_mem_of_mem_zipIdx hmem)
        rw [heq, beq_self_eq_true] at hfound
        cases hfound
      rw [markScores, foldl_markEntry_of_ne dramPages sorted.zipIdx page p hne]
      exact ⟨hage, rfl, rfl⟩
  | some rank =>
      obtain ⟨hlt, hfound, -⟩ := List.findIdx?_eq_some_iff_getElem.mp hrank
      have hentry : sorted[rank]? = some sorted[rank] := List.getElem?_eq_getElem hlt
      obtain rfl : sorted[rank].page = p := beq_iff_eq.mp hfound
      rw [markScores_entry dramPages page hnodup hentry]
      obtain ⟨-, hw, hscore, -⟩ := markRank_keeps dramPages (page sorted[rank].page) rank
      refine ⟨?_, hw, hscore⟩
      rw [markRank_hotAge]
      dsimp only
      split
      · have hzero : CFloat.eq (page sorted[rank].page).score (CFloat.ofRat 0) = true ↔
            (page sorted[rank].page).score = 0 := decide_eq_true_iff
        split
        · rename_i heq
          rw [if_pos (hzero.mp heq), hage]
        · rename_i hne
          rw [if_neg fun heq => hne (hzero.mpr heq), hage, Nat.mod_add_mod]
      · rfl

theorem AgeInv.step {dramPages : ℕ} {s next : PolicyState} {event : PolicyEvent}
    (hinv : AgeInv s) (hstep : policyStep dramPages s event = some next) : AgeInv next := by
  cases event with
  | interval i =>
      simp only [policyStep] at hstep
      split at hstep
      · rename_i hruns
        obtain rfl := Option.some.inj hstep
        have hage : ∀ p, ((i.scored s.page).page p).hotAge = s.stay p % 2 ^ 16 := fun p =>
          i.scored_preserves (fun page => page.hotAge = s.stay p % 2 ^ 16) (fun page hpage => hpage)
            (hinv.age p)
        refine ⟨fun p => (markScores_age dramPages hruns.nodup (hage p)).1, fun p => ?_⟩
        obtain ⟨-, hw, hscore⟩ := markScores_age dramPages hruns.nodup (hage p)
        have hnonneg := i.scored_preserves NonnegScores (fun page hpage => hpage.scorePage i)
          (hinv.nonneg p)
        exact ⟨hw ▸ hnonneg.w, hscore ▸ hnonneg.score⟩
      · cases hstep
  | write q =>
      obtain rfl := Option.some.inj hstep
      constructor <;> intro p <;> by_cases hpq : p = q
      · subst hpq
        simpa using hinv.age p
      · simpa [hpq] using hinv.age p
      · subst hpq
        simpa using ⟨(hinv.nonneg p).w, (hinv.nonneg p).score⟩
      · simpa [hpq] using hinv.nonneg p
  | reset q =>
      obtain rfl := Option.some.inj hstep
      constructor <;> intro p <;> by_cases hpq : p = q
      · subst hpq
        simp [resetPageAccessFields]
      · simpa [hpq] using hinv.age p
      · subst hpq
        refine ⟨fun i => ?_, ?_⟩
        · simp [resetPageAccessFields, CFloat.ofRat]
        · simpa [resetPageAccessFields] using (hinv.nonneg p).score
      · simpa [hpq] using hinv.nonneg p

theorem ageInv_of_reachable {dramsize nvmsize : ℕ} {s : PolicyState}
    (hreach : PolicyReachable dramsize nvmsize s) : AgeInv s := by
  refine hreach.invariant AgeInv ?_ fun s event next hinv hstep => hinv.step hstep
  rintro start rfl
  exact ageInv_policyInit dramsize nvmsize

/-! ## Stays of any length -/

/-- A page's single sample of an interval. -/
def oneSample (type : PbufType) (_version : Fin 2) : ℕ := if type = .dramread then 1 else 0

/-- The struct `0` as the only present page, with one sample to score. -/
def sampleEvent (s : PolicyState) : PolicyEvent :=
  .write 0 hugepageSize (s.page 0).devdaxOffset (s.page 0).inDram false true oneSample

/-- The interval that scores it. -/
def soleInterval (s : PolicyState) : ScoringInterval where
  bias := .hist
  samplingMode := .defaultSampling
  prevAccessVersion := 0
  buckets := [some (hugepageSize, 0)]
  sorted := [⟨0, (scorePage ⟨wEwmaAlpha, Bias.hist.weights, .defaultSampling⟩ 0 (s.page 0)).score⟩]

theorem scored_sole {s : PolicyState} (hpresent : (s.page 0).present = true) :
    (soleInterval s).scored s.page =
      { page := Function.update s.page 0
          (scorePage (soleInterval s).env 0 (s.page 0))
        sIdx := 1
        scoresOut := (soleInterval s).sorted
        written := [0] } := by
  have hsome : ([some (hugepageSize, 0)] : List Bucket).countP Option.isSome ≠ 0 := by decide
  simp only [soleInterval, ScoringInterval.scored, calculateScoresMap, if_neg hsome,
    List.foldl_cons, List.foldl_nil, scoreBucket, scoreLoopStart, hpresent, if_true,
    List.nil_append, Nat.zero_add]
  rfl

/-- A page with a sample has a score. -/
theorem score_pos {page : Page} (hpage : NonnegScores page)
    (hsamples : page.accesses .dramread 0 = 1) (i : ScoringInterval) :
    0 < (scorePage i.env 0 page).score := by
  have hw : ∀ j, 0 < (updateWindow i.env 0 page).w j := by
    intro j
    rw [updateWindow_w]
    have hold : 0 ≤ (1 - wEwmaAlpha j) * page.w j :=
      mul_nonneg (sub_nonneg.mpr (wEwmaAlpha_le j)) (hpage.w j)
    have halpha := wEwmaAlpha_pos j
    have hscale : 0 < windowScale i.env.samplingMode := by
      cases i.env.samplingMode <;> decide
    have haccesses : 0 < windowAccesses page 0 := by
      unfold windowAccesses
      omega
    have hnew : 0 < wEwmaAlpha j *
        ((windowScale i.env.samplingMode * windowAccesses page 0 : ℕ) : ℚ) :=
      mul_pos halpha (Nat.cast_pos.mpr (Nat.mul_pos hscale haccesses))
    exact add_pos_of_nonneg_of_pos hold hnew
  have hscore : (scorePage i.env 0 page).score =
      0 + (updateWindow i.env 0 page).w (0 : Fin 2) * i.bias.weights (0 : Fin 2) +
        (updateWindow i.env 0 page).w (1 : Fin 2) * i.bias.weights (1 : Fin 2) := rfl
  have hweights : 0 < i.bias.weights (0 : Fin 2) := by
    cases i.bias <;> decide +kernel
  rw [hscore, zero_add]
  exact add_pos_of_pos_of_nonneg (mul_pos (hw (0 : Fin 2)) hweights)
    (mul_nonneg (hw (1 : Fin 2)).le (weights_nonneg i.bias (1 : Fin 2)))

theorem reachable_stay {dramsize : ℕ} (nvmsize : ℕ) (hdram : pageSize ≤ dramsize) (length : ℕ) :
    ∃ s, PolicyReachable dramsize nvmsize s ∧ s.stay 0 = length := by
  induction length with
  | zero => exact ⟨_, Transition.Reachable.start rfl, rfl⟩
  | succ length ih =>
      obtain ⟨s, hreach, hstay⟩ := ih
      obtain ⟨t, hsample⟩ : ∃ t, policyStep (dramsize / pageSize) s (sampleEvent s) = some t :=
        ⟨_, rfl⟩
      have hreachT : PolicyReachable dramsize nvmsize t := hreach.tail hsample
      have htstay : t.stay 0 = length := by
        rw [← Option.some.inj hsample]
        exact hstay
      have hpresent : (t.page 0).present = true := by
        rw [← Option.some.inj hsample]
        rfl
      have hsamples : (t.page 0).accesses .dramread 0 = 1 := by
        rw [← Option.some.inj hsample]
        rfl
      have hscored := scored_sole hpresent
      have hscore := score_pos ((ageInv_of_reachable hreachT).nonneg 0) hsamples (soleInterval t)
      have hruns : (soleInterval t).Runs t.page := by
        refine ⟨by simp [soleInterval], ?_, by simp [soleInterval]⟩
        rw [hscored]
      have hnext : policyStep (dramsize / pageSize) t (.interval (soleInterval t)) = some _ :=
        if_pos hruns
      refine ⟨_, hreachT.tail hnext, ?_⟩
      have hrank : 0 < dramsize / pageSize := Nat.div_pos hdram (by decide)
      rw [hscored]
      have hfound : (soleInterval t).sorted.findIdx? (fun entry => entry.page == 0) = some 0 := by
        simp [soleInterval, List.findIdx?_cons]
      simp only [nextStay, hfound, Function.update_self, if_pos hrank, if_neg hscore.ne', htstay]

/-! ## The claim to DRAM -/

theorem longerStayCounts_of_lt {dramsize nvmsize : ℕ} {s : PolicyState} {p : PageId}
    (hreach : PolicyReachable dramsize nvmsize s) (hstay : s.stay p < 2 ^ 16) :
    LongerStayCounts dramsize nvmsize s p := by
  have hinv := ageInv_of_reachable hreach
  have hage : (s.page p).hotAge = s.stay p := by rw [hinv.age, Nat.mod_eq_of_lt hstay]
  refine ⟨hage, fun other hother q hshorter costs hlatency => ?_⟩
  have hshorterAge : (other.page q).hotAge ≤ (s.page p).hotAge := by
    rw [(ageInv_of_reachable hother).age, hage]
    exact (Nat.mod_le _ _).trans hshorter
  exact ⟨freeBenefit_mono hlatency (hinv.nonneg p).score hshorterAge, fun cp hcp =>
    swapBenefit_mono hlatency hcp hshorterAge⟩

theorem lt_of_hotAge_eq {dramsize nvmsize : ℕ} {s : PolicyState} {p : PageId}
    (hreach : PolicyReachable dramsize nvmsize s) (hage : (s.page p).hotAge = s.stay p) :
    s.stay p < 2 ^ 16 := by
  rw [← hage, (ageInv_of_reachable hreach).age]
  exact Nat.mod_lt _ (by decide)

/-- A stay counts exactly as long as the age field can hold its length. -/
theorem longerStayCounts_iff {dramsize nvmsize : ℕ} {s : PolicyState} (p : PageId)
    (hreach : PolicyReachable dramsize nvmsize s) :
    LongerStayCounts dramsize nvmsize s p ↔ s.stay p < 2 ^ 16 :=
  ⟨fun hcounts => lt_of_hotAge_eq hreach hcounts.1, longerStayCounts_of_lt hreach⟩

/-- A stay of three intervals counts. -/
theorem longerStayCounts_iff_three :
    ∃ s, PolicyReachable pageSize pageSize s ∧ s.stay 0 = 3 ∧
      LongerStayCounts pageSize pageSize s 0 := by
  obtain ⟨s, hreach, hstay⟩ := reachable_stay pageSize le_rfl 3
  refine ⟨s, hreach, hstay, (longerStayCounts_iff 0 hreach).mpr ?_⟩
  rw [hstay]
  decide

/-- After 65536 intervals at the top the page's age is zero again. -/
theorem not_longerStayCounts :
    ∃ s, PolicyReachable pageSize pageSize s ∧ s.stay 0 = 65536 ∧ (s.page 0).hotAge = 0 ∧
      ¬ LongerStayCounts pageSize pageSize s 0 := by
  obtain ⟨s, hreach, hstay⟩ := reachable_stay pageSize le_rfl 65536
  have hage : (s.page 0).hotAge = 0 := by
    rw [(ageInv_of_reachable hreach).age, hstay]
    rfl
  refine ⟨s, hreach, hstay, hage, fun hcounts => ?_⟩
  have hlength := hcounts.1
  rw [hage, hstay] at hlength
  exact absurd hlength (by decide)

end ArmsTiering
