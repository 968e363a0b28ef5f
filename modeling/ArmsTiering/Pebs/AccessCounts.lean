import ArmsTiering.Core.Transition
import ArmsTiering.Pebs.PageLife

/-!
# The two access buffers

The scan thread counts samples in the buffer of the current version while the
policy thread works on the other one.  The versions change places at the start
of an interval, without regard to a sample that the scan thread is handling,
and the policy thread reads a buffer and clears it in separate steps.
-/

namespace ArmsTiering

attribute [local instance] neZero_two

/-- Program counter of `pebs_policy_thread`, as far as the buffers go. -/
inductive ScorePc
  /-- before the version flip -/
  | idle
  /-- between the flip and the scores -/
  | flipped
  /-- in `calculate_scores_map`, with these pages still to come -/
  | scoring (todo : List PageId)
  /-- between `update_window` and the reset of the access counts -/
  | clearing (p : PageId) (todo : List PageId)
  deriving DecidableEq

/-- The policy thread has read the page's buffer and not yet cleared it. -/
def ScorePc.clears (p : PageId) : ScorePc → Bool
  | .clearing q _ => q == p
  | _ => false

/-- The policy thread is in the middle of a page. -/
def ScorePc.halfDone : ScorePc → Bool
  | .clearing _ _ => true
  | _ => false

structure AccessState where
  currAccessVersion : Fin 2
  prevAccessVersion : Fin 2
  accesses : PageId → PbufType → Fin 2 → ℕ
  tracked : PageId → Bool
  /-- the sample that the scan thread is handling: it has read the version -/
  sample : Option (PageId × PbufType × Fin 2)
  policy : ScorePc
  /-- history: counts that `update_window` has read since the page became tracked -/
  consumed : PageId → PbufType → ℕ
  /-- history: samples handled since then -/
  handled : PageId → PbufType → ℕ

inductive AccessAction
  -- `pebs_scan_thread`
  /-- `pebs_find_page` has found the page; read `curr_access_version` -/
  | readVersion (p : PageId) (type : PbufType)
  | increment
  -- `pebs_policy_thread`
  | flip
  | beginScores (todo : List PageId)
  | updateWindow
  | resetCounts
  | endInterval
  -- `pebs_remove_page`, `reset_page_access_fields` and `pebs_add_page`
  | untrack (p : PageId)
  | reset (p : PageId)
  | track (p : PageId)

/-- All counters of the page cleared. -/
def clearHistory (count : PageId → PbufType → ℕ) (p : PageId) : PageId → PbufType → ℕ :=
  Function.update count p fun _ => 0

def accessStep (s : AccessState) : AccessAction → Option AccessState
  | .readVersion p type =>
      if s.sample = none ∧ s.tracked p = true then
        some { s with sample := some (p, type, s.currAccessVersion) }
      else none
  | .increment =>
      s.sample.map fun (p, type, version) =>
        { s with
          accesses := Function.update s.accesses p (countSample (s.accesses p) (type, version))
          sample := none
          handled := Function.update s.handled p
            (Function.update (s.handled p) type (s.handled p type + 1)) }
  | .flip =>
      if s.policy = .idle then
        some { s with
          prevAccessVersion := s.currAccessVersion
          currAccessVersion := 1 - s.currAccessVersion
          policy := .flipped }
      else none
  | .beginScores todo =>
      if s.policy = .flipped then some { s with policy := .scoring todo } else none
  | .updateWindow =>
      match s.policy with
      | .scoring (p :: todo) =>
          some { s with
            consumed := Function.update s.consumed p fun type =>
              s.consumed p type + s.accesses p type s.prevAccessVersion
            policy := .clearing p todo }
      | _ => none
  | .resetCounts =>
      match s.policy with
      | .clearing p todo =>
          some { s with
            accesses := Function.update s.accesses p fun type version =>
              if version = s.prevAccessVersion then 0 else s.accesses p type version
            policy := .scoring todo }
      | _ => none
  | .endInterval => if s.policy = .scoring [] then some { s with policy := .idle } else none
  | .untrack p =>
      if s.tracked p = true then some { s with tracked := Function.update s.tracked p false }
      else none
  | .reset p =>
      if s.tracked p = false then
        some { s with accesses := Function.update s.accesses p fun _ _ => 0 }
      else none
  -- a struct on a free list is not in `pages_map`
  | .track p =>
      if s.tracked p = false ∧ s.policy.clears p = false then
        some { s with
          tracked := Function.update s.tracked p true
          consumed := clearHistory s.consumed p
          handled := clearHistory s.handled p }
      else none

def accessInit : AccessState where
  currAccessVersion := 0
  prevAccessVersion := 0
  accesses := fun _ _ _ => 0
  tracked := fun _ => false
  sample := none
  policy := .idle
  consumed := fun _ _ => 0
  handled := fun _ _ => 0

/-! ## Conservation -/

/-- With no step half done, the counts consumed and those in the two buffers of
a tracked page are the samples handled for it. -/
def SamplesKept (s : AccessState) : Prop :=
  s.sample = none → s.policy.halfDone = false → ∀ p, s.tracked p = true → ∀ type,
    s.consumed p type + (s.accesses p type 0 + s.accesses p type 1) = s.handled p type

/-- A sample is counted below the counter's last value, and not in a buffer
that is about to be cleared; a page becomes tracked with empty buffers. -/
def KeepsSamples (s : AccessState) : AccessAction → Prop
  | .increment =>
      ∀ p type version, s.sample = some (p, type, version) →
        s.accesses p type version + 1 < 2 ^ 16 ∧
          ¬ (s.policy.clears p = true ∧ version = s.prevAccessVersion)
  | .track p => ∀ type version, s.accesses p type version = 0
  | _ => True

namespace AccessState

/-- Counts of the page that no window has read yet. -/
def unread (s : AccessState) (p : PageId) (type : PbufType) : ℕ :=
  if s.policy.clears p then s.accesses p type (1 - s.prevAccessVersion)
  else s.accesses p type 0 + s.accesses p type 1

/-- All samples of a tracked page are consumed or still to be read. -/
def CountInv (s : AccessState) : Prop :=
  ∀ p, s.tracked p = true → ∀ type, s.consumed p type + s.unread p type = s.handled p type

theorem countInv_accessInit : accessInit.CountInv := by
  intro p htracked
  cases htracked

theorem CountInv.samplesKept {s : AccessState} (hinv : s.CountInv) : SamplesKept s := by
  intro _ hwhole p htracked type
  have hclears : s.policy.clears p = false := by
    cases hpolicy : s.policy with
    | clearing q todo =>
        rw [hpolicy] at hwhole
        cases hwhole
    | _ => rfl
  have hcount := hinv p htracked type
  rwa [unread, hclears, if_neg Bool.false_ne_true] at hcount

theorem both_buffers (count : Fin 2 → ℕ) (version : Fin 2) :
    count version + count (1 - version) = count 0 + count 1 := by
  match version with
  | 0 => rfl
  | 1 => exact Nat.add_comm _ _

theorem cleared_buffer (count : Fin 2 → ℕ) (version : Fin 2) :
    ((if 0 = version then 0 else count 0) + if 1 = version then 0 else count 1) =
      count (1 - version) := by
  match version with
  | 0 => exact Nat.zero_add _
  | 1 => rfl

theorem other_buffer {prev version : Fin 2} (hne : version ≠ prev) : 1 - prev = version := by
  revert prev version
  decide

theorem one_buffer (version : Fin 2) :
    ((if 0 = version then 1 else 0) + if 1 = version then 1 else 0) = 1 := by
  revert version
  decide

/-- A step that changes neither the buffers nor the histories, nor what the
policy thread is about to clear. -/
theorem CountInv.of_same {s t : AccessState} (hinv : s.CountInv)
    (htracked : ∀ p, t.tracked p = true → s.tracked p = true)
    (haccesses : t.accesses = s.accesses) (hconsumed : t.consumed = s.consumed)
    (hhandled : t.handled = s.handled) (hsclears : ∀ p, s.policy.clears p = false)
    (htclears : ∀ p, t.policy.clears p = false) : t.CountInv := by
  intro p hp type
  have hcount := hinv p (htracked p hp) type
  rw [unread, hsclears, if_neg Bool.false_ne_true] at hcount
  rw [unread, htclears, if_neg Bool.false_ne_true, haccesses, hconsumed, hhandled]
  exact hcount

/-- The sample is added to a count that is still to be read. -/
theorem CountInv.increment {s : AccessState} {p : PageId} {type : PbufType} {version : Fin 2}
    (hinv : s.CountInv) (hroom : s.accesses p type version + 1 < 2 ^ 16)
    (hopen : ¬ (s.policy.clears p = true ∧ version = s.prevAccessVersion)) :
    CountInv { s with
      accesses := Function.update s.accesses p (countSample (s.accesses p) (type, version))
      sample := none
      handled := Function.update s.handled p
        (Function.update (s.handled p) type (s.handled p type + 1)) } := by
  intro q htracked other
  have hcount := hinv q htracked other
  by_cases hq : q = p
  · subst hq
    by_cases hother : other = type
    · subst hother
      have hsample : ∀ v, countSample (s.accesses q) (other, version) other v =
          s.accesses q other v + if v = version then 1 else 0 := by
        intro v
        by_cases hv : v = version
        · rw [hv, countSample, if_pos ⟨rfl, rfl⟩, if_pos rfl, Nat.mod_eq_of_lt hroom]
        · simp [countSample, hv]
      cases hclears : s.policy.clears q with
      | true =>
          have hversion := other_buffer fun heq => hopen ⟨hclears, heq⟩
          simp only [unread, hclears, if_true, Function.update_self, hsample, if_pos hversion]
            at hcount ⊢
          omega
      | false =>
          have hone := one_buffer version
          simp only [unread, hclears, Bool.false_eq_true, if_false, Function.update_self, hsample]
            at hcount ⊢
          omega
    · have hsample : ∀ v, countSample (s.accesses q) (type, version) other v =
          s.accesses q other v := by
        intro v
        simp [countSample, hother]
      simp only [unread, Function.update_self, hsample, Function.update_of_ne hother] at hcount ⊢
      exact hcount
  · simp only [unread, Function.update_of_ne hq] at hcount ⊢
    exact hcount

/-- The counts that a window reads are those of the buffer that is cleared next. -/
theorem CountInv.updateWindow {s : AccessState} {p : PageId} {todo : List PageId}
    (hinv : s.CountInv) (hpolicy : s.policy = .scoring (p :: todo)) :
    CountInv { s with
      consumed := Function.update s.consumed p fun type =>
        s.consumed p type + s.accesses p type s.prevAccessVersion
      policy := .clearing p todo } := by
  intro q htracked type
  have hcount := hinv q htracked type
  have hclears : s.policy.clears q = false := by rw [hpolicy]; rfl
  rw [unread, hclears, if_neg Bool.false_ne_true] at hcount
  by_cases hq : q = p
  · subst hq
    have hboth := both_buffers (s.accesses q type) s.prevAccessVersion
    simp only [unread, ScorePc.clears, beq_self_eq_true, if_true, Function.update_self]
    omega
  · have hne : (p == q) = false := beq_eq_false_iff_ne.mpr (Ne.symm hq)
    simp only [unread, ScorePc.clears, hne, Bool.false_eq_true, if_false,
      Function.update_of_ne hq]
    exact hcount

/-- The buffer is cleared that the window has read. -/
theorem CountInv.resetCounts {s : AccessState} {p : PageId} {todo : List PageId}
    (hinv : s.CountInv) (hpolicy : s.policy = .clearing p todo) :
    CountInv { s with
      accesses := Function.update s.accesses p fun type version =>
        if version = s.prevAccessVersion then 0 else s.accesses p type version
      policy := .scoring todo } := by
  intro q htracked type
  have hcount := hinv q htracked type
  rw [unread, hpolicy] at hcount
  by_cases hq : q = p
  · subst hq
    simp only [ScorePc.clears, beq_self_eq_true, if_true] at hcount
    simp only [unread, ScorePc.clears, Bool.false_eq_true, if_false, Function.update_self]
    rw [cleared_buffer]
    exact hcount
  · have hne : (p == q) = false := beq_eq_false_iff_ne.mpr (Ne.symm hq)
    simp only [ScorePc.clears, hne, Bool.false_eq_true, if_false] at hcount
    simp only [unread, ScorePc.clears, Bool.false_eq_true, if_false,
      Function.update_of_ne hq]
    exact hcount

/-- A page that is no longer tracked is left out. -/
theorem CountInv.untrack {s : AccessState} (hinv : s.CountInv) (p : PageId) :
    CountInv { s with tracked := Function.update s.tracked p false } := by
  intro q htracked type
  refine hinv q ?_ type
  by_cases hq : q = p
  · subst hq
    simp at htracked
  · simpa [hq] using htracked

/-- The counters of a page that is not tracked do not matter. -/
theorem CountInv.reset {s : AccessState} {p : PageId} (hinv : s.CountInv)
    (huntracked : s.tracked p = false) :
    CountInv { s with accesses := Function.update s.accesses p fun _ _ => 0 } := by
  intro q htracked type
  have hq : q ≠ p := by
    rintro rfl
    rw [huntracked] at htracked
    cases htracked
  have hcount := hinv q htracked type
  simp only [unread, Function.update_of_ne hq] at hcount ⊢
  exact hcount

/-- A page with empty buffers starts a new history. -/
theorem CountInv.track {s : AccessState} {p : PageId} (hinv : s.CountInv)
    (hclears : s.policy.clears p = false) (hempty : ∀ type version, s.accesses p type version = 0) :
    CountInv { s with
      tracked := Function.update s.tracked p true
      consumed := clearHistory s.consumed p
      handled := clearHistory s.handled p } := by
  intro q htracked type
  by_cases hq : q = p
  · subst hq
    simp [unread, hclears, clearHistory, hempty type]
  · have hcount := hinv q (by simpa [hq] using htracked) type
    simp only [unread, clearHistory, Function.update_of_ne hq] at hcount ⊢
    exact hcount

theorem CountInv.step {s next : AccessState} {action : AccessAction} (hinv : s.CountInv)
    (hkeeps : KeepsSamples s action) (hstep : accessStep s action = some next) :
    next.CountInv := by
  cases action with
  | readVersion p type =>
      simp only [accessStep] at hstep
      split at hstep
      · obtain rfl := Option.some.inj hstep
        exact hinv
      · cases hstep
  | increment =>
      obtain ⟨⟨p, type, version⟩, hsample, rfl⟩ := Option.map_eq_some_iff.mp hstep
      obtain ⟨hroom, hopen⟩ := hkeeps p type version hsample
      exact hinv.increment hroom hopen
  | flip =>
      simp only [accessStep] at hstep
      split at hstep
      · rename_i hpolicy
        obtain rfl := Option.some.inj hstep
        exact hinv.of_same (fun _ h => h) rfl rfl rfl (fun p => by rw [hpolicy]; rfl) fun p => rfl
      · cases hstep
  | beginScores todo =>
      simp only [accessStep] at hstep
      split at hstep
      · rename_i hpolicy
        obtain rfl := Option.some.inj hstep
        exact hinv.of_same (fun _ h => h) rfl rfl rfl (fun p => by rw [hpolicy]; rfl) fun p => rfl
      · cases hstep
  | endInterval =>
      simp only [accessStep] at hstep
      split at hstep
      · rename_i hpolicy
        obtain rfl := Option.some.inj hstep
        exact hinv.of_same (fun _ h => h) rfl rfl rfl (fun p => by rw [hpolicy]; rfl) fun p => rfl
      · cases hstep
  | updateWindow =>
      simp only [accessStep] at hstep
      split at hstep
      · rename_i p todo hpolicy
        obtain rfl := Option.some.inj hstep
        exact hinv.updateWindow hpolicy
      · cases hstep
  | resetCounts =>
      simp only [accessStep] at hstep
      split at hstep
      · rename_i p todo hpolicy
        obtain rfl := Option.some.inj hstep
        exact hinv.resetCounts hpolicy
      · cases hstep
  | untrack p =>
      simp only [accessStep] at hstep
      split at hstep
      · obtain rfl := Option.some.inj hstep
        exact hinv.untrack p
      · cases hstep
  | reset p =>
      simp only [accessStep] at hstep
      split at hstep
      · rename_i huntracked
        obtain rfl := Option.some.inj hstep
        exact hinv.reset huntracked
      · cases hstep
  | track p =>
      simp only [accessStep] at hstep
      split at hstep
      · rename_i hguard
        obtain rfl := Option.some.inj hstep
        exact hinv.track hguard.2 hkeeps
      · cases hstep

end AccessState

open AccessState

/-- No sample is lost or counted twice in a run whose steps all keep samples. -/
theorem samplesKept_along {actions : List AccessAction}
    (hmeets : Transition.Meets accessStep KeepsSamples accessInit actions) :
    Transition.Along accessStep SamplesKept accessInit actions :=
  Transition.along_of_meets CountInv (fun _ hinv => hinv.samplesKept)
    (fun _ _ _ hinv hkeeps hstep => hinv.step hkeeps hstep) countInv_accessInit hmeets


/-- Two intervals of one page, with a sample in each buffer. -/
def twoIntervals : List AccessAction :=
  [.track 7, .readVersion 7 .write, .increment, .flip, .readVersion 7 .dramread,
    .beginScores [7], .updateWindow, .increment, .resetCounts, .endInterval, .flip,
    .beginScores [7], .updateWindow, .resetCounts, .endInterval]

theorem samplesKept_along_twoIntervals :
    Transition.Along accessStep SamplesKept accessInit twoIntervals := by
  refine samplesKept_along ?_
  have hincrement : ∀ {s : AccessState} {p : PageId} {type : PbufType} {version : Fin 2},
      s.sample = some (p, type, version) → s.accesses p type version + 1 < 2 ^ 16 →
        s.policy.clears p = false ∨ version ≠ s.prevAccessVersion →
          KeepsSamples s .increment := by
    rintro s p type version hsample hroom hopen q other v hother
    obtain ⟨rfl, rfl, rfl⟩ : p = q ∧ type = other ∧ version = v := by
      simpa using hsample.symm.trans hother
    refine ⟨hroom, fun ⟨hclears, hversion⟩ => ?_⟩
    obtain hnot | hne := hopen
    · rw [hclears] at hnot
      cases hnot
    · exact hne hversion
  -- the two samples, the second one while the other buffer is being cleared
  refine .cons rfl (fun _ _ => rfl) (.cons rfl trivial (.cons rfl
    (hincrement rfl (by decide) (Or.inl rfl)) ?_))
  refine .cons rfl trivial (.cons rfl trivial (.cons rfl trivial (.cons rfl trivial (.cons rfl
    (hincrement rfl (by decide) (Or.inr (by decide))) ?_))))
  refine .cons rfl trivial (.cons rfl trivial (.cons rfl trivial (.cons rfl trivial ?_)))
  exact .cons rfl trivial (.cons rfl trivial (.cons rfl trivial trivial))

/-- A sample that has read the version before the flip is counted after
`update_window` has read the buffer, and cleared with it. -/
def lateIncrement : List AccessAction :=
  [.track 7, .readVersion 7 .dramread, .flip, .beginScores [7], .updateWindow, .increment,
    .resetCounts, .endInterval]

theorem lateIncrement_loses_sample :
    ¬ Transition.Along accessStep SamplesKept accessInit lateIncrement := by
  intro halong
  have hkept := halong.of_run (show Transition.run accessStep accessInit lateIncrement = some _ from rfl)
  exact absurd (hkept rfl rfl 7 rfl .dramread) (by decide)

end ArmsTiering
