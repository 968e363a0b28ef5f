import ArmsTiering.Machine.Schedule
import ArmsTiering.Migration.Pending
import Mathlib.Data.List.Nodup
import Mathlib.Data.List.Pairwise

/-!
# What the migrations loop keeps true

The two indices have gone past the pages of every request queued, and what the
loop has found out about the pages at its indices is written down for each
program counter.  This file has the steps of the policy thread.
-/

namespace ArmsTiering

open scoped CFloat
open Transition

variable {F : Type} [CFloat F] {n : ℕ}

/-! ## Where the loop starts -/

/-- What `calculate_scores_map` and the sort leave in `scores`: one entry for
each tracked page, in descending order. -/
structure SortedScores (scores : List (ScoreEntry F)) (page : PageId → ArmsPage F n) :
    Prop where
  nodup : (scores.map ScoreEntry.page).Nodup
  sorted : scores.Pairwise fun left right => CFloat.lt left.score right.score = false
  va_pos : ∀ entry ∈ scores, 0 < (page entry.page).va

/-- The page is scored, so it is tracked and not on a free list. -/
def Scored (scores : List (ScoreEntry F)) (p : PageId) : Prop :=
  ∃ entry ∈ scores, entry.page = p

/-! ## The entries of `scores` -/

section Entries

variable {scores : List (ScoreEntry F)}

omit [CFloat F] in
theorem entry_index_unique (hnodup : (scores.map ScoreEntry.page).Nodup)
    {i j : ℕ} {left right : ScoreEntry F} (hleft : scores[i]? = some left)
    (hright : scores[j]? = some right) (hpage : left.page = right.page) : i = j := by
  have hi : (scores.map ScoreEntry.page)[i]? = some left.page := by
    rw [List.getElem?_map, hleft]
    rfl
  have hj : (scores.map ScoreEntry.page)[j]? = some left.page := by
    rw [List.getElem?_map, hright, hpage]
    rfl
  obtain ⟨hlt, _⟩ := List.getElem?_eq_some_iff.mp hi
  exact (List.getElem?_inj hlt hnodup).mp (hi.trans hj.symm)

theorem foldl_markEntry_of_ne (dramPages : ℕ) (rest : List (ScoreEntry F × ℕ))
    (page : PageId → ArmsPage F n) (p : PageId)
    (hne : ∀ entry ∈ rest, entry.1.page ≠ p) :
    rest.foldl (markEntry dramPages) page p = page p := by
  induction rest generalizing page with
  | nil => rfl
  | cons head rest ih =>
      rw [List.foldl_cons, ih _ fun entry hentry => hne entry (List.mem_cons_of_mem _ hentry)]
      exact Function.update_of_ne (hne head List.mem_cons_self).symm _ _

theorem foldl_markEntry (dramPages : ℕ) {entry : ScoreEntry F} (start i : ℕ)
    (page : PageId → ArmsPage F n) (hnodup : (scores.map ScoreEntry.page).Nodup)
    (hentry : scores[i]? = some entry) :
    (scores.zipIdx start).foldl (markEntry dramPages) page entry.page =
      markRank dramPages (start + i) (page entry.page) := by
  induction scores generalizing start i page with
  | nil => simp at hentry
  | cons head rest ih =>
      rw [List.map_cons, List.nodup_cons] at hnodup
      rw [List.zipIdx_cons, List.foldl_cons]
      cases i with
      | zero =>
          obtain rfl : head = entry := by simpa using hentry
          rw [foldl_markEntry_of_ne]
          · simp [markEntry]
          · intro other hother heq
            apply hnodup.1
            rw [← heq]
            exact List.mem_map_of_mem (List.fst_mem_of_mem_zipIdx hother)
      | succ i =>
          have htail : rest[i]? = some entry := by simpa using hentry
          have hmem : entry.page ∈ rest.map ScoreEntry.page :=
            List.mem_map_of_mem (List.mem_of_getElem? htail)
          have hne : entry.page ≠ head.page := by
            intro heq
            exact hnodup.1 (heq ▸ hmem)
          rw [ih (start + 1) i _ hnodup.2 htail, markEntry, Function.update_of_ne hne]
          congr 1
          omega

/-- The marking loops treat each scored page once, with its own rank. -/
theorem markScores_entry (dramPages : ℕ) (page : PageId → ArmsPage F n)
    (hnodup : (scores.map ScoreEntry.page).Nodup) {k : ℕ} {entry : ScoreEntry F}
    (hentry : scores[k]? = some entry) :
    markScores dramPages scores page entry.page =
      markRank dramPages k (page entry.page) := by
  have hfold := foldl_markEntry dramPages 0 k page hnodup hentry
  rwa [Nat.zero_add] at hfold

end Entries

theorem markRank_va (dramPages rank : ℕ) (page : ArmsPage F n) :
    (markRank dramPages rank page).va = page.va := by
  unfold markRank
  split
  · split
    · rfl
    · simp only
      split <;> rfl
  · rfl


/-! ## What the loop keeps true -/

/-- The free-list page that the loop has taken and not yet passed on. -/
def LoopPc.inHand : LoopPc → List (FreeList × PageId)
  | .weighFree _ np | .returnFree np | .submitFree _ np | .freePresent np => [(.dram, np)]
  | .submitSwap _ _ np => [(.nvm, np)]
  | _ => []

def LoopPc.halted : LoopPc → Bool
  | .done | .freePresent _ | .aborted => true
  | _ => false

/-- Where the policy thread is neither through nor about to wake a worker. -/
def LoopPc.running : LoopPc → Bool
  | .done | .wake => false
  | _ => true

/-- The list from which the request's free page was taken. -/
def Move.source (m : Move) : FreeList × PageId :=
  (if m.req.needDemotion then .nvm else .dram, m.req.freePage)

/-- What holds of the demotion half of a request when it is queued. -/
structure ColdMove (dramPages : ℕ) (scores : List (ScoreEntry F)) (m : Move) : Prop where
  entry : ∃ entry, scores[m.demoteIdx]? = some entry ∧ entry.page = m.req.dramPage
  rank : dramPages < m.demoteIdx
  order : m.promoteIdx < m.demoteIdx
  tier : m.dramPageInDram = true

/-- What holds of a request when it is queued. -/
structure SoundMove (dramPages : ℕ) (scores : List (ScoreEntry F)) (m : Move) : Prop where
  entry : ∃ entry, scores[m.promoteIdx]? = some entry ∧ entry.page = m.req.nvmPage
  rank : m.promoteIdx < dramPages
  tier : m.nvmPageInDram = false
  cold : m.req.needDemotion = true → ColdMove dramPages scores m

/-- The indices have gone past those of the move. -/
structure Passed (promoteIdx demoteIdx : ℕ) (m : Move) : Prop where
  hot : m.promoteIdx < promoteIdx
  cold : m.req.needDemotion = true → demoteIdx < m.demoteIdx

/-- The later of two moves is further in on both sides. -/
def Inward (earlier later : Move) : Prop :=
  earlier.promoteIdx < later.promoteIdx ∧
    (later.req.needDemotion = true → earlier.req.needDemotion = true →
      later.demoteIdx < earlier.demoteIdx)

namespace MigrationsLoop

/-- `p` is the page at `promote_idx`, a hot page in NVM. -/
structure HotAt (s : MigrationsLoop F n) (p : PageId) : Prop where
  entry : ∃ score, s.scores[s.promoteIdx]? = some ⟨p, score⟩
  rank : s.promoteIdx < s.dramPages
  tier : (s.page p).inDram = false

/-- `cp` is the page at `demote_idx`, a cold page in DRAM. -/
structure ColdAt (s : MigrationsLoop F n) (cp : PageId) : Prop where
  entry : ∃ score, s.scores[s.demoteIdx]? = some ⟨cp, score⟩
  rank : s.dramPages < s.demoteIdx
  tier : (s.page cp).inDram = true

/-- What the policy thread knows at a program counter. -/
def FactsAt (s : MigrationsLoop F n) : LoopPc → Prop
  | .selectHot =>
      s.promoteIdx < s.demoteIdx →
        ∃ entry, s.scores[s.promoteIdx]? = some entry ∧ (s.page entry.page).inDram = false
  | .takeDram p | .weighFree p _ | .submitFree p _ => s.HotAt p ∧ s.promoteIdx < s.demoteIdx
  | .skipDemote p => s.HotAt p ∧ s.promoteIdx ≤ s.demoteIdx
  | .selectCold p =>
      s.HotAt p ∧ s.promoteIdx ≤ s.demoteIdx ∧ (s.promoteIdx < s.demoteIdx →
        ∃ entry, s.scores[s.demoteIdx]? = some entry ∧ (s.page entry.page).inDram = true)
  | .weighSwap p cp | .takeNvm p cp | .submitSwap p cp _ =>
      s.HotAt p ∧ s.ColdAt cp ∧ s.promoteIdx < s.demoteIdx
  | .aborted => False
  | _ => True

def PcFacts (s : MigrationsLoop F n) : Prop := s.FactsAt s.pc

/-- The facts about the scored pages, which no step changes. -/
structure Marked (s : MigrationsLoop F n) : Prop where
  nodup : (s.scores.map ScoreEntry.page).Nodup
  sorted : s.scores.Pairwise fun left right => CFloat.lt left.score right.score = false
  va_pos : ∀ entry ∈ s.scores, 0 < (s.page entry.page).va
  demoted : ∀ k entry, s.dramPages ≤ k → s.scores[k]? = some entry →
    (s.page entry.page).canPromote = false

structure Indexed (s : MigrationsLoop F n) : Prop where
  demote_lt : s.demoteIdx < s.scores.length
  crossed : s.promoteIdx ≤ s.demoteIdx + 1
  sound : ∀ m ∈ s.moves, SoundMove s.dramPages s.scores m
  passed : ∀ m ∈ s.moves, Passed s.promoteIdx s.demoteIdx m
  ordered : s.moves.Pairwise Inward

/-- The free pages taken are those of the requests, in order, then the one in
hand or put back. -/
structure Accounted (s : MigrationsLoop F n) : Prop where
  taken : s.taken = s.moves.map Move.source ++ s.pc.inHand ++ s.returned
  returned : ∀ entry ∈ s.returned, entry.1 = .dram ∧ entry.2 ∈ s.freeList .dram
  returned_done : s.returned ≠ [] → s.pc = .done
  unscored : ∀ list, ∀ p ∈ s.freeList list, ¬ Scored s.scores p
  unscored_taken : ∀ entry ∈ s.taken, ¬ Scored s.scores entry.2

/-- The pipeline holds the requests of this interval only. -/
structure Piped (s : MigrationsLoop F n) (earlier : List MigrationReq) : Prop where
  pending : ∀ req, s.pipe.Pending req → ∃ m ∈ s.moves, m.req = req
  demoting : s.pipe.DemotesNeeded
  issued : s.pipe.issued = earlier ++ s.moves.map Move.req
  policy : s.pipe.policy = .schedule ∨ s.pc = .wake ∧ s.pipe.policy = .wake

structure LoopInv (s : MigrationsLoop F n) (earlier : List MigrationReq) : Prop where
  marked : s.Marked
  indexed : s.Indexed
  accounted : s.Accounted
  piped : s.Piped earlier
  facts : s.PcFacts

/-! ## The steps of the policy thread -/

variable {s : MigrationsLoop F n} {earlier : List MigrationReq}

theorem LoopInv.policy_schedule (hinv : s.LoopInv earlier) (hrunning : s.pc.running = true) :
    s.pipe.policy = .schedule := by
  refine hinv.piped.policy.resolve_right fun hwake => ?_
  rw [hwake.1] at hrunning
  exact Bool.noConfusion hrunning

theorem LoopInv.returned_nil (hinv : s.LoopInv earlier) (hpc : s.pc ≠ .done) :
    s.returned = [] := by
  by_contra hne
  exact hpc (hinv.accounted.returned_done hne)

omit [CFloat F] in
theorem ne_done_of_running (hrunning : s.pc.running = true) : s.pc ≠ .done := by
  intro hdone
  rw [hdone] at hrunning
  exact Bool.noConfusion hrunning

theorem LoopInv.goto_of_policy (hinv : s.LoopInv earlier) (hpc : s.pc ≠ .done)
    (hpolicy : s.pipe.policy = .schedule) {pc : LoopPc} (hhand : pc.inHand = s.pc.inHand)
    (hfacts : (s.goto pc).PcFacts) : (s.goto pc).LoopInv earlier where
  marked := ⟨hinv.marked.nodup, hinv.marked.sorted, hinv.marked.va_pos, hinv.marked.demoted⟩
  indexed := ⟨hinv.indexed.demote_lt, hinv.indexed.crossed, hinv.indexed.sound,
    hinv.indexed.passed, hinv.indexed.ordered⟩
  accounted := by
    refine ⟨?_, hinv.accounted.returned, fun hne => ?_, hinv.accounted.unscored,
      hinv.accounted.unscored_taken⟩
    · change s.taken = s.moves.map Move.source ++ pc.inHand ++ s.returned
      rw [hhand]
      exact hinv.accounted.taken
    · exact absurd (hinv.returned_nil hpc) hne
  piped := ⟨hinv.piped.pending, hinv.piped.demoting, hinv.piped.issued, .inl hpolicy⟩
  facts := hfacts

theorem LoopInv.goto (hinv : s.LoopInv earlier) (hrunning : s.pc.running = true) {pc : LoopPc}
    (hhand : pc.inHand = s.pc.inHand) (hfacts : (s.goto pc).PcFacts) :
    (s.goto pc).LoopInv earlier :=
  hinv.goto_of_policy (ne_done_of_running hrunning) (hinv.policy_schedule hrunning) hhand hfacts

/-- The loop passes over the page at `promote_idx`. -/
theorem LoopInv.passHot (hinv : s.LoopInv earlier) (hrunning : s.pc.running = true)
    (hhand : s.pc.inHand = []) {pc : LoopPc} (hnext : pc = .loopTest ∨ pc = .skipPromote)
    (hlt : s.promoteIdx < s.demoteIdx) :
    LoopInv { s with promoteIdx := s.promoteIdx + 1, pc := pc } earlier where
  marked := ⟨hinv.marked.nodup, hinv.marked.sorted, hinv.marked.va_pos, hinv.marked.demoted⟩
  indexed := by
    refine ⟨hinv.indexed.demote_lt, ?_, hinv.indexed.sound, fun m hm => ?_,
      hinv.indexed.ordered⟩
    · exact Nat.le_succ_of_le (Nat.succ_le_of_lt hlt)
    · exact ⟨Nat.lt_succ_of_lt (hinv.indexed.passed m hm).hot,
        (hinv.indexed.passed m hm).cold⟩
  accounted := by
    refine ⟨?_, hinv.accounted.returned, fun hne => ?_, hinv.accounted.unscored,
      hinv.accounted.unscored_taken⟩
    · have hhand' : pc.inHand = [] := by
        rcases hnext with rfl | rfl <;> rfl
      change s.taken = s.moves.map Move.source ++ pc.inHand ++ s.returned
      rw [hhand', ← hhand]
      exact hinv.accounted.taken
    · exact absurd (hinv.returned_nil (ne_done_of_running hrunning)) hne
  piped := ⟨hinv.piped.pending, hinv.piped.demoting, hinv.piped.issued,
    .inl (hinv.policy_schedule hrunning)⟩
  facts := by
    rcases hnext with rfl | rfl <;> trivial

/-- The loop passes over the page at `demote_idx`. -/
theorem LoopInv.passCold (hinv : s.LoopInv earlier) {p : PageId} (hpc : s.pc = .skipDemote p)
    (hlt : s.promoteIdx < s.demoteIdx) :
    LoopInv { s with demoteIdx := s.demoteIdx - 1 } earlier where
  marked := ⟨hinv.marked.nodup, hinv.marked.sorted, hinv.marked.va_pos, hinv.marked.demoted⟩
  indexed := by
    have hdemote := hinv.indexed.demote_lt
    refine ⟨?_, ?_, hinv.indexed.sound, fun m hm => ?_, hinv.indexed.ordered⟩
    · change s.demoteIdx - 1 < s.scores.length
      omega
    · change s.promoteIdx ≤ s.demoteIdx - 1 + 1
      omega
    · exact ⟨(hinv.indexed.passed m hm).hot, fun hneed =>
        Nat.lt_of_le_of_lt (Nat.sub_le _ _) ((hinv.indexed.passed m hm).cold hneed)⟩
  accounted := ⟨hinv.accounted.taken, hinv.accounted.returned, hinv.accounted.returned_done,
    hinv.accounted.unscored, hinv.accounted.unscored_taken⟩
  piped := ⟨hinv.piped.pending, hinv.piped.demoting, hinv.piped.issued, hinv.piped.policy⟩
  facts := by
    have hfacts := hinv.facts
    rw [PcFacts, hpc] at hfacts
    change FactsAt _ s.pc
    rw [hpc]
    exact ⟨⟨hfacts.1.entry, hfacts.1.rank, hfacts.1.tier⟩, Nat.le_sub_one_of_lt hlt⟩

/-- The loop takes the head of a free list. -/
theorem LoopInv.take (hinv : s.LoopInv earlier) (hrunning : s.pc.running = true)
    (hhand : s.pc.inHand = []) {list : FreeList} {np : PageId} {rest : List PageId}
    (hlist : s.freeList list = np :: rest) {pc : LoopPc} (hpcHand : pc.inHand = [(list, np)])
    (hfacts : ((s.take list np).goto pc).PcFacts) :
    ((s.take list np).goto pc).LoopInv earlier where
  marked := ⟨hinv.marked.nodup, hinv.marked.sorted, hinv.marked.va_pos, hinv.marked.demoted⟩
  indexed := ⟨hinv.indexed.demote_lt, hinv.indexed.crossed, hinv.indexed.sound,
    hinv.indexed.passed, hinv.indexed.ordered⟩
  accounted := by
    have hreturned := hinv.returned_nil (ne_done_of_running hrunning)
    have htaken := hinv.accounted.taken
    rw [hhand, hreturned, List.append_nil, List.append_nil] at htaken
    refine ⟨?_, ?_, fun hne => absurd hreturned hne, ?_, ?_⟩
    · change s.taken ++ [(list, np)] = s.moves.map Move.source ++ pc.inHand ++ s.returned
      rw [hpcHand, hreturned, htaken, List.append_nil]
    · change ∀ entry ∈ s.returned, _
      rw [hreturned]
      simp
    · intro other p hp
      change p ∈ Function.update s.freeList list (s.freeList list).tail other at hp
      rcases eq_or_ne other list with rfl | hne
      · rw [Function.update_self] at hp
        exact hinv.accounted.unscored _ p (List.mem_of_mem_tail hp)
      · rw [Function.update_of_ne hne] at hp
        exact hinv.accounted.unscored other p hp
    · intro entry hentry
      rcases List.mem_append.mp hentry with hold | hnew
      · exact hinv.accounted.unscored_taken entry hold
      · rw [List.mem_singleton.mp hnew]
        exact hinv.accounted.unscored list np (hlist ▸ List.mem_cons_self)
  piped := ⟨hinv.piped.pending, hinv.piped.demoting, hinv.piped.issued,
    .inl (hinv.policy_schedule hrunning)⟩
  facts := hfacts

/-- The loop puts the page in hand back and ends. -/
theorem LoopInv.putBack (hinv : s.LoopInv earlier) {np : PageId}
    (hpc : s.pc = .returnFree np) :
    LoopInv
      { s with
        freeList := Function.update s.freeList .dram (s.freeList .dram ++ [np])
        returned := s.returned ++ [(.dram, np)]
        pc := .done } earlier where
  marked := ⟨hinv.marked.nodup, hinv.marked.sorted, hinv.marked.va_pos, hinv.marked.demoted⟩
  indexed := ⟨hinv.indexed.demote_lt, hinv.indexed.crossed, hinv.indexed.sound,
    hinv.indexed.passed, hinv.indexed.ordered⟩
  accounted := by
    have hreturned := hinv.returned_nil (by rw [hpc]; exact LoopPc.noConfusion)
    have htaken := hinv.accounted.taken
    rw [hpc, hreturned, List.append_nil] at htaken
    refine ⟨?_, ?_, fun _ => rfl, ?_, hinv.accounted.unscored_taken⟩
    · change s.taken = s.moves.map Move.source ++ [] ++ (s.returned ++ [(.dram, np)])
      rw [hreturned, htaken, List.append_nil]
      rfl
    · intro entry hentry
      change entry ∈ s.returned ++ [(.dram, np)] at hentry
      rw [hreturned, List.nil_append, List.mem_singleton] at hentry
      subst hentry
      refine ⟨rfl, ?_⟩
      change np ∈ Function.update s.freeList .dram (s.freeList .dram ++ [np]) .dram
      rw [Function.update_self]
      exact List.mem_append_right _ List.mem_cons_self
    · intro list p hp
      change p ∈ Function.update s.freeList .dram (s.freeList .dram ++ [np]) list at hp
      rcases eq_or_ne list .dram with rfl | hne
      · rw [Function.update_self] at hp
        rcases List.mem_append.mp hp with hold | hnew
        · exact hinv.accounted.unscored .dram p hold
        · rw [List.mem_singleton.mp hnew]
          refine hinv.accounted.unscored_taken (.dram, np) ?_
          rw [htaken]
          exact List.mem_append_right _ List.mem_cons_self
      · rw [Function.update_of_ne hne] at hp
        exact hinv.accounted.unscored list p hp
  piped := ⟨hinv.piped.pending, hinv.piped.demoting, hinv.piped.issued,
    .inl (hinv.policy_schedule (by rw [hpc]; rfl))⟩
  facts := trivial

/-- The loop queues a request for the pages at its indices. -/
theorem LoopInv.submit (hinv : s.LoopInv earlier) (hrunning : s.pc.running = true)
    {p cp np : PageId} {needDemotion : Bool}
    (hhand : s.pc.inHand = [(if needDemotion then .nvm else .dram, np)]) (hhot : s.HotAt p)
    (hlt : s.promoteIdx < s.demoteIdx) (hcold : needDemotion = true → s.ColdAt cp)
    {demoteIdx : ℕ}
    (hdemote : demoteIdx = if needDemotion then s.demoteIdx - 1 else s.demoteIdx) :
    LoopInv
      { s.submit cp p np needDemotion with
        promoteIdx := s.promoteIdx + 1
        demoteIdx := demoteIdx } earlier where
  marked := ⟨hinv.marked.nodup, hinv.marked.sorted, hinv.marked.va_pos, hinv.marked.demoted⟩
  indexed := by
    have hbound := hinv.indexed.demote_lt
    have hle : demoteIdx ≤ s.demoteIdx := by
      rw [hdemote]
      split <;> omega
    obtain ⟨score, hentry⟩ := hhot.entry
    refine ⟨Nat.lt_of_le_of_lt hle hbound, ?_, ?_, ?_, ?_⟩
    · change s.promoteIdx + 1 ≤ demoteIdx + 1
      rw [hdemote]
      split <;> omega
    · intro m hm
      rcases List.mem_append.mp hm with hold | hnew
      · exact hinv.indexed.sound m hold
      · obtain rfl := List.mem_singleton.mp hnew
        refine ⟨⟨_, hentry, rfl⟩, hhot.rank, hhot.tier, fun hneed => ?_⟩
        obtain ⟨⟨coldScore, hcoldEntry⟩, hrank, htier⟩ := hcold hneed
        exact ⟨⟨_, hcoldEntry, rfl⟩, hrank, hlt, htier⟩
    · intro m hm
      rcases List.mem_append.mp hm with hold | hnew
      · exact ⟨Nat.lt_succ_of_lt (hinv.indexed.passed m hold).hot, fun hneed =>
          Nat.lt_of_le_of_lt hle ((hinv.indexed.passed m hold).cold hneed)⟩
      · obtain rfl := List.mem_singleton.mp hnew
        refine ⟨Nat.lt_succ_self _, fun hneed => ?_⟩
        change needDemotion = true at hneed
        change demoteIdx < s.demoteIdx
        rw [hdemote, if_pos hneed]
        exact Nat.sub_one_lt_of_lt hlt
    · refine List.pairwise_append.mpr ⟨hinv.indexed.ordered, List.pairwise_singleton _ _, ?_⟩
      intro m hm later hlater
      obtain rfl := List.mem_singleton.mp hlater
      exact ⟨(hinv.indexed.passed m hm).hot, fun _ hneed =>
        (hinv.indexed.passed m hm).cold hneed⟩
  accounted := by
    have hreturned := hinv.returned_nil (ne_done_of_running hrunning)
    have htaken := hinv.accounted.taken
    rw [hhand, hreturned, List.append_nil] at htaken
    refine ⟨?_, hinv.accounted.returned, fun hne => absurd hreturned hne,
      hinv.accounted.unscored, hinv.accounted.unscored_taken⟩
    change s.taken = (s.moves ++ [_]).map Move.source ++ [] ++ s.returned
    rw [htaken, hreturned, List.map_append, List.append_nil, List.append_nil]
    rfl
  piped := by
    have hpolicy := hinv.policy_schedule hrunning
    refine ⟨?_, hinv.piped.demoting, ?_, ?_⟩
    · intro req hpending
      change (req ∈ s.pipe.migrationQueue ++ [_] ∨ _) at hpending
      rcases hpending with hqueue | hworker
      · rcases List.mem_append.mp hqueue with hold | hnew
        · obtain ⟨m, hm, hreq⟩ := hinv.piped.pending req (.inl hold)
          exact ⟨m, List.mem_append_left _ hm, hreq⟩
        · exact ⟨_, List.mem_append_right _ List.mem_cons_self, (List.mem_singleton.mp hnew).symm⟩
      · obtain ⟨m, hm, hreq⟩ := hinv.piped.pending req (.inr hworker)
        exact ⟨m, List.mem_append_left _ hm, hreq⟩
    · change s.pipe.issued ++ [_] = earlier ++ (s.moves ++ [_]).map Move.req
      rw [hinv.piped.issued, List.map_append, List.append_assoc]
      rfl
    · change (if s.pipe.numMigrationJobs + 1 ≤ s.pipe.batchSize then Policy.wake
        else .schedule) = .schedule ∨ _ ∧ (if _ then Policy.wake else .schedule) = .wake
      split
      · exact .inr ⟨rfl, rfl⟩
      · exact .inl rfl
  facts := trivial

/-- The loop posts `submission_sem` if it has to, and starts over. -/
theorem LoopInv.post (hinv : s.LoopInv earlier) (hpc : s.pc = .wake) {pipe : Pipeline}
    (hpipe : pipelineStep s.pipe .postSubmission = some pipe) :
    LoopInv { s with pipe := pipe, pc := .loopTest } earlier where
  marked := ⟨hinv.marked.nodup, hinv.marked.sorted, hinv.marked.va_pos, hinv.marked.demoted⟩
  indexed := ⟨hinv.indexed.demote_lt, hinv.indexed.crossed, hinv.indexed.sound,
    hinv.indexed.passed, hinv.indexed.ordered⟩
  accounted := by
    have hreturned := hinv.returned_nil (by rw [hpc]; exact LoopPc.noConfusion)
    have htaken := hinv.accounted.taken
    rw [hpc] at htaken
    exact ⟨htaken, hinv.accounted.returned, fun hne => absurd hreturned hne,
      hinv.accounted.unscored, hinv.accounted.unscored_taken⟩
  piped := by
    cases Pipeline.step_cases hpipe with
    | postSubmission hpolicy =>
        exact ⟨hinv.piped.pending, hinv.piped.demoting, hinv.piped.issued, .inl rfl⟩
  facts := trivial

/-! Each program counter in turn. -/

variable {next : MigrationsLoop F n}

theorem LoopInv.step_loopTest (hinv : s.LoopInv earlier) (hpc : s.pc = .loopTest)
    (hstep : s.policyStep = some next) : next.LoopInv earlier := by
  have hgoto : ∀ pc, pc = .done ∨ pc = .skipPromote → (s.goto pc).LoopInv earlier := by
    rintro pc (rfl | rfl)
    · exact hinv.goto (by rw [hpc]; rfl) (by rw [hpc]; rfl) trivial
    · exact hinv.goto (by rw [hpc]; rfl) (by rw [hpc]; rfl) trivial
  simp only [policyStep, hpc] at hstep
  split at hstep
  · split at hstep
    · rw [← Option.some.inj hstep]
      exact hgoto _ (.inl rfl)
    · obtain ⟨entry, hentry, rfl⟩ := Option.map_eq_some_iff.mp hstep
      refine hgoto _ ?_
      split
      · exact .inl rfl
      · exact .inr rfl
  · rw [← Option.some.inj hstep]
    exact hgoto _ (.inl rfl)

theorem LoopInv.step_skipPromote (hinv : s.LoopInv earlier) (hpc : s.pc = .skipPromote)
    (hstep : s.policyStep = some next) : next.LoopInv earlier := by
  simp only [policyStep, hpc] at hstep
  split at hstep
  · rename_i hlt
    obtain ⟨entry, hentry, rfl⟩ := Option.map_eq_some_iff.mp hstep
    split
    · exact hinv.passHot (by rw [hpc]; rfl) (by rw [hpc]; rfl) (.inr rfl) hlt
    · rename_i htier
      refine hinv.goto (by rw [hpc]; rfl) (by rw [hpc]; rfl) fun _ => ⟨entry, hentry, ?_⟩
      exact Bool.eq_false_iff.mpr htier
  · rename_i hge
    rw [← Option.some.inj hstep]
    exact hinv.goto (by rw [hpc]; rfl) (by rw [hpc]; rfl) fun hlt => absurd hlt hge

theorem LoopInv.step_selectHot (hinv : s.LoopInv earlier) (hpc : s.pc = .selectHot)
    (hstep : s.policyStep = some next) : next.LoopInv earlier := by
  have hfacts := hinv.facts
  rw [PcFacts, hpc] at hfacts
  simp only [policyStep, hpc] at hstep
  split at hstep
  · rw [← Option.some.inj hstep]
    exact hinv.goto (by rw [hpc]; rfl) (by rw [hpc]; rfl) trivial
  · rename_i hge
    have hlt : s.promoteIdx < s.demoteIdx := Nat.lt_of_not_le hge
    obtain ⟨entry, hentry, rfl⟩ := Option.map_eq_some_iff.mp hstep
    obtain ⟨other, hother, htier⟩ := hfacts hlt
    obtain rfl : entry = other := Option.some.inj (hentry.symm.trans hother)
    rw [if_neg (by rw [htier]; exact Bool.false_ne_true)]
    split
    · rename_i hpromote
      -- the marking loop has cleared `can_promote` for every page of lower rank
      have hrank : s.promoteIdx < s.dramPages := by
        by_contra hout
        have hdemoted := hinv.marked.demoted _ entry (Nat.le_of_not_lt hout) hentry
        rw [hpromote] at hdemoted
        exact Bool.noConfusion hdemoted
      refine hinv.goto (by rw [hpc]; rfl) (by rw [hpc]; rfl) ⟨?_, hlt⟩
      exact ⟨⟨entry.score, hentry⟩, hrank, htier⟩
    · exact hinv.passHot (by rw [hpc]; rfl) (by rw [hpc]; rfl) (.inl rfl) hlt

theorem LoopInv.step_takeDram (hinv : s.LoopInv earlier) {p : PageId} (hpc : s.pc = .takeDram p)
    (hstep : s.policyStep = some next) : next.LoopInv earlier := by
  have hfacts := hinv.facts
  rw [PcFacts, hpc] at hfacts
  obtain ⟨⟨hentry, hrank, htier⟩, hlt⟩ := hfacts
  simp only [policyStep, hpc] at hstep
  split at hstep
  · rename_i np rest hlist
    rw [← Option.some.inj hstep]
    split
    · exact hinv.take (by rw [hpc]; rfl) (by rw [hpc]; rfl) hlist rfl trivial
    · exact hinv.take (by rw [hpc]; rfl) (by rw [hpc]; rfl) hlist rfl
        ⟨⟨hentry, hrank, htier⟩, hlt⟩
  · rw [← Option.some.inj hstep]
    exact hinv.goto (by rw [hpc]; rfl) (by rw [hpc]; rfl) ⟨⟨hentry, hrank, htier⟩, hlt.le⟩

theorem LoopInv.step_weighFree (hinv : s.LoopInv earlier) {p np : PageId}
    (hpc : s.pc = .weighFree p np) (hstep : s.policyStep = some next) :
    next.LoopInv earlier := by
  have hfacts := hinv.facts
  rw [PcFacts, hpc] at hfacts
  obtain ⟨⟨hentry, hrank, htier⟩, hlt⟩ := hfacts
  simp only [policyStep, hpc] at hstep
  rw [← Option.some.inj hstep]
  split
  · exact hinv.goto (by rw [hpc]; rfl) (by rw [hpc]; rfl) trivial
  · exact hinv.goto (by rw [hpc]; rfl) (by rw [hpc]; rfl) ⟨⟨hentry, hrank, htier⟩, hlt⟩

theorem LoopInv.step_submitFree (hinv : s.LoopInv earlier) {p np : PageId}
    (hpc : s.pc = .submitFree p np) (hstep : s.policyStep = some next) :
    next.LoopInv earlier := by
  have hfacts := hinv.facts
  rw [PcFacts, hpc] at hfacts
  simp only [policyStep, hpc] at hstep
  rw [← Option.some.inj hstep]
  exact hinv.submit (by rw [hpc]; rfl) (by rw [hpc]; rfl) hfacts.1 hfacts.2
    (fun hfalse => Bool.noConfusion hfalse) rfl

theorem LoopInv.step_skipDemote (hinv : s.LoopInv earlier) {p : PageId}
    (hpc : s.pc = .skipDemote p) (hstep : s.policyStep = some next) : next.LoopInv earlier := by
  have hfacts := hinv.facts
  rw [PcFacts, hpc] at hfacts
  obtain ⟨⟨hhot, hrank, htier⟩, hle⟩ := hfacts
  simp only [policyStep, hpc] at hstep
  split at hstep
  · rename_i hlt
    obtain ⟨entry, hentry, rfl⟩ := Option.map_eq_some_iff.mp hstep
    split
    · rename_i hcold
      exact hinv.goto (by rw [hpc]; rfl) (by rw [hpc]; rfl)
        ⟨⟨hhot, hrank, htier⟩, hle, fun _ => ⟨entry, hentry, hcold⟩⟩
    · have hpass := hinv.passCold hpc hlt
      rwa [hpc] at hpass
  · rename_i hge
    rw [← Option.some.inj hstep]
    exact hinv.goto (by rw [hpc]; rfl) (by rw [hpc]; rfl)
      ⟨⟨hhot, hrank, htier⟩, hle, fun hlt => absurd hlt hge⟩

theorem LoopInv.step_selectCold (hinv : s.LoopInv earlier) {p : PageId}
    (hpc : s.pc = .selectCold p) (hstep : s.policyStep = some next) : next.LoopInv earlier := by
  have hfacts := hinv.facts
  rw [PcFacts, hpc] at hfacts
  obtain ⟨⟨hhot, hrank, htier⟩, hle, hcold⟩ := hfacts
  simp only [policyStep, hpc] at hstep
  split at hstep
  · rw [← Option.some.inj hstep]
    exact hinv.goto (by rw [hpc]; rfl) (by rw [hpc]; rfl) trivial
  · rename_i hbreak
    obtain ⟨hge, hrankCold⟩ := not_or.mp hbreak
    have hlt : s.promoteIdx < s.demoteIdx := Nat.lt_of_not_le hge
    obtain ⟨entry, hentry, rfl⟩ := Option.map_eq_some_iff.mp hstep
    obtain ⟨other, hother, hcoldTier⟩ := hcold hlt
    obtain rfl : entry = other := Option.some.inj (hentry.symm.trans hother)
    have hva := hinv.marked.va_pos entry (List.mem_of_getElem? hentry)
    rw [if_pos ⟨hcoldTier, hva⟩]
    exact hinv.goto (by rw [hpc]; rfl) (by rw [hpc]; rfl)
      ⟨⟨hhot, hrank, htier⟩, ⟨⟨entry.score, hentry⟩, Nat.lt_of_not_le hrankCold, hcoldTier⟩, hlt⟩

theorem LoopInv.step_weighSwap (hinv : s.LoopInv earlier) {p cp : PageId}
    (hpc : s.pc = .weighSwap p cp) (hstep : s.policyStep = some next) :
    next.LoopInv earlier := by
  have hfacts := hinv.facts
  rw [PcFacts, hpc] at hfacts
  obtain ⟨⟨hhot, hrank, htier⟩, ⟨hcold, hrankCold, hcoldTier⟩, hlt⟩ := hfacts
  simp only [policyStep, hpc] at hstep
  rw [← Option.some.inj hstep]
  split
  · exact hinv.goto (by rw [hpc]; rfl) (by rw [hpc]; rfl)
      ⟨⟨hhot, hrank, htier⟩, ⟨hcold, hrankCold, hcoldTier⟩, hlt⟩
  · exact hinv.goto (by rw [hpc]; rfl) (by rw [hpc]; rfl) trivial

theorem LoopInv.step_takeNvm (hinv : s.LoopInv earlier) {p cp : PageId}
    (hpc : s.pc = .takeNvm p cp) (hstep : s.policyStep = some next) : next.LoopInv earlier := by
  have hfacts := hinv.facts
  rw [PcFacts, hpc] at hfacts
  obtain ⟨⟨hhot, hrank, htier⟩, ⟨hcold, hrankCold, hcoldTier⟩, hlt⟩ := hfacts
  simp only [policyStep, hpc] at hstep
  split at hstep
  · rename_i np rest hlist
    rw [← Option.some.inj hstep]
    exact hinv.take (by rw [hpc]; rfl) (by rw [hpc]; rfl) hlist rfl
      ⟨⟨hhot, hrank, htier⟩, ⟨hcold, hrankCold, hcoldTier⟩, hlt⟩
  · rw [← Option.some.inj hstep]
    exact hinv.goto (by rw [hpc]; rfl) (by rw [hpc]; rfl) trivial

theorem LoopInv.step_submitSwap (hinv : s.LoopInv earlier) {p cp np : PageId}
    (hpc : s.pc = .submitSwap p cp np) (hstep : s.policyStep = some next) :
    next.LoopInv earlier := by
  have hfacts := hinv.facts
  rw [PcFacts, hpc] at hfacts
  simp only [policyStep, hpc] at hstep
  rw [← Option.some.inj hstep]
  exact hinv.submit (by rw [hpc]; rfl) (by rw [hpc]; rfl) hfacts.1 hfacts.2.2
    (fun _ => hfacts.2.1) rfl

theorem LoopInv.step_wake (hinv : s.LoopInv earlier) (hpc : s.pc = .wake)
    (hstep : s.policyStep = some next) : next.LoopInv earlier := by
  simp only [policyStep, hpc] at hstep
  split at hstep
  · obtain ⟨pipe, hpipe, rfl⟩ := Option.map_eq_some_iff.mp hstep
    exact hinv.post hpc hpipe
  · rename_i hpolicy
    rw [← Option.some.inj hstep]
    exact hinv.goto_of_policy (by rw [hpc]; exact LoopPc.noConfusion)
      (hinv.piped.policy.resolve_right fun hwake => hpolicy hwake.2) (by rw [hpc]; rfl) trivial

theorem LoopInv.policyStep (hinv : s.LoopInv earlier) (hstep : s.policyStep = some next) :
    next.LoopInv earlier := by
  cases hpc : s.pc with
  | loopTest => exact hinv.step_loopTest hpc hstep
  | skipPromote => exact hinv.step_skipPromote hpc hstep
  | selectHot => exact hinv.step_selectHot hpc hstep
  | takeDram p => exact hinv.step_takeDram hpc hstep
  | weighFree p np => exact hinv.step_weighFree hpc hstep
  | returnFree np =>
      simp only [MigrationsLoop.policyStep, hpc] at hstep
      rw [← Option.some.inj hstep]
      exact hinv.putBack hpc
  | submitFree p np => exact hinv.step_submitFree hpc hstep
  | skipDemote p => exact hinv.step_skipDemote hpc hstep
  | selectCold p => exact hinv.step_selectCold hpc hstep
  | weighSwap p cp => exact hinv.step_weighSwap hpc hstep
  | takeNvm p cp => exact hinv.step_takeNvm hpc hstep
  | submitSwap p cp np => exact hinv.step_submitSwap hpc hstep
  | wake => exact hinv.step_wake hpc hstep
  | done => simp [MigrationsLoop.policyStep, hpc] at hstep
  | freePresent np => simp [MigrationsLoop.policyStep, hpc] at hstep
  | aborted => simp [MigrationsLoop.policyStep, hpc] at hstep

end MigrationsLoop

end ArmsTiering
