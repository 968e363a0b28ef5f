import ArmsTiering.Pebs.Neighbours
import Mathlib.Data.List.Induction

/-!
# When the smoothed count is the mean of the neighbourhood

The second iterator of `calculate_scores_tree` is never moved over the page
that is being scored.  It stops at the first gap, and once the first iterator
has reached it no page gets right neighbours any more.  It also brings in pages
that are not present.  The smoothed count is therefore the mean of the
neighbourhood exactly for the layouts in which neither shows.
-/

namespace ArmsTiering

/-- Every page address from `lo` up to `hi` is tracked. -/
def Joined (tree : List PageTreeEntry) (lo hi : ℕ) : Prop :=
  ∀ k < (hi - lo) / hugepageSize, lo + k * hugepageSize ∈ tree.map PageTreeEntry.va

instance (tree : List PageTreeEntry) (lo hi : ℕ) : Decidable (Joined tree lo hi) :=
  inferInstanceAs (Decidable (∀ k < (hi - lo) / hugepageSize, _))

/-- The entry is in the run of the address, at most `NUM_NEIGHBOURS` pages away. -/
def Near (tree : List PageTreeEntry) (va : ℕ) (entry : PageTreeEntry) : Prop :=
  Joined tree va entry.va ∧ Joined tree entry.va va ∧
    entry.va ≤ va + numNeighbours * hugepageSize ∧ va ≤ entry.va + numNeighbours * hugepageSize

instance (tree : List PageTreeEntry) (va : ℕ) (entry : PageTreeEntry) :
    Decidable (Near tree va entry) :=
  inferInstanceAs (Decidable (_ ∧ _ ∧ _ ∧ _))

/-- The pages over which the smoothed count of the page at `va` is the mean. -/
def neighbourhood (tree : List PageTreeEntry) (page : PageId → TreePage) (va : ℕ) :
    List PageId :=
  (tree.filter fun entry => (page entry.page).present && decide (Near tree va entry)).map
    PageTreeEntry.page

/-- The tree has one entry for each tracked page, in ascending order of
addresses. -/
structure Tracked (tree : List PageTreeEntry) (page : PageId → TreePage) : Prop where
  sorted : tree.Pairwise fun left right => left.va < right.va
  aligned : ∀ entry ∈ tree, entry.va % hugepageSize = 0
  va_eq : ∀ entry ∈ tree, (page entry.page).va = entry.va

/-- Every present page gets the mean of its neighbourhood, for every type of
sample, and the count of the average is never decremented from zero. -/
def SmoothsExactly (env : ScoreEnv ℚ windowSize) (prevAccessVersion : Fin 2)
    (lNeighbours rNeighbours : RingBuf PageId) (tree : List PageTreeEntry)
    (page : PageId → TreePage) : Prop :=
  let s := calculateScoresTree env prevAccessVersion lNeighbours rNeighbours tree page
  s.smoothAvg.underflowed = false ∧
    ∀ entry ∈ tree, (page entry.page).present = true → ∀ type,
      (s.page entry.page).sAccesses type =
        mean ((neighbourhood tree page entry.va).map
          (previousCounts prevAccessVersion page · type))

/-- The pages with other counts of the interval that is being scored. -/
def withCounts (prevAccessVersion : Fin 2) (counts : PageId → PbufType → UInt16)
    (page : PageId → TreePage) (p : PageId) : TreePage :=
  { page p with
    accesses := fun type version =>
      if version = prevAccessVersion then (counts p type).toNat
      else (page p).accesses type version }

/-- If the lowest page is present, so is every page of its run; and only in that
run are two present pages of a run at most `NUM_NEIGHBOURS` pages apart. -/
def Smoothable (tree : List PageTreeEntry) (page : PageId → TreePage) : Prop :=
  (∀ first ∈ tree.head?, (page first.page).present = true →
      ∀ entry ∈ tree, Joined tree first.va entry.va → (page entry.page).present = true) ∧
    ∀ x ∈ tree, ∀ y ∈ tree, (page x.page).present = true → (page y.page).present = true →
      x.va < y.va → y.va ≤ x.va + numNeighbours * hugepageSize → Joined tree x.va y.va →
        ∀ first ∈ tree.head?, (page first.page).present = true ∧ Joined tree first.va x.va

/-! ## Runs -/

/-- The entries are consecutive pages, the first one at `next`. -/
def RunFrom : ℕ → List PageTreeEntry → Prop
  | _, [] => True
  | next, entry :: rest => entry.va = next ∧ RunFrom (next + hugepageSize) rest

theorem RunFrom.va_eq {next : ℕ} {run : List PageTreeEntry} (h : RunFrom next run) (k : ℕ)
    (hk : k < run.length) : run[k].va = next + k * hugepageSize := by
  induction run generalizing next k with
  | nil => exact absurd hk (Nat.not_lt_zero k)
  | cons entry rest ih =>
      cases k with
      | zero => simpa using h.1
      | succ k =>
          rw [List.getElem_cons_succ, ih h.2 k (Nat.lt_of_succ_lt_succ hk)]
          ring

theorem RunFrom.drop {next : ℕ} {run : List PageTreeEntry} (h : RunFrom next run) (k : ℕ) :
    RunFrom (next + k * hugepageSize) (run.drop k) := by
  induction run generalizing next k with
  | nil => simp [RunFrom]
  | cons entry rest ih =>
      cases k with
      | zero => simpa using h
      | succ k =>
          have hrest := ih h.2 k
          rw [List.drop_succ_cons]
          convert hrest using 1
          ring

theorem RunFrom.take {next : ℕ} {run : List PageTreeEntry} (h : RunFrom next run) (k : ℕ) :
    RunFrom next (run.take k) := by
  induction run generalizing next k with
  | nil => simp [RunFrom]
  | cons entry rest ih =>
      cases k with
      | zero => simp [RunFrom]
      | succ k => exact ⟨h.1, ih h.2 k⟩

/-- The entries up to the first gap. -/
theorem exists_run (next : ℕ) (tree : List PageTreeEntry) :
    ∃ run rest, tree = run ++ rest ∧ RunFrom next run ∧
      ∀ entry ∈ rest.head?, entry.va ≠ next + run.length * hugepageSize := by
  induction tree generalizing next with
  | nil => exact ⟨[], [], rfl, trivial, by simp⟩
  | cons entry tree ih =>
      by_cases hva : entry.va = next
      · obtain ⟨run, rest, htree, hrun, hgap⟩ := ih (next + hugepageSize)
        refine ⟨entry :: run, rest, by rw [htree, List.cons_append], ⟨hva, hrun⟩, ?_⟩
        intro other hother hnext
        apply hgap other hother
        rw [hnext, List.length_cons]
        ring
      · refine ⟨[], entry :: tree, rfl, trivial, ?_⟩
        intro other hother
        rw [List.head?_cons, Option.mem_some_iff] at hother
        subst hother
        simpa using hva

theorem reach_run {next : ℕ} {run rest : List PageTreeEntry} (hrun : RunFrom next run)
    (hgap : ∀ entry ∈ rest.head?, entry.va ≠ next + run.length * hugepageSize) (room : ℕ) :
    reach room next (run ++ rest) = min room run.length := by
  induction run generalizing next room with
  | nil =>
      rw [List.nil_append, List.length_nil, Nat.min_zero]
      cases rest with
      | nil => cases room <;> rfl
      | cons entry rest =>
          cases room with
          | zero => rfl
          | succ room =>
              rw [reach, if_neg]
              simpa using hgap entry (by simp)
  | cons entry run ih =>
      cases room with
      | zero => simp [reach]
      | succ room =>
          rw [List.cons_append, reach, if_pos hrun.1, List.length_cons, Nat.succ_min_succ]
          refine congrArg Nat.succ (ih hrun.2 ?_ room)
          intro other hother hnext
          apply hgap other hother
          rw [hnext, List.length_cons]
          ring

theorem reach_passed {next : ℕ} {itr : KbItr} (hpassed : ∀ entry ∈ itr.head?, entry.va < next)
    (room : ℕ) : reach room next itr = 0 := by
  cases room with
  | zero => rfl
  | succ room =>
      cases itr with
      | nil => rfl
      | cons entry rest =>
          have hlt := hpassed entry (by simp)
          rw [reach, if_neg (Nat.ne_of_lt hlt)]

theorem keepLeft_run {va : PageId → ℕ} {next : ℕ} {left : List PageTreeEntry}
    (hrun : RunFrom next left) (hva : ∀ entry ∈ left, va entry.page = entry.va) :
    keepLeft va (next + left.length * hugepageSize) (left.map PageTreeEntry.page) =
      left.map PageTreeEntry.page := by
  cases left with
  | nil => rfl
  | cons entry left =>
      rw [List.map_cons, keepLeft, if_pos]
      rw [hva entry List.mem_cons_self, hrun.1, List.length_map, List.length_cons]
      omega

/-- A left neighbour that stays is followed by the page just before the one
being scored. -/
theorem exists_adjacent_of_keepLeft {va : PageId → ℕ} {x : ℕ} {left : List PageId}
    (hapart : left.Pairwise fun p q => va p + hugepageSize ≤ va q)
    (hbelow : ∀ p ∈ left, va p + hugepageSize ≤ x) (hkeep : keepLeft va x left ≠ []) :
    ∃ p ∈ left, va p + hugepageSize = x := by
  have hfar : ∀ (p : PageId) (rest : List PageId),
      (p :: rest).Pairwise (fun p q => va p + hugepageSize ≤ va q) →
        ∃ q ∈ p :: rest, va p + rest.length * hugepageSize ≤ va q := by
    intro p rest hpairwise
    induction rest generalizing p with
    | nil => exact ⟨p, by simp⟩
    | cons r rest ih =>
        obtain ⟨hp, hrest⟩ := List.pairwise_cons.mp hpairwise
        obtain ⟨q, hq, hle⟩ := ih r hrest
        refine ⟨q, List.mem_cons_of_mem _ hq, ?_⟩
        have hnext := hp r List.mem_cons_self
        rw [List.length_cons, Nat.succ_mul]
        omega
  induction left with
  | nil => exact absurd rfl hkeep
  | cons p left ih =>
      unfold keepLeft at hkeep
      split at hkeep
      · next hva =>
          obtain ⟨q, hq, hle⟩ := hfar p left hapart
          have hqx := hbelow q hq
          have hp := hbelow p List.mem_cons_self
          refine ⟨q, hq, ?_⟩
          rw [Nat.succ_mul] at hva
          omega
      · obtain ⟨q, hq, hqx⟩ := ih (List.pairwise_cons.mp hapart).2
          (fun q hq => hbelow q (List.mem_cons_of_mem _ hq)) hkeep
        exact ⟨q, List.mem_cons_of_mem _ hq, hqx⟩

namespace Tracked

variable {tree : List PageTreeEntry} {page : PageId → TreePage}

theorem apart (h : Tracked tree page) :
    tree.Pairwise fun left right => left.va + hugepageSize ≤ right.va := by
  refine h.sorted.imp_of_mem ?_
  intro left right hleft hright hlt
  have hleftAligned := h.aligned left hleft
  have hrightAligned := h.aligned right hright
  unfold hugepageSize at *
  omega

theorem page_ne (h : Tracked tree page) {left right : PageTreeEntry} (hleft : left ∈ tree)
    (hright : right ∈ tree) (hne : left.va ≠ right.va) : left.page ≠ right.page := by
  intro heq
  apply hne
  rw [← h.va_eq left hleft, ← h.va_eq right hright, heq]

end Tracked

/-! ## All rounds -/

section Rounds

variable {env : ScoreEnv ℚ windowSize} {prev : Fin 2} {tree : List PageTreeEntry}
  {page : PageId → TreePage} {lNeighbours rNeighbours : RingBuf PageId}
  {before after : List PageTreeEntry} {x : PageTreeEntry} {s : TreeLoop}
  {left right : List PageId}

/-- The state of the loop once the iterator has passed `before`. -/
structure Rounds (tree : List PageTreeEntry) (page : PageId → TreePage)
    (prevAccessVersion : Fin 2) (before : List PageTreeEntry) (s : TreeLoop)
    (left right : List PageId) : Prop where
  window : Window page prevAccessVersion s left right
  idx_eq : s.idx = before.length
  left_sublist : left.Sublist
    ((before.filter fun entry => (page entry.page).present).map PageTreeEntry.page)
  left_le : left.length ≤ numNeighbours
  itr_suffix : s.nItr <:+ tree

/-- The neighbours that the loop finds for a page. -/
def foundLeft (page : PageId → TreePage) (x : PageTreeEntry) (left : List PageId) :
    List PageId :=
  keepLeft (fun p => (page p).va) (page x.page).va left

def takenRight (page : PageId → TreePage) (x : PageTreeEntry) (right : List PageId)
    (itr : KbItr) : ℕ :=
  reach (numNeighbours - right.length)
    ((page x.page).va + (right.length + 1) * hugepageSize) itr

def foundRight (page : PageId → TreePage) (x : PageTreeEntry) (right : List PageId)
    (itr : KbItr) : List PageId :=
  right ++ (itr.take (takenRight page x right itr)).map PageTreeEntry.page

theorem Rounds.present (h : Rounds tree page prev before s left right)
    (htracked : Tracked tree page) (htree : tree = before ++ x :: after)
    (hpresent : (page x.page).present = true) (env : ScoreEnv ℚ windowSize) :
    Visited page prev s (visitEntry env prev tree.length s x) x.page (foundLeft page x left)
        (foundRight page x right s.nItr) (takenRight page x right s.nItr) ∧
      Rounds tree page prev (before ++ [x]) (visitEntry env prev tree.length s x)
        ((foundLeft page x left ++ [x.page]).drop
          ((foundLeft page x left).length + 1 - numNeighbours))
        (foundRight page x right s.nItr).tail := by
  have hsuffix : foundLeft page x left <:+ left := keepLeft_suffix _ _ _
  have hback : left.length ≤ s.idx := by
    rw [h.idx_eq]
    calc
      left.length ≤ _ := h.left_sublist.length_le
      _ = (before.filter fun entry => (page entry.page).present).length := List.length_map _
      _ ≤ before.length := List.length_filter_le _ _
  have hidx : s.idx < tree.length := by
    rw [h.idx_eq, htree, List.length_append, List.length_cons]
    omega
  have hvisited := h.window.visitEntry h.left_le hback hidx
    (fun entry hentry => htracked.va_eq entry (h.itr_suffix.mem hentry)) hpresent env
  refine ⟨hvisited, hvisited.window, ?_, ?_, ?_, ?_⟩
  · rw [hvisited.idx_eq, h.idx_eq, List.length_append, List.length_singleton]
  · have hleft : (foundLeft page x left).Sublist
        ((before.filter fun entry => (page entry.page).present).map PageTreeEntry.page) :=
      hsuffix.sublist.trans h.left_sublist
    rw [List.filter_append, List.map_append]
    refine (List.drop_sublist _ _).trans (hleft.append ?_)
    simp [hpresent]
  · rw [List.length_drop, List.length_append, List.length_singleton]
    omega
  · rw [hvisited.nItr_eq]
    exact (List.drop_suffix _ _).trans h.itr_suffix

theorem Rounds.absent (h : Rounds tree page prev before s left right)
    (htree : tree = before ++ x :: after) (habsent : (page x.page).present = false)
    (env : ScoreEnv ℚ windowSize) :
    visitEntry env prev tree.length s x = { s with idx := s.idx + 1 } ∧
      Rounds tree page prev (before ++ [x]) (visitEntry env prev tree.length s x) left right := by
  have hidx : s.idx < tree.length := by
    rw [h.idx_eq, htree, List.length_append, List.length_cons]
    omega
  have hvisit : visitEntry env prev tree.length s x = { s with idx := s.idx + 1 } := by
    unfold visitEntry
    dsimp only
    rw [TreeLoop.assert_of (decide_eq_true hidx), h.window.present_eq, habsent,
      if_neg Bool.false_ne_true]
  refine ⟨hvisit, ?_⟩
  rw [hvisit]
  refine ⟨{ h.window with }, ?_, ?_, h.left_le, h.itr_suffix⟩
  · rw [List.length_append, List.length_singleton, h.idx_eq]
  · rw [List.filter_append, List.map_append, List.filter_cons_of_neg (by simp [habsent]),
      List.filter_nil, List.map_nil, List.append_nil]
    exact h.left_sublist

theorem Rounds.next (h : Rounds tree page prev before s left right)
    (htracked : Tracked tree page) (htree : tree = before ++ x :: after)
    (env : ScoreEnv ℚ windowSize) :
    (∃ left right, Rounds tree page prev (before ++ [x]) (visitEntry env prev tree.length s x)
        left right) ∧
      ∀ p, p ≠ x.page → (visitEntry env prev tree.length s x).page p = s.page p := by
  cases hpresent : (page x.page).present with
  | true =>
      obtain ⟨hvisited, hrounds⟩ := h.present htracked htree hpresent env
      exact ⟨⟨_, _, hrounds⟩, hvisited.page_eq⟩
  | false =>
      obtain ⟨hvisit, hrounds⟩ := h.absent htree hpresent env
      exact ⟨⟨_, _, hrounds⟩, fun p _ => by rw [hvisit]⟩

theorem rounds_treeLoopStart (hl : lNeighbours.capacity = numNeighbours + 2)
    (hr : rNeighbours.capacity = numNeighbours + 2) :
    Rounds tree page prev [] (treeLoopStart tree lNeighbours rNeighbours page) [] [] where
  window :=
    { left_capacity := hl
      right_capacity := hr
      left_holds := holds_ringBufReset (by omega)
      right_holds := holds_ringBufReset (by omega)
      right_le := Nat.zero_le _
      accounts := ⟨rfl, fun type => by simp [treeLoopStart], rfl⟩
      va_eq := fun _ => rfl
      present_eq := fun _ => rfl
      accesses_eq := fun _ => rfl
      faulted := rfl }
  idx_eq := rfl
  left_sublist := List.Sublist.refl _
  left_le := Nat.zero_le _
  itr_suffix := List.tail_suffix tree

/-- The loop from the start over the entries `before`. -/
def passed (env : ScoreEnv ℚ windowSize) (prevAccessVersion : Fin 2)
    (lNeighbours rNeighbours : RingBuf PageId) (tree : List PageTreeEntry)
    (page : PageId → TreePage) (before : List PageTreeEntry) : TreeLoop :=
  before.foldl (visitEntry env prevAccessVersion tree.length)
    (treeLoopStart tree lNeighbours rNeighbours page)

theorem passed_snoc (before : List PageTreeEntry) (x : PageTreeEntry) :
    passed env prev lNeighbours rNeighbours tree page (before ++ [x]) =
      visitEntry env prev tree.length
        (passed env prev lNeighbours rNeighbours tree page before) x := by
  rw [passed, List.foldl_append]
  rfl

theorem exists_rounds (env : ScoreEnv ℚ windowSize) (prev : Fin 2)
    (htracked : Tracked tree page)
    (hl : lNeighbours.capacity = numNeighbours + 2)
    (hr : rNeighbours.capacity = numNeighbours + 2) (htree : tree = before ++ after) :
    ∃ left right, Rounds tree page prev before
      (passed env prev lNeighbours rNeighbours tree page before) left right := by
  induction before using List.reverseRecOn generalizing after with
  | nil => exact ⟨[], [], rounds_treeLoopStart hl hr⟩
  | append_singleton before x ih =>
      rw [List.append_assoc, List.singleton_append] at htree
      obtain ⟨left, right, hrounds⟩ := ih htree
      rw [passed_snoc]
      exact (hrounds.next htracked htree env).1

/-- What the loop writes to a page stays: later rounds write other pages. -/
theorem passed_page (env : ScoreEnv ℚ windowSize) (prev : Fin 2)
    (htracked : Tracked tree page)
    (hl : lNeighbours.capacity = numNeighbours + 2)
    (hr : rNeighbours.capacity = numNeighbours + 2) {middle : List PageTreeEntry} {p : PageId}
    (htree : tree = before ++ middle ++ after) (hp : ∀ entry ∈ middle, entry.page ≠ p) :
    (passed env prev lNeighbours rNeighbours tree page (before ++ middle)).page p =
      (passed env prev lNeighbours rNeighbours tree page before).page p := by
  induction middle using List.reverseRecOn generalizing after with
  | nil => rw [List.append_nil]
  | append_singleton middle x ih =>
      rw [← List.append_assoc, List.append_assoc, List.singleton_append] at htree
      obtain ⟨left, right, hrounds⟩ := exists_rounds env prev htracked hl hr htree
      rw [← List.append_assoc, passed_snoc,
        (hrounds.next htracked htree env).2 p (Ne.symm (hp x (by simp))),
        ih htree fun entry hentry => hp entry (by simp [hentry])]

theorem foldl_zeroAccesses (entries : List PageTreeEntry) (s : TreeLoop) :
    (entries.foldl (zeroAccesses prev) s).smoothAvg = s.smoothAvg ∧
      ∀ p, ((entries.foldl (zeroAccesses prev) s).page p).sAccesses = (s.page p).sAccesses := by
  induction entries generalizing s with
  | nil => exact ⟨rfl, fun _ => rfl⟩
  | cons entry entries ih =>
      rw [List.foldl_cons]
      obtain ⟨havg, hpage⟩ := ih (zeroAccesses prev s entry)
      have hone : ∀ p, ((zeroAccesses prev s entry).page p).sAccesses = (s.page p).sAccesses := by
        intro p
        unfold zeroAccesses
        split
        · by_cases hp : p = entry.page
          · subst hp
            simp
          · simp [Function.update_of_ne hp]
        · rfl
      refine ⟨havg.trans ?_, fun p => (hpage p).trans (hone p)⟩
      unfold zeroAccesses
      split <;> rfl

theorem calculateScoresTree_eq :
    (calculateScoresTree env prev lNeighbours rNeighbours tree page).smoothAvg =
        (passed env prev lNeighbours rNeighbours tree page tree).smoothAvg ∧
      ∀ p, ((calculateScoresTree env prev lNeighbours rNeighbours tree page).page p).sAccesses =
        ((passed env prev lNeighbours rNeighbours tree page tree).page p).sAccesses := by
  unfold calculateScoresTree
  dsimp only
  split
  · next hempty =>
      rw [List.length_eq_zero_iff.mp hempty]
      exact ⟨rfl, fun _ => rfl⟩
  · exact foldl_zeroAccesses tree _

theorem not_underflowed (htracked : Tracked tree page)
    (hl : lNeighbours.capacity = numNeighbours + 2)
    (hr : rNeighbours.capacity = numNeighbours + 2) :
    (calculateScoresTree env prev lNeighbours rNeighbours tree page).smoothAvg.underflowed =
      false := by
  obtain ⟨left, right, hrounds⟩ := exists_rounds env prev htracked hl hr
    (List.append_nil tree).symm
  rw [calculateScoresTree_eq.1]
  exact hrounds.window.accounts.kept

/-- The smoothed count of a page is the mean over the neighbours found. -/
theorem sAccesses_eq (htracked : Tracked tree page)
    (hl : lNeighbours.capacity = numNeighbours + 2)
    (hr : rNeighbours.capacity = numNeighbours + 2) (htree : tree = before ++ x :: after)
    (hpresent : (page x.page).present = true)
    (hrounds : Rounds tree page prev before
      (passed env prev lNeighbours rNeighbours tree page before) left right) (type : PbufType) :
    ((calculateScoresTree env prev lNeighbours rNeighbours tree page).page x.page).sAccesses
        type =
      mean ((foundLeft page x left ++ x.page :: foundRight page x right
        (passed env prev lNeighbours rNeighbours tree page before).nItr).map
          (previousCounts prev page · type)) := by
  have hsplit : tree = (before ++ [x]) ++ after ++ [] := by simp [htree]
  have hothers : ∀ entry ∈ after, entry.page ≠ x.page := by
    intro entry hentry
    have hsorted := htracked.sorted
    rw [htree, List.pairwise_append, List.pairwise_cons] at hsorted
    exact htracked.page_ne (by simp [htree, hentry]) (by simp [htree])
      (Nat.ne_of_gt (hsorted.2.1.1 entry hentry))
  have hpage := passed_page env prev htracked hl hr hsplit hothers
  rw [← List.append_nil (before ++ [x] ++ after), ← hsplit, passed_snoc] at hpage
  rw [calculateScoresTree_eq.2, hpage]
  exact (hrounds.present htracked htree hpresent env).1.smoothed type

/-! ## Before the first gap -/

/-- The tree up to its first gap, and the entries behind it. -/
structure FirstRun (tree : List PageTreeEntry) (next : ℕ) (run rest : List PageTreeEntry) :
    Prop where
  tree_eq : tree = run ++ rest
  runs : RunFrom next run
  gap : ∀ entry ∈ rest.head?, entry.va ≠ next + run.length * hugepageSize

/-- In the first run the window streams: on the left the last pages passed, on
the right `ahead` pages already brought in. -/
def Streaming (tree : List PageTreeEntry) (page : PageId → TreePage) (prevAccessVersion : Fin 2)
    (run rest : List PageTreeEntry) (i : ℕ) (s : TreeLoop) : Prop :=
  ∃ ahead ≤ numNeighbours, ahead ≤ run.length - (i + 1) ∧
    Rounds tree page prevAccessVersion (run.take i) s
      (((run.take i).drop (i - numNeighbours)).map PageTreeEntry.page)
      (((run.drop (i + 1)).take ahead).map PageTreeEntry.page) ∧
    s.nItr = run.drop (i + 1 + ahead) ++ rest

variable {run rest : List PageTreeEntry} {base i : ℕ}

theorem one_le_numNeighbours : 1 ≤ numNeighbours := by decide

theorem FirstRun.split (h : FirstRun tree base run rest) (hi : i < run.length) :
    tree = run.take i ++ run[i] :: (run.drop (i + 1) ++ rest) := by
  rw [← List.cons_append, List.getElem_cons_drop hi, ← List.append_assoc, List.take_append_drop]
  exact h.tree_eq

theorem FirstRun.mem (h : FirstRun tree base run rest) {entry : PageTreeEntry}
    (hentry : entry ∈ run) : entry ∈ tree := by
  rw [h.tree_eq]
  exact List.mem_append_left _ hentry

theorem FirstRun.page_va (h : FirstRun tree base run rest) (htracked : Tracked tree page)
    (hi : i < run.length) : (page run[i].page).va = base + i * hugepageSize := by
  rw [htracked.va_eq _ (h.mem (List.getElem_mem hi)), h.runs.va_eq i hi]

theorem Streaming.found (h : Streaming tree page prev run rest i s) (hi : i < run.length)
    (hfirst : FirstRun tree base run rest) (htracked : Tracked tree page) :
    ∃ left right, Rounds tree page prev (run.take i) s left right ∧
      foundLeft page run[i] left =
        ((run.take i).drop (i - numNeighbours)).map PageTreeEntry.page ∧
      foundRight page run[i] right s.nItr =
        ((run.drop (i + 1)).take numNeighbours).map PageTreeEntry.page ∧
      s.nItr.drop (takenRight page run[i] right s.nItr) =
        run.drop (i + 1 + min numNeighbours (run.length - (i + 1))) ++ rest := by
  obtain ⟨ahead, hahead, hlength, hrounds, hitr⟩ := h
  have hva := hfirst.page_va htracked hi
  refine ⟨_, _, hrounds, ?_, ?_⟩
  · have hleftLength : ((run.take i).drop (i - numNeighbours)).length =
        i - (i - numNeighbours) := by
      rw [List.length_drop, List.length_take_of_le hi.le]
    have hx : base + i * hugepageSize = base + (i - numNeighbours) * hugepageSize +
        ((run.take i).drop (i - numNeighbours)).length * hugepageSize := by
      rw [hleftLength, Nat.add_assoc, ← Nat.add_mul]
      congr 2
      omega
    rw [foundLeft, hva, hx]
    refine keepLeft_run ((hfirst.runs.take i).drop (i - numNeighbours)) ?_
    intro entry hentry
    exact htracked.va_eq entry (hfirst.mem (List.mem_of_mem_take (List.mem_of_mem_drop hentry)))
  · have haheadLength : (((run.drop (i + 1)).take ahead).map PageTreeEntry.page).length =
        ahead := by
      rw [List.length_map, List.length_take, List.length_drop, Nat.min_eq_left hlength]
    have hnext : base + i * hugepageSize + (ahead + 1) * hugepageSize =
        base + (i + 1 + ahead) * hugepageSize := by
      ring
    have htaken : takenRight page run[i] (((run.drop (i + 1)).take ahead).map PageTreeEntry.page)
        s.nItr = min (numNeighbours - ahead) (run.length - (i + 1 + ahead)) := by
      rw [takenRight, haheadLength, hva, hnext, hitr, reach_run (hfirst.runs.drop (i + 1 + ahead)),
        List.length_drop]
      intro entry hentry heq
      apply hfirst.gap entry hentry
      rw [heq, List.length_drop, Nat.add_assoc, ← Nat.add_mul]
      congr 2
      omega
    have hsum : ahead + min (numNeighbours - ahead) (run.length - (i + 1 + ahead)) =
        min numNeighbours (run.length - (i + 1)) := by
      omega
    have hfits : min (numNeighbours - ahead) (run.length - (i + 1 + ahead)) ≤
        (run.drop (i + 1 + ahead)).length := by
      rw [List.length_drop]
      exact Nat.min_le_right _ _
    have hdrop : run.drop (i + 1 + ahead) = (run.drop (i + 1)).drop ahead := List.drop_drop.symm
    constructor
    · rw [foundRight, htaken, hitr, List.take_append_of_le_length hfits, hdrop,
        ← List.map_append, ← List.take_add, hsum, ← List.length_drop, ← List.take_take,
        List.take_length]
    · rw [htaken, hitr, List.drop_append_of_le_length hfits, List.drop_drop, Nat.add_assoc, hsum]

theorem Streaming.next (h : Streaming tree page prev run rest i s) (hi : i < run.length)
    (hfirst : FirstRun tree base run rest) (htracked : Tracked tree page)
    (hpresent : (page run[i].page).present = true) (env : ScoreEnv ℚ windowSize) :
    Streaming tree page prev run rest (i + 1) (visitEntry env prev tree.length s run[i]) := by
  have hone := one_le_numNeighbours
  obtain ⟨left, right, hrounds, hleft, hright, hdrop⟩ := h.found hi hfirst htracked
  obtain ⟨hvisited, hnext⟩ := hrounds.present htracked (hfirst.split hi) hpresent env
  rw [hleft, hright] at hnext
  refine ⟨min numNeighbours (run.length - (i + 1)) - 1, by omega, by omega, ?_, ?_⟩
  · rw [List.take_succ_eq_append_getElem hi]
    convert hnext using 1
    · have hlength : ((run.take i).drop (i - numNeighbours)).length =
          i - (i - numNeighbours) := by
        rw [List.length_drop, List.length_take_of_le hi.le]
      rw [List.length_map, hlength, ← List.map_singleton, ← List.map_append, ← List.map_drop,
        List.drop_append_of_le_length (by rw [List.length_take_of_le hi.le]; omega),
        List.drop_append_of_le_length (by omega), List.drop_drop]
      congr 4
      omega
    · rw [← List.map_tail, List.tail_take_eq_take_tail, List.tail_drop]
      congr 1
      rw [List.take_eq_take_iff, List.length_drop]
      omega
  · rw [hvisited.nItr_eq, hdrop]
    congr 1
    obtain hend | hmore := Nat.eq_zero_or_pos (run.length - (i + 1))
    · rw [List.drop_eq_nil_of_le (by omega), List.drop_eq_nil_of_le (by omega)]
    · congr 1
      omega

theorem streaming_passed (env : ScoreEnv ℚ windowSize) (prev : Fin 2)
    (htracked : Tracked tree page) (hl : lNeighbours.capacity = numNeighbours + 2)
    (hr : rNeighbours.capacity = numNeighbours + 2) (hfirst : FirstRun tree base run rest)
    (hne : run ≠ []) (hi : i ≤ run.length)
    (hpresent : ∀ entry ∈ run.take i, (page entry.page).present = true) :
    Streaming tree page prev run rest i
      (passed env prev lNeighbours rNeighbours tree page (run.take i)) := by
  induction i with
  | zero =>
      refine ⟨0, Nat.zero_le _, Nat.zero_le _, ?_, ?_⟩
      · simpa [passed] using rounds_treeLoopStart hl hr
      · obtain ⟨x, run, rfl⟩ := List.exists_cons_of_ne_nil hne
        simp [passed, treeLoopStart, hfirst.tree_eq]
  | succ i ih =>
      rw [List.take_succ_eq_append_getElem hi] at hpresent ⊢
      rw [passed_snoc]
      have hstreaming := ih (Nat.le_of_succ_le hi) fun entry hentry =>
        hpresent entry (List.mem_append_left _ hentry)
      exact hstreaming.next hi hfirst htracked
        (hpresent _ (List.mem_append_right _ List.mem_cons_self)) env

/-! ## Behind the first gap -/

/-- The second iterator is not in front of any page still to come. -/
structure Stuck (tree : List PageTreeEntry) (page : PageId → TreePage)
    (prevAccessVersion : Fin 2) (before after : List PageTreeEntry) (s : TreeLoop)
    (left : List PageId) : Prop where
  rounds : Rounds tree page prevAccessVersion before s left []
  itr_le : ∀ entry ∈ s.nItr.head?, ∀ x ∈ after, entry.va ≤ x.va

theorem Stuck.found (h : Stuck tree page prev before (x :: after) s left)
    (htracked : Tracked tree page) (htree : tree = before ++ x :: after) :
    takenRight page x [] s.nItr = 0 ∧ foundRight page x [] s.nItr = [] := by
  have htaken : takenRight page x [] s.nItr = 0 := by
    apply reach_passed
    intro entry hentry
    have hle := h.itr_le entry hentry x List.mem_cons_self
    have hpos : 0 < hugepageSize := by decide
    rw [htracked.va_eq x (by simp [htree]), List.length_nil]
    omega
  refine ⟨htaken, ?_⟩
  rw [foundRight, htaken]
  rfl

theorem Stuck.next (h : Stuck tree page prev before (x :: after) s left)
    (htracked : Tracked tree page) (htree : tree = before ++ x :: after)
    (env : ScoreEnv ℚ windowSize) :
    ∃ left, Stuck tree page prev (before ++ [x]) after (visitEntry env prev tree.length s x)
      left := by
  have hitr : ∀ {itr : KbItr}, itr = s.nItr →
      ∀ entry ∈ itr.head?, ∀ y ∈ after, entry.va ≤ y.va := by
    intro itr hitr entry hentry y hy
    rw [hitr] at hentry
    exact h.itr_le entry hentry y (List.mem_cons_of_mem _ hy)
  cases hpresent : (page x.page).present with
  | true =>
      obtain ⟨hvisited, hrounds⟩ := h.rounds.present htracked htree hpresent env
      obtain ⟨htaken, hright⟩ := h.found htracked htree
      rw [hright] at hrounds
      exact ⟨_, hrounds, hitr (by rw [hvisited.nItr_eq, htaken, List.drop_zero])⟩
  | false =>
      obtain ⟨hvisit, hrounds⟩ := h.rounds.absent htree hpresent env
      exact ⟨left, hrounds, hitr (by rw [hvisit])⟩

theorem exists_stuck (htracked : Tracked tree page) {middle : List PageTreeEntry}
    (h : ∃ left, Stuck tree page prev before (middle ++ after)
      (passed env prev lNeighbours rNeighbours tree page before) left)
    (htree : tree = before ++ middle ++ after) :
    ∃ left, Stuck tree page prev (before ++ middle) after
      (passed env prev lNeighbours rNeighbours tree page (before ++ middle)) left := by
  induction middle using List.reverseRecOn generalizing after with
  | nil => simpa using h
  | append_singleton middle x ih =>
      rw [List.append_assoc, List.singleton_append] at h
      rw [← List.append_assoc, List.append_assoc, List.singleton_append] at htree
      obtain ⟨left, hstuck⟩ := ih h htree
      rw [← List.append_assoc, passed_snoc]
      exact hstuck.next htracked htree env

theorem stuck_of_first_absent (env : ScoreEnv ℚ windowSize) (prev : Fin 2)
    (hl : lNeighbours.capacity = numNeighbours + 2)
    (hr : rNeighbours.capacity = numNeighbours + 2) (htracked : Tracked tree page)
    (htree : tree = x :: after) (habsent : (page x.page).present = false) :
    ∃ left, Stuck tree page prev [x] after
      (passed env prev lNeighbours rNeighbours tree page [x]) left := by
  obtain ⟨hvisit, hrounds⟩ := (rounds_treeLoopStart hl hr).absent htree habsent env
  refine ⟨[], hrounds, ?_⟩
  have hitr : (passed env prev lNeighbours rNeighbours tree page [x]).nItr = after := by
    rw [← List.nil_append [x], passed_snoc]
    exact (congrArg TreeLoop.nItr hvisit).trans (by simp [treeLoopStart, htree])
  rw [hitr]
  have hsorted := htracked.sorted
  rw [htree, List.pairwise_cons] at hsorted
  cases after with
  | nil => simp
  | cons y after =>
      intro entry hentry z hz
      rw [List.head?_cons, Option.mem_some_iff] at hentry
      subst hentry
      obtain rfl | hz := List.mem_cons.mp hz
      · exact le_rfl
      · exact (List.rel_of_pairwise_cons hsorted.2 hz).le

theorem stuck_of_first_run (env : ScoreEnv ℚ windowSize) (prev : Fin 2)
    (hl : lNeighbours.capacity = numNeighbours + 2)
    (hr : rNeighbours.capacity = numNeighbours + 2) (htracked : Tracked tree page)
    (hfirst : FirstRun tree base run rest) (hne : run ≠ [])
    (hpresent : ∀ entry ∈ run, (page entry.page).present = true) :
    ∃ left, Stuck tree page prev run rest
      (passed env prev lNeighbours rNeighbours tree page run) left := by
  obtain ⟨ahead, -, -, hrounds, hitr⟩ := streaming_passed env prev htracked hl hr hfirst hne le_rfl
    (by simpa using hpresent)
  rw [List.take_length, List.drop_eq_nil_of_le (Nat.le_succ _), List.take_nil, List.map_nil]
    at hrounds
  rw [List.take_length, List.drop_eq_nil_of_le (by omega), List.nil_append] at hitr
  refine ⟨_, hrounds, ?_⟩
  rw [hitr]
  have hsorted := htracked.sorted
  rw [hfirst.tree_eq, List.pairwise_append] at hsorted
  cases rest with
  | nil => simp
  | cons y after =>
      intro entry hentry z hz
      rw [List.head?_cons, Option.mem_some_iff] at hentry
      subst hentry
      obtain rfl | hz := List.mem_cons.mp hz
      · exact le_rfl
      · exact (List.rel_of_pairwise_cons hsorted.2.1 hz).le

/-! ## The neighbourhoods -/

theorem FirstRun.joined (h : FirstRun tree base run rest) (k : ℕ) {j : ℕ}
    (hj : j < run.length) :
    Joined tree (base + k * hugepageSize) (base + j * hugepageSize) := by
  intro m hm
  have hmk : k + m < run.length := by
    unfold hugepageSize at hm
    omega
  refine List.mem_map.mpr ⟨run[k + m], h.mem (List.getElem_mem hmk), ?_⟩
  rw [h.runs.va_eq _ hmk]
  ring

theorem aligned_beyond {low high size k : ℕ} (hlow : low % size = 0) (hhigh : high % size = 0)
    (hle : low + k * size ≤ high) (hne : high ≠ low + k * size) :
    low + (k + 1) * size ≤ high := by
  have hdvd : size ∣ high - (low + k * size) :=
    Nat.dvd_sub (Nat.dvd_of_mod_eq_zero hhigh)
      (Nat.dvd_add (Nat.dvd_of_mod_eq_zero hlow) (Nat.dvd_mul_left size k))
  have hsize := Nat.le_of_dvd (by omega) hdvd
  rw [Nat.succ_mul]
  omega

theorem FirstRun.beyond (h : FirstRun tree base run rest) (htracked : Tracked tree page)
    (hne : run ≠ []) {entry : PageTreeEntry} (hentry : entry ∈ rest) :
    base + (run.length + 1) * hugepageSize ≤ entry.va := by
  have hpos : 0 < run.length := List.length_pos_of_ne_nil hne
  have hapart := htracked.apart
  have hsorted := htracked.sorted
  rw [h.tree_eq, List.pairwise_append] at hapart hsorted
  obtain ⟨y, after, rfl⟩ := List.exists_cons_of_ne_nil (List.ne_nil_of_mem hentry)
  have hhead : base + run.length * hugepageSize ≤ y.va := by
    have hle := hapart.2.2 _ (List.getElem_mem (Nat.sub_lt hpos Nat.one_pos)) y
      List.mem_cons_self
    rw [h.runs.va_eq] at hle
    have hlast : base + run.length * hugepageSize =
        base + (run.length - 1) * hugepageSize + hugepageSize := by
      rw [Nat.add_assoc, ← Nat.succ_mul, Nat.succ_eq_add_one, Nat.sub_add_cancel hpos]
    rwa [hlast]
  have hgap := h.gap y (by simp)
  have hbase : base % hugepageSize = 0 := by
    have hfirst := htracked.aligned _ (h.mem (List.getElem_mem hpos))
    rwa [h.runs.va_eq, Nat.zero_mul, Nat.add_zero] at hfirst
  have hy := htracked.aligned y (by simp [h.tree_eq])
  have hyle : y.va ≤ entry.va := by
    obtain rfl | hafter := List.mem_cons.mp hentry
    · exact le_rfl
    · exact (List.rel_of_pairwise_cons hsorted.2.1 hafter).le
  exact (aligned_beyond hbase hy hhead hgap).trans hyle

theorem FirstRun.not_joined (h : FirstRun tree base run rest) (htracked : Tracked tree page)
    (hi : i < run.length) {entry : PageTreeEntry} (hentry : entry ∈ rest) :
    ¬Joined tree (base + i * hugepageSize) entry.va := by
  intro hjoined
  have hne : run ≠ [] := List.ne_nil_of_length_pos (by omega)
  have hbeyond := h.beyond htracked hne hentry
  have hgap : run.length - i < (entry.va - (base + i * hugepageSize)) / hugepageSize := by
    unfold hugepageSize at *
    omega
  obtain ⟨other, hother, hva⟩ := List.mem_map.mp (hjoined (run.length - i) hgap)
  have hva' : other.va = base + run.length * hugepageSize := by
    rw [hva, Nat.add_assoc, ← Nat.add_mul, Nat.add_sub_cancel' hi.le]
  rw [h.tree_eq] at hother
  obtain hrun | hrest := List.mem_append.mp hother
  · obtain ⟨k, hk, rfl⟩ := List.mem_iff_getElem.mp hrun
    rw [h.runs.va_eq k hk] at hva'
    unfold hugepageSize at hva'
    omega
  · have hle := h.beyond htracked hne hrest
    unfold hugepageSize at *
    omega

theorem FirstRun.near_iff (h : FirstRun tree base run rest) (hi : i < run.length) {k : ℕ}
    (hk : k < run.length) :
    Near tree run[i].va run[k] ↔ k ≤ i + numNeighbours ∧ i ≤ k + numNeighbours := by
  rw [Near, h.runs.va_eq i hi, h.runs.va_eq k hk]
  have hik := h.joined i hk
  have hki := h.joined k hi
  simp only [hik, hki, true_and]
  unfold hugepageSize
  omega

theorem FirstRun.neighbourhood_eq (h : FirstRun tree base run rest)
    (htracked : Tracked tree page) (hi : i < run.length)
    (hpresent : ∀ entry ∈ run, (page entry.page).present = true) :
    neighbourhood tree page run[i].va =
      ((run.take i).drop (i - numNeighbours)).map PageTreeEntry.page ++
        run[i].page :: ((run.drop (i + 1)).take numNeighbours).map PageTreeEntry.page := by
  have hmem : ∀ (k : ℕ) (hk : k < run.length),
      ((page run[k].page).present && decide (Near tree run[i].va run[k])) =
        decide (k ≤ i + numNeighbours ∧ i ≤ k + numNeighbours) := by
    intro k hk
    rw [hpresent _ (List.getElem_mem hk), Bool.true_and]
    exact decide_eq_decide.mpr (h.near_iff hi hk)
  have hbefore : (run.take i).filter (fun entry => (page entry.page).present &&
      decide (Near tree run[i].va entry)) = (run.take i).drop (i - numNeighbours) := by
    conv_lhs => rw [← List.take_append_drop (i - numNeighbours) (run.take i)]
    rw [List.filter_append, List.filter_eq_nil_iff.mpr, List.nil_append,
      List.filter_eq_self.mpr]
    · intro entry hentry
      obtain ⟨k, hk, rfl⟩ := List.mem_drop_iff_getElem.mp hentry
      rw [List.getElem_take, hmem, decide_eq_true_iff]
      rw [List.length_take] at hk
      omega
    · intro entry hentry
      obtain ⟨k, hk, rfl⟩ := List.mem_take_iff_getElem.mp hentry
      rw [List.getElem_take, hmem, decide_eq_true_iff]
      omega
  have hbehind : (run.drop (i + 1)).filter (fun entry => (page entry.page).present &&
      decide (Near tree run[i].va entry)) = (run.drop (i + 1)).take numNeighbours := by
    conv_lhs => rw [← List.take_append_drop numNeighbours (run.drop (i + 1))]
    rw [List.filter_append, List.filter_eq_self.mpr, List.filter_eq_nil_iff.mpr,
      List.append_nil]
    · intro entry hentry
      obtain ⟨k, hk, rfl⟩ := List.mem_drop_iff_getElem.mp hentry
      rw [List.getElem_drop, hmem, decide_eq_true_iff]
      omega
    · intro entry hentry
      obtain ⟨k, hk, rfl⟩ := List.mem_take_iff_getElem.mp hentry
      rw [List.getElem_drop, hmem, decide_eq_true_iff]
      omega
  have hrest : rest.filter (fun entry => (page entry.page).present &&
      decide (Near tree run[i].va entry)) = [] := by
    rw [List.filter_eq_nil_iff]
    intro entry hentry hnear
    rw [Bool.and_eq_true, decide_eq_true_iff] at hnear
    have hjoined := hnear.2.1
    rw [h.runs.va_eq i hi] at hjoined
    exact h.not_joined htracked hi hentry hjoined
  have hself : ((page run[i].page).present && decide (Near tree run[i].va run[i])) = true := by
    rw [hmem i hi, decide_eq_true_iff]
    omega
  have hfilter : tree.filter (fun entry => (page entry.page).present &&
      decide (Near tree run[i].va entry)) =
        (run.take i).drop (i - numNeighbours) ++
          run[i] :: (run.drop (i + 1)).take numNeighbours := by
    refine (congrArg (List.filter _) (h.split hi)).trans ?_
    rw [List.filter_append, hbefore, List.filter_cons, if_pos hself, List.filter_append, hbehind,
      hrest, List.append_nil]
  rw [neighbourhood, hfilter, List.map_append, List.map_cons]

/-- A page without neighbours, behind the first gap. -/
theorem Stuck.lonely (h : Stuck tree page prev before (x :: after) s left)
    (htracked : Tracked tree page) (htree : tree = before ++ x :: after)
    (hpresent : (page x.page).present = true)
    (hlonely : ∀ entry ∈ tree, (page entry.page).present = true → Near tree x.va entry →
      entry.va = x.va) :
    foundLeft page x left = [] ∧ neighbourhood tree page x.va = [x.page] := by
  have hx : x ∈ tree := by simp [htree]
  have hsorted := htracked.sorted
  have hapart := htracked.apart
  rw [htree, List.pairwise_append, List.pairwise_cons] at hsorted hapart
  constructor
  · by_contra hkeep
    have hpages : ∀ entry ∈ before, (page entry.page).va = entry.va := fun entry hentry =>
      htracked.va_eq entry (by simp [htree, hentry])
    have hbefore : ((before.filter fun entry => (page entry.page).present).map
        PageTreeEntry.page).Pairwise fun p q => (page p).va + hugepageSize ≤ (page q).va := by
      rw [List.pairwise_map]
      refine (hapart.1.sublist List.filter_sublist).imp_of_mem ?_
      intro e f he hf hef
      rw [hpages e (List.mem_of_mem_filter he), hpages f (List.mem_of_mem_filter hf)]
      exact hef
    have hfrom : ∀ p ∈ left, ∃ entry ∈ before, (page entry.page).present = true ∧
        entry.page = p := by
      intro p hp
      obtain ⟨entry, hentry, hpage⟩ := List.mem_map.mp (h.rounds.left_sublist.mem hp)
      exact ⟨entry, List.mem_of_mem_filter hentry, (List.mem_filter.mp hentry).2, hpage⟩
    obtain ⟨p, hp, hadjacent⟩ := exists_adjacent_of_keepLeft
      (hbefore.sublist h.rounds.left_sublist) (fun p hp => by
        obtain ⟨entry, hentry, -, rfl⟩ := hfrom p hp
        rw [hpages entry hentry, htracked.va_eq x hx]
        exact hapart.2.2 entry hentry x List.mem_cons_self) hkeep
    obtain ⟨entry, hentry, hentryPresent, rfl⟩ := hfrom p hp
    have hmem : entry ∈ tree := by simp [htree, hentry]
    rw [hpages entry hentry, htracked.va_eq x hx] at hadjacent
    have hnear : Near tree x.va entry := by
      refine ⟨?_, ?_, ?_, ?_⟩
      · intro k hk
        unfold hugepageSize at hadjacent hk
        omega
      · intro k hk
        have hzero : k = 0 := by
          unfold hugepageSize at hadjacent hk
          omega
        rw [hzero, Nat.zero_mul, Nat.add_zero]
        exact List.mem_map_of_mem hmem
      · omega
      · unfold numNeighbours
        omega
    have heq := hlonely entry hmem hentryPresent hnear
    unfold hugepageSize at hadjacent
    omega
  · have hself : Near tree x.va x := by
      refine ⟨?_, ?_, Nat.le_add_right _ _, Nat.le_add_right _ _⟩ <;>
      · intro k hk
        rw [Nat.sub_self, Nat.zero_div] at hk
        exact absurd hk (Nat.not_lt_zero k)
    have hothers : ∀ entry ∈ tree, entry.va ≠ x.va →
        ¬((page entry.page).present && decide (Near tree x.va entry)) = true := by
      intro entry hentry hne hnear
      rw [Bool.and_eq_true, decide_eq_true_iff] at hnear
      exact hne (hlonely entry hentry hnear.1 hnear.2)
    have hfilter : tree.filter (fun entry => (page entry.page).present &&
        decide (Near tree x.va entry)) = [x] := by
      refine (congrArg (List.filter _) htree).trans ?_
      rw [List.filter_append, List.filter_cons, if_pos (by simp [hpresent, hself]),
        List.filter_eq_nil_iff.mpr, List.filter_eq_nil_iff.mpr, List.nil_append]
      · intro entry hentry
        exact hothers entry (by simp [htree, hentry])
          (Nat.ne_of_gt (hsorted.2.1.1 entry hentry))
      · intro entry hentry
        exact hothers entry (by simp [htree, hentry])
          (Nat.ne_of_lt (hsorted.2.2 entry hentry x List.mem_cons_self))
    rw [neighbourhood, hfilter, List.map_singleton]

theorem FirstRun.ne_nil {first : PageTreeEntry} {others : List PageTreeEntry}
    (h : FirstRun (first :: others) first.va run rest) : run ≠ [] := by
  intro hempty
  have htree := h.tree_eq
  have hgap := h.gap first
  rw [hempty, List.nil_append] at htree
  rw [hempty, List.length_nil, Nat.zero_mul, ← htree] at hgap
  exact hgap (by simp) rfl

theorem FirstRun.mem_run_of_joined {first : PageTreeEntry} {others : List PageTreeEntry}
    (h : FirstRun (first :: others) first.va run rest)
    (htracked : Tracked (first :: others) page) {entry : PageTreeEntry}
    (hentry : entry ∈ first :: others) (hjoined : Joined (first :: others) first.va entry.va) :
    entry ∈ run := by
  have hmem := hentry
  rw [h.tree_eq] at hmem
  obtain hrun | hrest := List.mem_append.mp hmem
  · exact hrun
  · refine absurd ?_ (h.not_joined htracked (List.length_pos_of_ne_nil h.ne_nil) hrest)
    rwa [Nat.zero_mul, Nat.add_zero]

theorem FirstRun.joined_of_mem_run {first : PageTreeEntry} {others : List PageTreeEntry}
    (h : FirstRun (first :: others) first.va run rest) {entry : PageTreeEntry}
    (hentry : entry ∈ run) : Joined (first :: others) first.va entry.va := by
  obtain ⟨k, hk, rfl⟩ := List.mem_iff_getElem.mp hentry
  have hjoined := h.joined 0 hk
  rwa [Nat.zero_mul, Nat.add_zero, ← h.runs.va_eq k hk] at hjoined

/-- A page outside a first run that is wholly present is met behind the gap. -/
theorem exists_stuck_at (env : ScoreEnv ℚ windowSize) (prev : Fin 2) {first : PageTreeEntry}
    {others : List PageTreeEntry} (hl : lNeighbours.capacity = numNeighbours + 2)
    (hr : rNeighbours.capacity = numNeighbours + 2)
    (htracked : Tracked (first :: others) page)
    (hfirst : FirstRun (first :: others) first.va run rest) (hx : x ∈ first :: others)
    (hpresent : (page x.page).present = true)
    (houtside : (page first.page).present = true →
      (∀ entry ∈ run, (page entry.page).present = true) ∧ x ∉ run) :
    ∃ before after left, first :: others = before ++ x :: after ∧
      Stuck (first :: others) page prev before (x :: after)
        (passed env prev lNeighbours rNeighbours (first :: others) page before) left := by
  cases hfirstPresent : (page first.page).present with
  | false =>
      obtain rfl | hx := List.mem_cons.mp hx
      · rw [hpresent] at hfirstPresent
        exact absurd hfirstPresent.symm Bool.false_ne_true
      · obtain ⟨middle, after, rfl⟩ := List.append_of_mem hx
        have htree : first :: (middle ++ x :: after) = [first] ++ middle ++ (x :: after) := by
          simp
        obtain ⟨left, hstuck⟩ := exists_stuck htracked
          (stuck_of_first_absent env prev hl hr htracked rfl hfirstPresent) htree
        exact ⟨_, _, left, htree, hstuck⟩
  | true =>
      obtain ⟨hrun, hnot⟩ := houtside hfirstPresent
      rw [hfirst.tree_eq] at hx
      obtain hx | hx := List.mem_append.mp hx
      · exact absurd hx hnot
      · obtain ⟨middle, after, rfl⟩ := List.append_of_mem hx
        have htree : first :: others = run ++ middle ++ (x :: after) := by
          rw [hfirst.tree_eq, List.append_assoc]
        obtain ⟨left, hstuck⟩ := exists_stuck htracked
          (stuck_of_first_run env prev hl hr htracked hfirst hfirst.ne_nil hrun) htree
        exact ⟨_, _, left, htree, hstuck⟩

end Rounds

/-! ## Exactly the smoothable layouts -/

/-- One sample of each type on one page. -/
def markCounts (marked : PageId) (p : PageId) (_ : PbufType) : UInt16 :=
  if p = marked then 1 else 0

section Counts

variable {env : ScoreEnv ℚ windowSize} {prev : Fin 2} {tree : List PageTreeEntry}
  {page : PageId → TreePage} {lNeighbours rNeighbours : RingBuf PageId}
  {counts : PageId → PbufType → UInt16} {marked : PageId}

theorem Tracked.withCounts (h : Tracked tree page) (prev : Fin 2)
    (counts : PageId → PbufType → UInt16) : Tracked tree (withCounts prev counts page) :=
  ⟨h.sorted, h.aligned, h.va_eq⟩

theorem previousCounts_markCounts (p : PageId) (type : PbufType) :
    previousCounts prev (withCounts prev (markCounts marked) page) p type =
      if p = marked then 1 else 0 := by
  by_cases hp : p = marked <;> simp [previousCounts, withCounts, markCounts, hp]

theorem sum_mark (pages : List PageId) :
    (pages.map fun p => if p = marked then (1 : ℚ) else 0).sum = pages.count marked := by
  induction pages with
  | nil => simp
  | cons p pages ih =>
      rw [List.map_cons, List.sum_cons, ih, List.count_cons]
      by_cases hp : p = marked
      · simp [hp, add_comm]
      · simp [hp]

theorem mean_mark_ne_zero_iff (pages : List PageId) :
    mean (pages.map fun p => if p = marked then (1 : ℚ) else 0) ≠ 0 ↔ marked ∈ pages := by
  rw [mean, sum_mark, List.length_map, Ne, div_eq_zero_iff, not_or, Nat.cast_eq_zero,
    Nat.cast_eq_zero, List.count_eq_zero, not_not, List.length_eq_zero_iff]
  exact ⟨fun h => h.1, fun h => ⟨h, List.ne_nil_of_mem h⟩⟩

/-- Where the mean is exact for a sample on one page, the loop averages over that
page just when it is in the neighbourhood. -/
theorem mem_found_iff {before after : List PageTreeEntry} {x : PageTreeEntry}
    {left right : List PageId} (htracked : Tracked tree page)
    (hl : lNeighbours.capacity = numNeighbours + 2)
    (hr : rNeighbours.capacity = numNeighbours + 2)
    (hexact : SmoothsExactly env prev lNeighbours rNeighbours tree
      (withCounts prev (markCounts marked) page))
    (htree : tree = before ++ x :: after) (hpresent : (page x.page).present = true)
    (hrounds : Rounds tree (withCounts prev (markCounts marked) page) prev before
      (passed env prev lNeighbours rNeighbours tree
        (withCounts prev (markCounts marked) page) before) left right) :
    marked ∈ foundLeft (withCounts prev (markCounts marked) page) x left ++
        x.page :: foundRight (withCounts prev (markCounts marked) page) x right
          (passed env prev lNeighbours rNeighbours tree
            (withCounts prev (markCounts marked) page) before).nItr ↔
      marked ∈ neighbourhood tree page x.va := by
  have hvalue := sAccesses_eq (htracked.withCounts _ _) hl hr htree hpresent hrounds .dramread
  rw [hexact.2 x (by simp [htree]) hpresent .dramread] at hvalue
  simp only [previousCounts_markCounts] at hvalue
  rw [← mean_mark_ne_zero_iff, ← hvalue, mean_mark_ne_zero_iff]
  exact Iff.rfl

theorem near_of_joined {x y : PageTreeEntry} (hlt : x.va < y.va)
    (hclose : y.va ≤ x.va + numNeighbours * hugepageSize) (hjoined : Joined tree x.va y.va) :
    Near tree x.va y := by
  refine ⟨hjoined, ?_, hclose, by omega⟩
  intro k hk
  rw [Nat.sub_eq_zero_of_le hlt.le, Nat.zero_div] at hk
  exact absurd hk (Nat.not_lt_zero k)

variable {first : PageTreeEntry} {others run rest : List PageTreeEntry}

/-- Exact means make the first run wholly present, if its first page is. -/
theorem run_present_of_exact (htracked : Tracked (first :: others) page)
    (hl : lNeighbours.capacity = numNeighbours + 2)
    (hr : rNeighbours.capacity = numNeighbours + 2)
    (hfirst : FirstRun (first :: others) first.va run rest)
    (hexact : ∀ counts, SmoothsExactly env prev lNeighbours rNeighbours (first :: others)
      (withCounts prev counts page))
    (hpresent : (page first.page).present = true) {i : ℕ} (hi : i ≤ run.length) :
    ∀ entry ∈ run.take i, (page entry.page).present = true := by
  induction i with
  | zero => simp
  | succ i ih =>
      rw [List.take_succ_eq_append_getElem hi]
      intro entry hentry
      obtain hentry | hentry := List.mem_append.mp hentry
      · exact ih (Nat.le_of_succ_le hi) entry hentry
      rw [List.mem_singleton.mp hentry]
      cases i with
      | zero =>
          have hhead : run[0] = first := by
            obtain ⟨other, run, rfl⟩ := List.exists_cons_of_ne_nil hfirst.ne_nil
            exact (List.cons.inj hfirst.tree_eq).1.symm
          rw [hhead]
          exact hpresent
      | succ i =>
          by_contra habsent
          have hprevious : (page run[i].page).present = true :=
            ih (Nat.le_of_succ_le hi) _ (by
              rw [List.take_succ_eq_append_getElem (Nat.lt_of_succ_lt hi)]
              exact List.mem_append_right _ List.mem_cons_self)
          have hstreaming := streaming_passed env prev
            (htracked.withCounts prev (markCounts run[i + 1].page)) hl hr hfirst
            hfirst.ne_nil (Nat.le_of_succ_le (Nat.le_of_succ_le hi)) fun entry hentry =>
              ih (Nat.le_of_succ_le hi) entry (by
                rw [List.take_succ_eq_append_getElem (Nat.lt_of_succ_lt hi)]
                exact List.mem_append_left _ hentry)
          obtain ⟨left, right, hrounds, hleft, hright, -⟩ :=
            hstreaming.found (Nat.lt_of_succ_lt hi) hfirst (htracked.withCounts _ _)
          have hiff := mem_found_iff htracked hl hr (hexact _)
            (hfirst.split (Nat.lt_of_succ_lt hi)) hprevious hrounds
          rw [hright] at hiff
          have hnext : run[i + 1] ∈ (run.drop (i + 1)).take numNeighbours := by
            rw [← List.getElem_cons_drop hi]
            exact List.mem_cons_self
          have hmem := hiff.mp (List.mem_append_right _
            (List.mem_cons_of_mem _ (List.mem_map_of_mem hnext)))
          obtain ⟨other, hother, hpage⟩ := List.mem_map.mp hmem
          rw [List.mem_filter, Bool.and_eq_true, hpage] at hother
          exact habsent hother.2.1

/-- The smoothed count is the mean of the neighbourhood, for all counts, exactly
for the smoothable layouts. -/
theorem smoothsExactly_iff_smoothable (env : ScoreEnv ℚ windowSize) (prev : Fin 2)
    (hl : lNeighbours.capacity = numNeighbours + 2)
    (hr : rNeighbours.capacity = numNeighbours + 2) (htracked : Tracked tree page) :
    (∀ counts, SmoothsExactly env prev lNeighbours rNeighbours tree
      (withCounts prev counts page)) ↔ Smoothable tree page := by
  cases tree with
  | nil =>
      refine ⟨fun _ => ⟨by simp, by simp⟩, fun _ counts => ⟨?_, by simp⟩⟩
      exact not_underflowed (htracked.withCounts _ _) hl hr
  | cons first others =>
      obtain ⟨run, rest, htree, hruns, hgap⟩ := exists_run first.va (first :: others)
      have hfirst : FirstRun (first :: others) first.va run rest := ⟨htree, hruns, hgap⟩
      constructor
      · intro hexact
        have hrun : (page first.page).present = true →
            ∀ entry ∈ run, (page entry.page).present = true := by
          intro hpresent
          have htake := run_present_of_exact htracked hl hr hfirst hexact hpresent le_rfl
          rwa [List.take_length] at htake
        constructor
        · intro other hother hpresent entry hentry hjoined
          rw [List.head?_cons, Option.mem_some_iff] at hother
          subst hother
          exact hrun hpresent entry (hfirst.mem_run_of_joined htracked hentry hjoined)
        · intro x hx y hy hxPresent hyPresent hlt hclose hjoined other hother
          rw [List.head?_cons, Option.mem_some_iff] at hother
          subst hother
          by_contra houtside
          have hstuckAt := exists_stuck_at env prev hl hr
            (htracked.withCounts prev (markCounts y.page)) hfirst hx hxPresent
            fun hpresent => ⟨hrun hpresent, fun hmem =>
              houtside ⟨hpresent, hfirst.joined_of_mem_run hmem⟩⟩
          obtain ⟨before, after, left, hsplit, hstuck⟩ := hstuckAt
          have hiff := mem_found_iff htracked hl hr (hexact _) hsplit hxPresent hstuck.rounds
          rw [(hstuck.found (htracked.withCounts _ _) hsplit).2] at hiff
          have hmem : y.page ∈ neighbourhood (first :: others) page x.va :=
            List.mem_map_of_mem (List.mem_filter.mpr ⟨hy, by
              simp [hyPresent, near_of_joined hlt hclose hjoined]⟩)
          have hsorted := htracked.sorted
          rw [hsplit, List.pairwise_append] at hsorted
          obtain hleft | hself := List.mem_append.mp (hiff.mpr hmem)
          · have hbefore := hstuck.rounds.left_sublist.mem ((keepLeft_suffix _ _ _).mem hleft)
            obtain ⟨entry, hentry, hpage⟩ := List.mem_map.mp hbefore
            have hentry := List.mem_of_mem_filter hentry
            have hbelow := hsorted.2.2 entry hentry x List.mem_cons_self
            exact htracked.page_ne (by simp [hsplit, hentry]) hy (by omega) hpage
          · exact htracked.page_ne hy hx (Nat.ne_of_gt hlt) (List.mem_singleton.mp hself)
      · intro hsmoothable counts
        refine ⟨not_underflowed (htracked.withCounts _ _) hl hr, ?_⟩
        intro x hx hpresent type
        have hrun : (page first.page).present = true →
            ∀ entry ∈ run, (page entry.page).present = true := fun hfirstPresent entry hentry =>
          hsmoothable.1 first rfl hfirstPresent entry (hfirst.mem hentry)
            (hfirst.joined_of_mem_run hentry)
        by_cases hinside : (page first.page).present = true ∧ x ∈ run
        · obtain ⟨hfirstPresent, hxrun⟩ := hinside
          obtain ⟨i, hi, rfl⟩ := List.mem_iff_getElem.mp hxrun
          have hstreaming := streaming_passed env prev (htracked.withCounts prev counts)
            hl hr hfirst hfirst.ne_nil hi.le fun entry hentry =>
              hrun hfirstPresent entry (List.mem_of_mem_take hentry)
          obtain ⟨left, right, hrounds, hleft, hright, -⟩ :=
            hstreaming.found hi hfirst (htracked.withCounts _ _)
          rw [sAccesses_eq (htracked.withCounts _ _) hl hr (hfirst.split hi) hpresent hrounds, hleft,
            hright, hfirst.neighbourhood_eq (htracked.withCounts _ _) hi (hrun hfirstPresent)]
        · obtain ⟨before, after, left, hsplit, hstuck⟩ := exists_stuck_at env prev hl hr
            (htracked.withCounts prev counts) hfirst hx hpresent
            fun hfirstPresent => ⟨hrun hfirstPresent, fun hmem => hinside ⟨hfirstPresent, hmem⟩⟩
          have hlonely : ∀ entry ∈ first :: others, (page entry.page).present = true →
              Near (first :: others) x.va entry → entry.va = x.va := by
            intro entry hentry hentryPresent hnear
            by_contra hne
            obtain hlt | hgt := Nat.lt_or_gt_of_ne hne
            · obtain ⟨hfirstPresent, hjoined⟩ := hsmoothable.2 entry hentry x hx hentryPresent
                hpresent hlt hnear.2.2.2 hnear.2.1 first rfl
              have hentryRun := hfirst.mem_run_of_joined htracked hentry hjoined
              obtain ⟨k, hk, rfl⟩ := List.mem_iff_getElem.mp hentryRun
              have hxrest : x ∈ rest := by
                have hmem := hx
                rw [htree] at hmem
                exact (List.mem_append.mp hmem).resolve_left fun hmem =>
                  hinside ⟨hfirstPresent, hmem⟩
              refine hfirst.not_joined htracked hk hxrest ?_
              rw [← hruns.va_eq k hk]
              exact hnear.2.1
            · obtain ⟨hfirstPresent, hjoined⟩ := hsmoothable.2 x hx entry hentry hpresent
                hentryPresent hgt hnear.2.2.1 hnear.1 first rfl
              exact hinside ⟨hfirstPresent, hfirst.mem_run_of_joined htracked hx hjoined⟩
          obtain ⟨hleft, hneighbourhood⟩ :=
            hstuck.lonely (htracked.withCounts _ _) hsplit hpresent hlonely
          rw [sAccesses_eq (htracked.withCounts _ _) hl hr hsplit hpresent hstuck.rounds, hleft,
            (hstuck.found (htracked.withCounts _ _) hsplit).2, hneighbourhood, List.nil_append]

end Counts

/-! ## Two layouts -/

def smoothingEnv : ScoreEnv ℚ windowSize := ⟨wEwmaAlpha, Bias.hist.weights, .highFidelity⟩

def neighbourRing : RingBuf PageId := ringBufInit (fun _ => none) (numNeighbours + 2)

/-- The struct at index `p`, mapped `numbers p` pages from address zero. -/
def numberedPage (numbers : PageId → ℕ) (p : PageId) : TreePage :=
  { callocPage (p * pageSize) true with
    va := numbers p * hugepageSize
    present := true
    sAccesses := fun _ => 0 }

/-- A page, a gap, and two pages side by side. -/
def gapNumbers (p : PageId) : ℕ := if p = 0 then 1 else p + 3

def gapTree : List PageTreeEntry :=
  [⟨1 * hugepageSize, 0⟩, ⟨4 * hugepageSize, 1⟩, ⟨5 * hugepageSize, 2⟩]

/-- Three pages side by side. -/
def rowTree : List PageTreeEntry :=
  [⟨1 * hugepageSize, 0⟩, ⟨2 * hugepageSize, 1⟩, ⟨3 * hugepageSize, 2⟩]

theorem tracked_gapTree : Tracked gapTree (numberedPage gapNumbers) :=
  ⟨by decide, by decide, by decide⟩

theorem tracked_rowTree : Tracked rowTree (numberedPage (· + 1)) :=
  ⟨by decide, by decide, by decide⟩

theorem smoothsExactly_iff_smoothable_rowTree :
    (∀ counts, SmoothsExactly smoothingEnv 0 neighbourRing neighbourRing rowTree
      (withCounts 0 counts (numberedPage (· + 1)))) ↔ Smoothable rowTree (numberedPage (· + 1)) :=
  smoothsExactly_iff_smoothable smoothingEnv 0 rfl rfl tracked_rowTree

/-- One sample on the last page does not reach the page in front of it. -/
theorem not_smoothsExactly :
    Tracked gapTree (withCounts 0 (markCounts 2) (numberedPage gapNumbers)) ∧
      ¬SmoothsExactly smoothingEnv 0 neighbourRing neighbourRing gapTree
        (withCounts 0 (markCounts 2) (numberedPage gapNumbers)) := by
  refine ⟨tracked_gapTree.withCounts 0 _, fun hexact => ?_⟩
  have hmean := hexact.2 ⟨4 * hugepageSize, 1⟩ (by decide) rfl .dramread
  revert hmean
  decide +kernel

end ArmsTiering
