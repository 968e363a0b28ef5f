import ArmsTiering.Pebs.Smoothing
import Mathlib.Algebra.BigOperators.Group.List.Basic
import Mathlib.Tactic.FieldSimp
import Mathlib.Tactic.Ring

/-!
# What the smoothing loop averages over

The count and the average of `calculate_scores_tree` always stand for the pages
in its two ring buffers, so that the count is never decremented from zero.  One
round of the loop is then a function of three lists: the left neighbours, the
right neighbours and the entries in front of the second iterator.
-/

namespace ArmsTiering

/-- The arithmetic mean. -/
def mean (values : List ℚ) : ℚ := values.sum / values.length

variable {prev : Fin 2} {p : PageId}

/-! ## The incremental mean -/

/-- The average and its count are those of the pages `held`. -/
structure SmoothAvg.Accounts (avg : SmoothAvg) (counts : PageId → PbufType → ℚ)
    (held : List PageId) : Prop where
  cnt_eq : avg.cnt = held.length
  sum_eq : ∀ type, avg.v type * held.length = (held.map (counts · type)).sum
  kept : avg.underflowed = false

namespace SmoothAvg.Accounts

variable {avg : SmoothAvg} {counts : PageId → PbufType → ℚ} {held held' : List PageId}
  {page : TreePage}

theorem perm (h : avg.Accounts counts held) (hperm : held.Perm held') :
    avg.Accounts counts held' where
  cnt_eq := h.cnt_eq.trans hperm.length_eq
  sum_eq := fun type => by
    rw [← hperm.length_eq, h.sum_eq type, (hperm.map _).sum_eq]
  kept := h.kept

theorem add (h : avg.Accounts counts held) (hroom : held.length + 1 < 2 ^ 32)
    (hpage : ∀ type, (page.accesses type prev : ℚ) = counts p type) :
    (movingAvgAdd prev avg page).Accounts counts (p :: held) where
  cnt_eq := by
    simp only [movingAvgAdd, h.cnt_eq, Nat.mod_eq_of_lt hroom, List.length_cons]
  sum_eq := fun type => by
    have hne : ((held.length + 1 : ℕ) : ℚ) ≠ 0 := Nat.cast_ne_zero.mpr (Nat.succ_ne_zero _)
    simp only [movingAvgAdd, movingAvgAddValue, h.cnt_eq, Nat.mod_eq_of_lt hroom,
      List.length_cons, List.map_cons, List.sum_cons]
    rw [div_mul_cancel₀ _ hne, mul_comm, h.sum_eq type, hpage type, add_comm]
  kept := h.kept

theorem sub (h : avg.Accounts counts (p :: held))
    (hpage : ∀ type, (page.accesses type prev : ℚ) = counts p type) :
    (movingAvgSub prev avg page).Accounts counts held := by
  have hcnt : avg.cnt = held.length + 1 := h.cnt_eq
  have hlength : pred32 (held.length + 1) = held.length := if_neg (Nat.succ_ne_zero _)
  refine ⟨?_, fun type => ?_, ?_⟩
  · simp only [movingAvgSub, hcnt, hlength]
  · have hsum := h.sum_eq type
    rw [List.map_cons, List.sum_cons, List.length_cons] at hsum
    simp only [movingAvgSub, movingAvgSubValue, hcnt, hlength]
    split
    · next hempty => simp [List.length_eq_zero_iff.mp hempty]
    · next hne =>
        have hne' : (held.length : ℚ) ≠ 0 := Nat.cast_ne_zero.mpr hne
        rw [div_mul_cancel₀ _ hne', mul_comm, hsum, hpage type, add_sub_cancel_left]
  · simp [movingAvgSub, hcnt, h.kept]

theorem mean_eq (h : avg.Accounts counts held) (hne : held ≠ []) (type : PbufType) :
    avg.v type = mean (held.map (counts · type)) := by
  have hlength : (held.length : ℚ) ≠ 0 :=
    Nat.cast_ne_zero.mpr fun hzero => hne (List.length_eq_zero_iff.mp hzero)
  rw [mean, List.length_map, ← h.sum_eq type, mul_div_cancel_right₀ _ hlength]

end SmoothAvg.Accounts

/-! ## The two ring buffers -/

/-- The counts that the loop reads. -/
def previousCounts (prevAccessVersion : Fin 2) (page : PageId → TreePage) (p : PageId)
    (type : PbufType) : ℚ :=
  (page p).accesses type prevAccessVersion

/-- The left ring buffer holds `left`, the right one `right`, and the average
stands for these pages.  Of a page, the loop has written nothing that it reads. -/
structure Window (page : PageId → TreePage) (prevAccessVersion : Fin 2) (s : TreeLoop)
    (left right : List PageId) : Prop where
  left_capacity : s.lNeighbours.capacity = numNeighbours + 2
  right_capacity : s.rNeighbours.capacity = numNeighbours + 2
  left_holds : s.lNeighbours.Holds (left.map some)
  right_holds : s.rNeighbours.Holds (right.map some)
  right_le : right.length ≤ numNeighbours
  accounts : s.smoothAvg.Accounts (previousCounts prevAccessVersion page) (left ++ right)
  va_eq : ∀ p, (s.page p).va = (page p).va
  present_eq : ∀ p, (s.page p).present = (page p).present
  accesses_eq : ∀ p, (s.page p).accesses = (page p).accesses
  faulted : s.faulted = false

/-- The left neighbours that `popLeftNeighbours` leaves. -/
def keepLeft (va : PageId → ℕ) (x : ℕ) : List PageId → List PageId
  | [] => []
  | p :: left =>
      if va p = x - (left.length + 1) * hugepageSize then p :: left else keepLeft va x left

/-- How many entries `appendRightNeighbours` takes from the iterator. -/
def reach : ℕ → ℕ → KbItr → ℕ
  | 0, _, _ => 0
  | _, _, [] => 0
  | room + 1, next, entry :: rest =>
      if entry.va = next then reach room (next + hugepageSize) rest + 1 else 0

theorem keepLeft_suffix (va : PageId → ℕ) (x : ℕ) (left : List PageId) :
    keepLeft va x left <:+ left := by
  induction left with
  | nil => exact List.suffix_rfl
  | cons p left ih =>
      unfold keepLeft
      split
      · exact List.suffix_rfl
      · exact ih.trans (List.suffix_cons p left)

section

variable {page : PageId → TreePage} {s : TreeLoop} {left right : List PageId}

theorem TreeLoop.assert_of {condition : Bool} (hcondition : condition = true) :
    s.assert condition = s := by
  simp [TreeLoop.assert, hcondition]

namespace Window

theorem length_lt (h : Window page prev s left right) :
    left.length + right.length < 2 ^ 32 := by
  have hleft : left.length < numNeighbours + 2 := by
    simpa [h.left_capacity] using h.left_holds.length_lt
  have hright := h.right_le
  unfold numNeighbours at hleft hright
  omega

theorem left_size (h : Window page prev s left right) (hleft : left.length ≤ numNeighbours) :
    ringBufSize s.lNeighbours = left.length := by
  rw [h.left_holds.size_eq (by rw [List.length_map, h.left_capacity]; omega), List.length_map]

theorem right_size (h : Window page prev s left right) :
    ringBufSize s.rNeighbours = right.length := by
  have hright := h.right_le
  rw [h.right_holds.size_eq (by rw [List.length_map, h.right_capacity]; omega),
    List.length_map]

theorem counts_eq (h : Window page prev s left right) (p : PageId) (type : PbufType) :
    ((s.page p).accesses type prev : ℚ) = previousCounts prev page p type := by
  rw [h.accesses_eq p]
  rfl

theorem popLeft (h : Window page prev s (p :: left) right) :
    Window page prev
      (({ s with lNeighbours := (ringBufGet s.lNeighbours).2 }).subNeighbour prev
        (ringBufGet s.lNeighbours).1) left right := by
  obtain ⟨hvalue, hholds⟩ := RingBuf.Holds.get (List.map_cons ▸ h.left_holds)
  rw [hvalue]
  refine { h with
    left_capacity := capacity_ringBufGet.trans h.left_capacity
    left_holds := hholds
    accounts := SmoothAvg.Accounts.sub (p := p) h.accounts (h.counts_eq p) }

theorem popRight (h : Window page prev s left (p :: right)) :
    Window page prev
      (({ s with rNeighbours := (ringBufGet s.rNeighbours).2 }).subNeighbour prev
        (ringBufGet s.rNeighbours).1) left right := by
  obtain ⟨hvalue, hholds⟩ := RingBuf.Holds.get (List.map_cons ▸ h.right_holds)
  rw [hvalue]
  refine { h with
    right_capacity := capacity_ringBufGet.trans h.right_capacity
    right_holds := hholds
    right_le := Nat.le_of_succ_le h.right_le
    accounts := SmoothAvg.Accounts.sub (p := p) (h.accounts.perm List.perm_middle)
      (h.counts_eq p) }

theorem putRight (h : Window page prev s left right) (hroom : right.length < numNeighbours)
    (p : PageId) :
    Window page prev
      { s with
        rNeighbours := ringBufPut s.rNeighbours (some p)
        smoothAvg := movingAvgAdd prev s.smoothAvg (s.page p) } left (right ++ [p]) := by
  have hlength := h.length_lt
  have hleft : left.length < numNeighbours + 2 := by
    simpa [h.left_capacity] using h.left_holds.length_lt
  refine { h with
    right_capacity := capacity_ringBufPut.trans h.right_capacity
    right_holds := ?_
    right_le := ?_
    accounts := ?_ }
  · rw [List.map_append]
    exact h.right_holds.put (by rw [List.length_map, h.right_capacity]; omega)
  · rw [List.length_append]
    exact hroom
  · rw [← List.append_assoc]
    refine (h.accounts.add (p := p) ?_ (h.counts_eq p)).perm (List.perm_append_singleton _ _).symm
    rw [List.length_append]
    unfold numNeighbours at hleft hroom
    omega

end Window

/-! ## The two inner loops -/

theorem popLeftNeighbours_kept (x : TreePage) (rounds : ℕ) (s : TreeLoop) :
    (popLeftNeighbours prev x rounds s).nItr = s.nItr ∧
      (popLeftNeighbours prev x rounds s).idx = s.idx ∧
      (popLeftNeighbours prev x rounds s).page = s.page := by
  induction rounds generalizing s with
  | zero => exact ⟨rfl, rfl, rfl⟩
  | succ rounds ih =>
      unfold popLeftNeighbours
      split
      · dsimp only
        split
        · exact ⟨rfl, rfl, rfl⟩
        · next p hpeek =>
            split
            · exact ⟨rfl, rfl, rfl⟩
            · obtain ⟨hitr, hidx, hpage⟩ :=
                ih (({ s with lNeighbours := (ringBufGet s.lNeighbours).2 }).subNeighbour prev
                  (some p))
              exact ⟨hitr, hidx, hpage⟩
      · exact ⟨rfl, rfl, rfl⟩

theorem Window.popLeftNeighbours (h : Window page prev s left right) (hidx : left.length ≤ s.idx)
    (hleft : left.length ≤ numNeighbours) (x : TreePage) :
    Window page prev (popLeftNeighbours prev x left.length s)
      (keepLeft (fun p => (page p).va) x.va left) right := by
  induction left generalizing s with
  | nil => exact h
  | cons p left ih =>
      have hsize := h.left_size hleft
      have hroom : (p :: left).length + 1 < s.lNeighbours.capacity := by
        rw [h.left_capacity]
        omega
      have hpeek : ringBufPeekTail s.lNeighbours 0 = some p :=
        h.left_holds.peekTail (by simpa using hroom) (by simp)
      have hback : s.idx - (s.idx - (p :: left).length) = left.length + 1 := Nat.sub_sub_self hidx
      have hoffset : (s.page p).va =
          x.va - (s.idx - (s.idx - (p :: left).length)) * hugepageSize ↔
            (page p).va = x.va - (left.length + 1) * hugepageSize := by
        rw [hback, h.va_eq p]
      rw [List.length_cons]
      unfold ArmsTiering.popLeftNeighbours keepLeft
      rw [hsize, if_pos (List.length_pos_of_ne_nil (List.cons_ne_nil p left))]
      dsimp only
      rw [hpeek]
      dsimp only
      by_cases hstop : (page p).va = x.va - (left.length + 1) * hugepageSize
      · rw [if_pos hstop, if_pos (hoffset.mpr hstop)]
        exact h
      · rw [if_neg hstop, if_neg fun hva => hstop (hoffset.mp hva)]
        have hpop := h.popLeft
        rw [(RingBuf.Holds.get (List.map_cons ▸ h.left_holds)).1] at hpop
        exact ih hpop (Nat.le_of_succ_le hidx) (Nat.le_of_succ_le hleft)

theorem Window.appendRightNeighbours (h : Window page prev s left right) (x : TreePage)
    {nIdx : ℕ} (hidx : nIdx = s.idx + right.length + 1) (itr : KbItr)
    (hitr : ∀ entry ∈ itr, (page entry.page).va = entry.va) :
    let taken := reach (numNeighbours - right.length)
      (x.va + (right.length + 1) * hugepageSize) itr
    Window page prev (appendRightNeighbours prev x nIdx itr s) left
        (right ++ (itr.take taken).map PageTreeEntry.page) ∧
      (appendRightNeighbours prev x nIdx itr s).nItr = itr.drop taken ∧
      (appendRightNeighbours prev x nIdx itr s).idx = s.idx ∧
      (appendRightNeighbours prev x nIdx itr s).page = s.page := by
  induction itr generalizing s right nIdx with
  | nil =>
      have hkept : Window page prev { s with nItr := [] } left right := { h with }
      refine ⟨?_, ?_, rfl, rfl⟩
      · simpa [ArmsTiering.appendRightNeighbours] using hkept
      · simp [ArmsTiering.appendRightNeighbours]
  | cons entry rest ih =>
      have hkept : Window page prev { s with nItr := entry :: rest } left right := { h with }
      have hva := (h.va_eq entry.page).trans (hitr entry List.mem_cons_self)
      have hassert : s.assert ((s.page entry.page).va == entry.va) = s :=
        TreeLoop.assert_of (beq_iff_eq.mpr hva)
      have hahead : nIdx - s.idx = right.length + 1 := by omega
      unfold ArmsTiering.appendRightNeighbours
      rw [h.right_size]
      dsimp only
      rw [hassert, hva, hahead]
      by_cases hroom : right.length < numNeighbours
      · rw [if_pos hroom]
        obtain ⟨room, hroomEq⟩ : ∃ room, numNeighbours - right.length = room + 1 :=
          ⟨numNeighbours - right.length - 1, by omega⟩
        by_cases hnext : entry.va = x.va + (right.length + 1) * hugepageSize
        · rw [if_neg (not_not.mpr hnext)]
          have hput := h.putRight hroom entry.page
          have hlength : (right ++ [entry.page]).length = right.length + 1 := by simp
          have hroom' : numNeighbours - (right ++ [entry.page]).length = room := by omega
          have hafter : x.va + (right.length + 1) * hugepageSize + hugepageSize =
              x.va + ((right ++ [entry.page]).length + 1) * hugepageSize := by
            rw [hlength]
            ring
          have hreach : reach (room + 1) (x.va + (right.length + 1) * hugepageSize)
              (entry :: rest) =
                reach room (x.va + ((right ++ [entry.page]).length + 1) * hugepageSize) rest +
                  1 := by
            rw [reach, if_pos hnext, hafter]
          have hidx' : nIdx + 1 = s.idx + (right ++ [entry.page]).length + 1 := by
            rw [hlength, hidx, Nat.add_assoc s.idx]
          have hind := ih hput hidx'
            fun entry hentry => hitr entry (List.mem_cons_of_mem _ hentry)
          rw [hroom'] at hind
          rw [hroomEq, hreach, List.take_succ_cons, List.drop_succ_cons, List.map_cons]
          simpa only [List.append_assoc, List.singleton_append] using hind
        · rw [if_pos hnext, hroomEq, reach, if_neg hnext]
          refine ⟨?_, rfl, rfl, rfl⟩
          simpa using hkept
      · rw [if_neg hroom, Nat.sub_eq_zero_of_le (Nat.not_lt.mp hroom), reach]
        refine ⟨?_, rfl, rfl, rfl⟩
        simpa using hkept

/-! ## One round of the loop -/

/-- The mean goes to the page, and the page becomes a left neighbour. -/
theorem Window.scored (h : Window page prev s left right) (hleft : left.length ≤ numNeighbours)
    (env : ScoreEnv ℚ windowSize) (p : PageId) :
    Window page prev
        { scoreTreePage env prev p s with
          lNeighbours := ringBufPut (scoreTreePage env prev p s).lNeighbours (some p) }
        (left ++ [p]) right ∧
      ∀ type, ((scoreTreePage env prev p s).page p).sAccesses type =
        mean ((left ++ p :: right).map (previousCounts prev page · type)) := by
  have hlength := h.right_le
  have hadd : (movingAvgAdd prev s.smoothAvg (s.page p)).Accounts (previousCounts prev page)
      (left ++ p :: right) := by
    refine (h.accounts.add (p := p) ?_ (h.counts_eq p)).perm List.perm_middle.symm
    rw [List.length_append]
    unfold numNeighbours at hleft hlength
    omega
  have hread : ∀ q, ((scoreTreePage env prev p s).page q).va = (s.page q).va ∧
      ((scoreTreePage env prev p s).page q).present = (s.page q).present ∧
      ((scoreTreePage env prev p s).page q).accesses = (s.page q).accesses := by
    intro q
    by_cases hq : q = p
    · subst hq
      simp [scoreTreePage, updateWindowSmoothed]
    · simp [scoreTreePage, Function.update_of_ne hq]
  constructor
  · refine ⟨capacity_ringBufPut.trans h.left_capacity, h.right_capacity, ?_, h.right_holds,
      h.right_le, ?_, ?_, ?_, ?_, h.faulted⟩
    · rw [List.map_append]
      exact h.left_holds.put (by rw [List.length_map, h.left_capacity]; omega)
    · rw [List.append_assoc]
      exact hadd
    · exact fun q => (hread q).1.trans (h.va_eq q)
    · exact fun q => (hread q).2.1.trans (h.present_eq q)
    · exact fun q => (hread q).2.2.trans (h.accesses_eq q)
  · intro type
    rw [← hadd.mean_eq (List.append_ne_nil_of_right_ne_nil _ (List.cons_ne_nil _ _)) type]
    simp [scoreTreePage, updateWindowSmoothed]

theorem subNeighbour_kept (s : TreeLoop) (neighbour : Option PageId) :
    (s.subNeighbour prev neighbour).nItr = s.nItr ∧
      (s.subNeighbour prev neighbour).idx = s.idx ∧
      (s.subNeighbour prev neighbour).page = s.page := by
  cases neighbour <;> exact ⟨rfl, rfl, rfl⟩

theorem popLeftmost_kept (s : TreeLoop) :
    (popLeftmost prev s).nItr = s.nItr ∧ (popLeftmost prev s).idx = s.idx ∧
      (popLeftmost prev s).page = s.page := by
  unfold popLeftmost
  split
  · exact subNeighbour_kept _ _
  · exact ⟨rfl, rfl, rfl⟩

theorem popNextPage_kept (s : TreeLoop) :
    (popNextPage prev s).nItr = s.nItr ∧ (popNextPage prev s).idx = s.idx ∧
      (popNextPage prev s).page = s.page := by
  unfold popNextPage
  split
  · exact subNeighbour_kept _ _
  · exact ⟨rfl, rfl, rfl⟩

theorem shiftNeighbours_kept (s : TreeLoop) (p : PageId) :
    (shiftNeighbours prev p s).nItr = s.nItr ∧ (shiftNeighbours prev p s).idx = s.idx ∧
      (shiftNeighbours prev p s).page = s.page := by
  unfold shiftNeighbours
  obtain ⟨hitr, hidx, hpage⟩ := popNextPage_kept 
    (popLeftmost prev { s with lNeighbours := ringBufPut s.lNeighbours (some p) })
  obtain ⟨hitr', hidx', hpage'⟩ := popLeftmost_kept 
    { s with lNeighbours := ringBufPut s.lNeighbours (some p) }
  exact ⟨hitr.trans hitr', hidx.trans hidx', hpage.trans hpage'⟩

theorem Window.popNextPage (h : Window page prev s left right) :
    Window page prev (popNextPage prev s) left right.tail := by
  unfold ArmsTiering.popNextPage
  rw [h.right_size]
  cases right with
  | nil => exact h
  | cons q right =>
      rw [if_pos (List.length_pos_of_ne_nil (List.cons_ne_nil q right))]
      exact h.popRight

theorem Window.popLeftmost (h : Window page prev s left right)
    (hleft : left.length ≤ numNeighbours + 1) :
    Window page prev (popLeftmost prev s) (left.drop (left.length - numNeighbours)) right := by
  unfold ArmsTiering.popLeftmost
  obtain hfull | hroom := Nat.eq_or_lt_of_le hleft
  · have hsize : ringBufSize s.lNeighbours = numNeighbours + 2 := by
      rw [h.left_holds.size_full, h.left_capacity]
      rw [List.length_map, h.left_capacity, hfull]
    rw [hsize, if_pos (Nat.lt_add_of_pos_right (Nat.succ_pos 1)), hfull, Nat.add_sub_cancel_left,
      List.drop_one]
    cases left with
    | nil => exact absurd hfull (Nat.succ_ne_zero _).symm
    | cons q left => exact h.popLeft
  · have hle : left.length ≤ numNeighbours := Nat.lt_succ_iff.mp hroom
    rw [h.left_size hle, if_neg (Nat.not_lt.mpr hle), Nat.sub_eq_zero_of_le hle, List.drop_zero]
    exact h

theorem Window.shift
    (h : Window page prev { s with lNeighbours := ringBufPut s.lNeighbours (some p) }
      (left ++ [p]) right) (hleft : left.length ≤ numNeighbours) :
    Window page prev (shiftNeighbours prev p s)
      ((left ++ [p]).drop (left.length + 1 - numNeighbours)) right.tail := by
  have hlength : (left ++ [p]).length = left.length + 1 := List.length_append
  have hpop := h.popLeftmost (hlength ▸ Nat.succ_le_succ hleft)
  rw [hlength] at hpop
  exact hpop.popNextPage

/-- What a round of the loop does for a page that is present. -/
structure Visited (page : PageId → TreePage) (prevAccessVersion : Fin 2) (s s' : TreeLoop)
    (p : PageId) (left right : List PageId) (taken : ℕ) : Prop where
  window : Window page prevAccessVersion s'
    ((left ++ [p]).drop (left.length + 1 - numNeighbours)) right.tail
  nItr_eq : s'.nItr = s.nItr.drop taken
  idx_eq : s'.idx = s.idx + 1
  page_eq : ∀ q, q ≠ p → s'.page q = s.page q
  smoothed : ∀ type, (s'.page p).sAccesses type =
    mean ((left ++ p :: right).map (previousCounts prevAccessVersion page · type))

/-- The second half of a round, once the two ring buffers hold the neighbours. -/
theorem Window.visited (h : Window page prev s left right) (hleft : left.length ≤ numNeighbours)
    (env : ScoreEnv ℚ windowSize) (p : PageId) :
    Visited page prev s
      { shiftNeighbours prev p (scoreTreePage env prev p s) with
        idx := (shiftNeighbours prev p (scoreTreePage env prev p s)).idx + 1 } p left right 0 := by
  obtain ⟨hscored, hmean⟩ := h.scored hleft env p
  have hshift := hscored.shift hleft
  obtain ⟨hitr, hidx, hpage⟩ := shiftNeighbours_kept
    (scoreTreePage env prev p s) p
  generalize shiftNeighbours prev p (scoreTreePage env prev p s) = s' at hshift hitr hidx hpage ⊢
  refine ⟨{ hshift with }, hitr, congrArg Nat.succ hidx, fun q hq => ?_, fun type => ?_⟩
  · exact (congrFun hpage q).trans (Function.update_of_ne hq _ _)
  · rw [← hmean type, ← hpage]

theorem Window.visitEntry {entry : PageTreeEntry} {pagesCnt : ℕ}
    (h : Window page prev s left right) (hleft : left.length ≤ numNeighbours)
    (hback : left.length ≤ s.idx) (hidx : s.idx < pagesCnt)
    (hitr : ∀ entry ∈ s.nItr, (page entry.page).va = entry.va)
    (hpresent : (page entry.page).present = true) (env : ScoreEnv ℚ windowSize) :
    let taken := reach (numNeighbours - right.length)
      ((page entry.page).va + (right.length + 1) * hugepageSize) s.nItr
    Visited page prev s (visitEntry env prev pagesCnt s entry) entry.page
      (keepLeft (fun p => (page p).va) (page entry.page).va left)
      (right ++ (s.nItr.take taken).map PageTreeEntry.page) taken := by
  intro taken
  have hkeep : (keepLeft (fun p => (page p).va) (page entry.page).va left).length ≤
      numNeighbours := (keepLeft_suffix _ _ left).length_le.trans hleft
  have hpop := h.popLeftNeighbours hback hleft (s.page entry.page)
  obtain ⟨hpopItr, hpopIdx, hpopPage⟩ := popLeftNeighbours_kept
    (s.page entry.page) left.length s
  unfold ArmsTiering.visitEntry
  dsimp only
  rw [TreeLoop.assert_of (decide_eq_true hidx), h.present_eq, if_pos hpresent, h.left_size hleft]
  generalize ArmsTiering.popLeftNeighbours prev (s.page entry.page) left.length s = popped at *
  rw [h.va_eq] at hpop
  have hleftOk := decide_eq_true hkeep
  rw [← hpop.left_size hkeep] at hleftOk
  rw [TreeLoop.assert_of hleftOk, hpopItr]
  have happend := hpop.appendRightNeighbours (s.page entry.page) rfl s.nItr hitr
  rw [hpop.right_size]
  rw [h.va_eq] at happend
  generalize ArmsTiering.appendRightNeighbours prev (s.page entry.page)
    (popped.idx + right.length + 1) s.nItr popped = appended at *
  obtain ⟨happ, happItr, happIdx, happPage⟩ := happend
  rw [TreeLoop.assert_of (decide_eq_true (happ.right_size ▸ happ.right_le))]
  have hvisited := happ.visited hkeep env entry.page
  generalize shiftNeighbours prev entry.page (scoreTreePage env prev entry.page appended) = s'
    at hvisited ⊢
  refine ⟨hvisited.window, ?_, ?_, fun q hq => ?_, hvisited.smoothed⟩
  · exact hvisited.nItr_eq.trans happItr
  · rw [hvisited.idx_eq, happIdx, hpopIdx]
  · rw [hvisited.page_eq q hq, happPage, hpopPage]

end

end ArmsTiering
