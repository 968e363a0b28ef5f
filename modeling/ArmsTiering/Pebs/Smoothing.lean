import ArmsTiering.Machine.Schedule
import ArmsTiering.Pebs.RingBuffer

/-!
# Spatial smoothing

`calculate_scores_tree`, the scorer of the `SPATIAL_SMOOTHING` build.  It walks
the tree of pages by address and keeps a mean over the pages that two ring
buffers hold: the pages behind the one it scores, and the pages in front of it
that a second iterator has brought in.  The mean is over rationals.
-/

namespace ArmsTiering

/-- `page_tree_entry_t` -/
structure PageTreeEntry where
  va : ℕ
  page : PageId
  deriving DecidableEq

/-- A `kbitr_t` over `pages_tree`: the entry that it stands on and those behind
it, and nothing once it is not valid. -/
abbrev KbItr := List PageTreeEntry

/-- `struct arms_page` with the field that `SPATIAL_SMOOTHING` adds. -/
structure TreePage extends ArmsPage ℚ windowSize where
  sAccesses : PbufType → ℚ

/-- `NUM_NEIGHBOURS` -/
def numNeighbours : ℕ := 2

/-- `smooth_avg_v` and `smooth_avg_cnt`, with the history of the count:
whether it has been decremented from zero. -/
structure SmoothAvg where
  v : PbufType → ℚ
  cnt : ℕ
  underflowed : Bool

/-- `_moving_avg_add` -/
def movingAvgAddValue (avg newVal : ℚ) (count : ℕ) : ℚ :=
  (count * avg + newVal) / ((count + 1) % 2 ^ 32 : ℕ)

def movingAvgAdd (prevAccessVersion : Fin 2) (avg : SmoothAvg) (page : TreePage) : SmoothAvg :=
  { avg with
    v := fun type =>
      movingAvgAddValue (avg.v type) (page.accesses type prevAccessVersion) avg.cnt
    cnt := (avg.cnt + 1) % 2 ^ 32 }

/-- `count - 1` on a `uint32_t`. -/
def pred32 (count : ℕ) : ℕ := if count = 0 then 2 ^ 32 - 1 else count - 1

/-- `_moving_avg_sub` -/
def movingAvgSubValue (avg oldVal : ℚ) (count : ℕ) : ℚ :=
  if pred32 count = 0 then 0 else (count * avg - oldVal) / pred32 count

def movingAvgSub (prevAccessVersion : Fin 2) (avg : SmoothAvg) (page : TreePage) : SmoothAvg where
  v := fun type =>
    movingAvgSubValue (avg.v type) (page.accesses type prevAccessVersion) avg.cnt
  cnt := pred32 avg.cnt
  underflowed := avg.underflowed || avg.cnt == 0

/-- `update_window` of this build. -/
def updateWindowSmoothed (env : ScoreEnv ℚ windowSize) (page : TreePage) : TreePage :=
  let accesses := page.sAccesses .dramread + page.sAccesses .nvmread +
    nvmWritesWeight * page.sAccesses .write
  { page with
    w := fun i =>
      (1 - env.wEwmaAlpha i) * page.w i +
        env.wEwmaAlpha i * (windowScale env.samplingMode * accesses) }

/-- The variables of `calculate_scores_tree`.  `faulted` records an assertion
that failed or a `NULL` page that was followed. -/
structure TreeLoop where
  idx : ℕ
  nItr : KbItr
  lNeighbours : RingBuf PageId
  rNeighbours : RingBuf PageId
  smoothAvg : SmoothAvg
  page : PageId → TreePage
  sIdx : ℕ
  scoresOut : List (ScoreEntry ℚ)
  faulted : Bool

namespace TreeLoop

def assert (s : TreeLoop) (condition : Bool) : TreeLoop :=
  { s with faulted := s.faulted || !condition }

/-- `moving_avg_sub` on a pointer that a ring buffer returned. -/
def subNeighbour (prevAccessVersion : Fin 2) (s : TreeLoop) : Option PageId → TreeLoop
  | none => s.assert false
  | some p => { s with smoothAvg := movingAvgSub prevAccessVersion s.smoothAvg (s.page p) }

end TreeLoop

/-- The loop that pops left neighbours; each round pops one, so that the size of
the ring buffer bounds the rounds. -/
def popLeftNeighbours (prevAccessVersion : Fin 2) (page : TreePage) :
    ℕ → TreeLoop → TreeLoop
  | 0, s => s
  | rounds + 1, s =>
      if 0 < ringBufSize s.lNeighbours then
        let nIdx := s.idx - ringBufSize s.lNeighbours
        match ringBufPeekTail s.lNeighbours 0 with
        | none => s.assert false
        | some p =>
            if (s.page p).va = page.va - (s.idx - nIdx) * hugepageSize then s
            else
              popLeftNeighbours prevAccessVersion page rounds
                (({ s with lNeighbours := (ringBufGet s.lNeighbours).2 }).subNeighbour
                  prevAccessVersion (some p))
      else s

/-- The loop that appends right neighbours, from the iterator `n_itr` on. -/
def appendRightNeighbours (prevAccessVersion : Fin 2) (page : TreePage) :
    ℕ → KbItr → TreeLoop → TreeLoop
  | _, [], s => { s with nItr := [] }
  | nIdx, entry :: rest, s =>
      if ringBufSize s.rNeighbours < numNeighbours then
        let nVa := page.va + (nIdx - s.idx) * hugepageSize
        let p := s.page entry.page
        let s := s.assert (p.va == entry.va)
        if p.va ≠ nVa then { s with nItr := entry :: rest }
        else
          appendRightNeighbours prevAccessVersion page (nIdx + 1) rest
            { s with
              rNeighbours := ringBufPut s.rNeighbours (some entry.page)
              smoothAvg := movingAvgAdd prevAccessVersion s.smoothAvg p }
      else { s with nItr := entry :: rest }

/-- What the body of the loop does with the page, once the ring buffers hold its
neighbours: the mean, the window, the score. -/
def scoreTreePage (env : ScoreEnv ℚ windowSize) (prevAccessVersion : Fin 2) (p : PageId)
    (s : TreeLoop) : TreeLoop :=
  let s := { s with smoothAvg := movingAvgAdd prevAccessVersion s.smoothAvg (s.page p) }
  let page := { s.page p with sAccesses := s.smoothAvg.v }
  let page := updateWindowSmoothed env page
  let page := { page with score := computeScore page.toArmsPage env.bias }
  { s with
    page := Function.update s.page p page
    scoresOut := s.scoresOut ++ [⟨p, page.score⟩]
    sIdx := s.sIdx + 1 }

/-- The leftmost neighbour goes when the left ring buffer is full. -/
def popLeftmost (prevAccessVersion : Fin 2) (s : TreeLoop) : TreeLoop :=
  if numNeighbours < ringBufSize s.lNeighbours then
    let (oldest, lNeighbours) := ringBufGet s.lNeighbours
    ({ s with lNeighbours := lNeighbours }).subNeighbour prevAccessVersion oldest
  else s

/-- The leftmost right neighbour, soon to be the next page, goes. -/
def popNextPage (prevAccessVersion : Fin 2) (s : TreeLoop) : TreeLoop :=
  if 0 < ringBufSize s.rNeighbours then
    let (oldest, rNeighbours) := ringBufGet s.rNeighbours
    ({ s with rNeighbours := rNeighbours }).subNeighbour prevAccessVersion oldest
  else s

/-- The end of the body: the page becomes a left neighbour, and each ring buffer
gives up a page. -/
def shiftNeighbours (prevAccessVersion : Fin 2) (p : PageId) (s : TreeLoop) : TreeLoop :=
  popNextPage prevAccessVersion
    (popLeftmost prevAccessVersion { s with lNeighbours := ringBufPut s.lNeighbours (some p) })

/-- The body of the loop, for the entry that `itr` stands on. -/
def visitEntry (env : ScoreEnv ℚ windowSize) (prevAccessVersion : Fin 2) (pagesCnt : ℕ)
    (s : TreeLoop) (entry : PageTreeEntry) : TreeLoop :=
  let s := s.assert (s.idx < pagesCnt)
  let page := s.page entry.page
  if page.present then
    let s := popLeftNeighbours prevAccessVersion page (ringBufSize s.lNeighbours) s
    let s := s.assert (ringBufSize s.lNeighbours ≤ numNeighbours)
    let s := appendRightNeighbours prevAccessVersion page
      (s.idx + ringBufSize s.rNeighbours + 1) s.nItr s
    let s := s.assert (ringBufSize s.rNeighbours ≤ numNeighbours)
    let s := scoreTreePage env prevAccessVersion entry.page s
    let s := shiftNeighbours prevAccessVersion entry.page s
    { s with idx := s.idx + 1 }
  else { s with idx := s.idx + 1 }

/-- The second loop, which zeroes the counts of a page that is present. -/
def zeroAccesses (prevAccessVersion : Fin 2) (s : TreeLoop) (entry : PageTreeEntry) : TreeLoop :=
  if (s.page entry.page).present then
    { s with
      page := Function.update s.page entry.page
        { s.page entry.page with
          accesses := fun type version =>
            if version = prevAccessVersion then 0
            else (s.page entry.page).accesses type version } }
  else s

/-- The state in front of the loop: both ring buffers are reset, and `n_itr`
stands on the second page. -/
def treeLoopStart (tree : List PageTreeEntry) (lNeighbours rNeighbours : RingBuf PageId)
    (page : PageId → TreePage) : TreeLoop where
  idx := 0
  nItr := tree.tail
  lNeighbours := ringBufReset lNeighbours
  rNeighbours := ringBufReset rNeighbours
  smoothAvg := ⟨fun _ => 0, 0, false⟩
  page := page
  sIdx := 0
  scoresOut := []
  faulted := false

/-- `calculate_scores_tree`; `tree` lists the entries of `pages_tree` as an
iterator visits them.  For an empty tree it returns before the loops, which
would visit no entry. -/
def calculateScoresTree (env : ScoreEnv ℚ windowSize) (prevAccessVersion : Fin 2)
    (lNeighbours rNeighbours : RingBuf PageId) (tree : List PageTreeEntry)
    (page : PageId → TreePage) : TreeLoop :=
  let s := treeLoopStart tree lNeighbours rNeighbours page
  if tree.length = 0 then s
  else
    tree.foldl (zeroAccesses prevAccessVersion)
      (tree.foldl (visitEntry env prevAccessVersion tree.length) s)

end ArmsTiering
