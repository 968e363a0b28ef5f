import ArmsTiering.Lru.Fifo

/-!
# The LRU policy's pages and lists

The page fields that the policy reads and writes, its eight lists, and the
operations that the scanner, the swapper and the fault handler build on.  Pages
are numbered; the accessed and dirty bits that the kernel reports for a virtual
address are an argument.
-/

namespace ArmsTiering.Lru

open Function

inductive LruList where
  | active
  | inactive
  | written
  | nvmActive
  | nvmInactive
  | nvmWritten
  | dramFree
  | nvmFree
  deriving DecidableEq, Repr

/-- The memory that the pages of a list are in. -/
def LruList.inDram : LruList → Bool
  | .active | .inactive | .written | .dramFree => true
  | .nvmActive | .nvmInactive | .nvmWritten | .nvmFree => false

def LruList.isFree : LruList → Bool
  | .dramFree | .nvmFree => true
  | _ => false

structure ArmsPage where
  va : Nat
  devdaxOffset : Nat
  inDram : Bool
  migrating : Bool
  present : Bool
  written : Bool
  naccesses : Nat
  deriving DecidableEq, Repr

/-- What the kernel reports for one page. -/
structure PageBits where
  accessed : Bool
  dirty : Bool
  deriving DecidableEq, Repr

/-- The three lists that a scanning function gets as `active`, `inactive` and
`written`. -/
inductive Role where
  | active
  | inactive
  | written
  deriving DecidableEq, Repr

def dramLists : Role → LruList
  | .active => .active
  | .inactive => .inactive
  | .written => .written

def nvmLists : Role → LruList
  | .active => .nvmActive
  | .inactive => .nvmInactive
  | .written => .nvmWritten

/-- A page with its new flags, whether its address is noted in `vas`, and the list
it goes to. -/
structure Sifted where
  page : ArmsPage
  notes : Bool
  role : Role
  deriving DecidableEq, Repr

/-- `check_writes` for one page. -/
def checkWritesSift (seen : PageBits) (p : ArmsPage) : Sifted :=
  if seen.accessed then
    if seen.dirty then { page := { p with written := true }, notes := true, role := .written }
    else { page := { p with written := false }, notes := false, role := .active }
  else { page := p, notes := false, role := .inactive }

/-- `shrink_caches` for one page. -/
def shrinkSift (seen : PageBits) (p : ArmsPage) : Sifted :=
  if seen.accessed then
    if seen.dirty then { page := { p with written := true }, notes := true, role := .written }
    else { page := { p with written := false }, notes := true, role := .active }
  else { page := { p with naccesses := 0 }, notes := false, role := .inactive }

/-- `expand_caches` for one page. -/
def expandSift (seen : PageBits) (p : ArmsPage) : Sifted :=
  if seen.accessed then
    if seen.dirty then { page := { p with written := true }, notes := false, role := .written }
    else if 4 ≤ p.naccesses then
      { page := { p with written := false, naccesses := 0 }, notes := false, role := .active }
    else
      { page := { p with written := false, naccesses := p.naccesses + 1 }, notes := true
        role := .inactive }
  else { page := { p with naccesses := 0 }, notes := false, role := .inactive }

def maxVas : Nat := 1000000

/-- `vas` holds the addresses below `vanum`. -/
structure LruState where
  fifos : Fifos Nat LruList
  pages : Nat → ArmsPage
  vas : List Nat

namespace LruState

def numentries (s : LruState) (list : LruList) : Nat := (s.fifos.queues list).numentries

def enqueue (s : LruState) (list : LruList) (page : Nat) : Except Crash LruState :=
  (enqueueFifo s.fifos list page).map fun fifos => { s with fifos := fifos }

def dequeue (s : LruState) (list : LruList) : Except Crash (Option Nat × LruState) :=
  (dequeueFifo s.fifos list).map fun (page, fifos) => (page, { s with fifos := fifos })

def setPage (s : LruState) (page : Nat) (p : ArmsPage) : LruState :=
  { s with pages := update s.pages page p }

/-- The bits are those of the page's virtual address. -/
def armsGetBits (s : LruState) (bits : Nat → PageBits) (page : Nat) : PageBits :=
  bits (s.pages page).va

/-- `assert(vanum < MAX_VAS); vas[vanum++] = page->va`. -/
def recordVa (s : LruState) (page : Nat) : Except Crash LruState :=
  if s.vas.length < maxVas then .ok { s with vas := s.vas ++ [(s.pages page).va] }
  else .error .assertion

def lruMigrateDown (s : LruState) (page offset : Nat) : LruState :=
  s.setPage page { s.pages page with devdaxOffset := offset, inDram := false, migrating := false }

def lruMigrateUp (s : LruState) (page offset : Nat) : LruState :=
  s.setPage page { s.pages page with devdaxOffset := offset, inDram := true, migrating := false }

/-- What a scanning function does with a page that it has taken from a list: it
writes the page's flags, notes its address where `sifted.notes` says so, and puts
the page on one of the lists it was given. -/
def settle (s : LruState) (lists : Role → LruList) (page : Nat) (sifted : Sifted) :
    Except Crash LruState := do
  let s := s.setPage page sifted.page
  let s ← if sifted.notes then s.recordVa page else .ok s
  s.enqueue (lists sifted.role) page

/-- The loop of `shrink_caches` with `nr_pages` pages to go. -/
def shrinkLoop (bits : Nat → PageBits) (lists : Role → LruList) :
    Nat → LruState → Except Crash LruState
  | 0, s => .ok s
  | nrPages + 1, s =>
      if 0 < s.numentries (lists .active) then do
        let (page, s) ← s.dequeue (lists .active)
        match page with
        | none => .error .nullDereference
        | some page => do
            let sifted := shrinkSift (s.armsGetBits bits page) (s.pages page)
            let s ← s.settle lists page sifted
            shrinkLoop bits lists nrPages s
      else .ok s

def shrinkCaches (bits : Nat → PageBits) (lists : Role → LruList) (s : LruState) :
    Except Crash LruState :=
  shrinkLoop bits lists (s.numentries (lists .active)) s

@[simp]
theorem setPage_fifos (s : LruState) (page : Nat) (p : ArmsPage) :
    (s.setPage page p).fifos = s.fifos := rfl

@[simp]
theorem setPage_vas (s : LruState) (page : Nat) (p : ArmsPage) :
    (s.setPage page p).vas = s.vas := rfl

@[simp]
theorem setPage_pages (s : LruState) (page : Nat) (p : ArmsPage) :
    (s.setPage page p).pages = update s.pages page p := rfl

variable {s : LruState} {contents : LruList → List Nat} {list : LruList} {page : Nat}

theorem numentries_eq (hrep : Represents s.fifos contents) :
    s.numentries list = (contents list).length :=
  hrep.numentries list

theorem enqueue_ok (list : LruList) (hrep : Represents s.fifos contents) (hfree : ∀ other, page ∉ contents other) :
    ∃ s', s.enqueue list page = .ok s' ∧
      Represents s'.fifos (update contents list (page :: contents list)) ∧
      s'.pages = s.pages ∧ s'.vas = s.vas := by
  obtain ⟨fifos, heq, hrep'⟩ := hrep.enqueueFifo list (hrep.list_none_iff.mpr hfree)
  exact ⟨{ s with fifos := fifos }, by simp [enqueue, heq, Except.map], hrep', rfl, rfl⟩

theorem dequeue_nil (hrep : Represents s.fifos contents) (hnil : contents list = []) :
    s.dequeue list = .ok (none, s) := by
  simp [dequeue, hrep.dequeueFifo_nil hnil, Except.map]

theorem dequeue_ok (hrep : Represents s.fifos contents) {rest : List Nat}
    (hcontents : contents list = rest ++ [page]) :
    ∃ s', s.dequeue list = .ok (some page, s') ∧
      Represents s'.fifos (update contents list rest) ∧ s'.pages = s.pages ∧ s'.vas = s.vas := by
  obtain ⟨fifos, heq, hrep'⟩ := hrep.dequeueFifo hcontents
  exact ⟨{ s with fifos := fifos }, by simp [dequeue, heq, Except.map], hrep', rfl, rfl⟩

theorem settle_ok (hrep : Represents s.fifos contents) (hfree : ∀ other, page ∉ contents other)
    (lists : Role → LruList) (sifted : Sifted)
    (hroom : sifted.notes → s.vas.length < maxVas) :
    ∃ s', s.settle lists page sifted = .ok s' ∧
      Represents s'.fifos (update contents (lists sifted.role)
        (page :: contents (lists sifted.role))) ∧
      s'.pages = update s.pages page sifted.page ∧
      s'.vas.length = s.vas.length + sifted.notes.toNat := by
  cases hnotes : sifted.notes with
  | true =>
      have hroom' := hroom hnotes
      obtain ⟨s', heq, hrep', hpages, hvas⟩ := enqueue_ok (lists sifted.role)
        (s := { s.setPage page sifted.page with
          vas := s.vas ++ [((s.setPage page sifted.page).pages page).va] }) hrep hfree
      refine ⟨s', ?_, hrep', hpages, by simp [hvas]⟩
      simp only [settle, hnotes, if_true, recordVa, setPage_vas, hroom']
      exact heq
  | false =>
      obtain ⟨s', heq, hrep', hpages, hvas⟩ := enqueue_ok (lists sifted.role)
        (s := s.setPage page sifted.page) hrep hfree
      refine ⟨s', ?_, hrep', hpages, by simp [hvas]⟩
      simp only [settle, hnotes, if_false, Bool.false_eq_true]
      exact heq

theorem settle_full (lists : Role → LruList) {sifted : Sifted} (hnotes : sifted.notes)
    (hfull : maxVas ≤ s.vas.length) : s.settle lists page sifted = .error .assertion := by
  have hfull' : ¬s.vas.length < maxVas := Nat.not_lt.mpr hfull
  simp only [settle, hnotes, if_true, recordVa, setPage_vas, hfull', if_false]
  rfl

end LruState

/-- The list that `shrink_caches` moves a page to. -/
def shrinkRole (seen : PageBits) : Role :=
  if seen.accessed then if seen.dirty then .written else .active else .inactive

theorem shrinkSift_role (seen : PageBits) (p : ArmsPage) :
    (shrinkSift seen p).role = shrinkRole seen := by
  unfold shrinkSift shrinkRole
  split
  · split <;> rfl
  · rfl

theorem shrinkSift_notes (seen : PageBits) (p : ArmsPage) :
    (shrinkSift seen p).notes = seen.accessed := by
  cases haccessed : seen.accessed <;> cases hdirty : seen.dirty <;>
    simp [shrinkSift, haccessed, hdirty]

/-- What scanning leaves alone in a page. -/
def SameFrame (p p' : ArmsPage) : Prop :=
  p'.va = p.va ∧ p'.devdaxOffset = p.devdaxOffset ∧ p'.inDram = p.inDram ∧
    p'.present = p.present

theorem SameFrame.refl (p : ArmsPage) : SameFrame p p := ⟨rfl, rfl, rfl, rfl⟩

theorem SameFrame.trans {p p' p'' : ArmsPage} (h : SameFrame p p') (h' : SameFrame p' p'') :
    SameFrame p p'' :=
  ⟨h'.1.trans h.1, h'.2.1.trans h.2.1, h'.2.2.1.trans h.2.2.1, h'.2.2.2.trans h.2.2.2⟩

theorem shrinkSift_sameFrame (seen : PageBits) (p : ArmsPage) :
    SameFrame p (shrinkSift seen p).page := by
  unfold shrinkSift
  split
  · split <;> exact ⟨rfl, rfl, rfl, rfl⟩
  · exact ⟨rfl, rfl, rfl, rfl⟩

/-- The lists hold the given pages, those of a DRAM list are in DRAM and those of an
NVM list are not, and no free page is in use. -/
structure Wf (s : LruState) (contents : LruList → List Nat) : Prop where
  lists : Represents s.fifos contents
  inDram : ∀ list, ∀ page ∈ contents list, (s.pages page).inDram = list.inDram
  absent : ∀ list, list.isFree → ∀ page ∈ contents list, (s.pages page).present = false
  noted : s.vas.length ≤ maxVas

/-! ## The initial lists -/

def pageSize : Nat := 2 * 1024 * 1024

/-- The DRAM pages are numbered from 0, the NVM pages follow them. -/
def initialPage (dramPages page : Nat) : ArmsPage where
  va := 0
  devdaxOffset := (if page < dramPages then page else page - dramPages) * pageSize
  inDram := page < dramPages
  migrating := false
  present := false
  written := false
  naccesses := 0

def emptyLists (dramPages : Nat) : LruState where
  fifos :=
    { queues := fun _ => { first := none, last := none, numentries := 0 }
      next := fun _ => none
      prev := fun _ => none
      list := fun _ => none }
  pages := initialPage dramPages
  vas := []

def enqueueAll (list : LruList) : List Nat → LruState → Except Crash LruState
  | [], s => .ok s
  | page :: pages, s => do
      let s ← s.enqueue list page
      enqueueAll list pages s

def lruInit (dramPages nvmPages : Nat) : Except Crash LruState := do
  let s ← enqueueAll .dramFree (List.range dramPages) (emptyLists dramPages)
  enqueueAll .nvmFree (List.range' dramPages nvmPages) s

def initialContents (dramPages nvmPages : Nat) : LruList → List Nat
  | .dramFree => (List.range dramPages).reverse
  | .nvmFree => (List.range' dramPages nvmPages).reverse
  | _ => []

theorem enqueueAll_ok (list : LruList) {s : LruState} {contents : LruList → List Nat}
    {pages : List Nat} (hrep : Represents s.fifos contents) (hnodup : pages.Nodup)
    (hfree : ∀ page ∈ pages, ∀ other, page ∉ contents other) :
    ∃ s', enqueueAll list pages s = .ok s' ∧
      Represents s'.fifos (update contents list (pages.reverse ++ contents list)) ∧
      s'.pages = s.pages ∧ s'.vas = s.vas := by
  induction pages generalizing s contents with
  | nil => exact ⟨s, rfl, by simpa using hrep, rfl, rfl⟩
  | cons page pages ih =>
      obtain ⟨hpage, hrest⟩ := List.nodup_cons.mp hnodup
      obtain ⟨s₁, heq, hrep₁, hpages₁, hvas₁⟩ :=
        LruState.enqueue_ok list hrep (hfree page List.mem_cons_self)
      obtain ⟨s₂, heq₂, hrep₂, hpages₂, hvas₂⟩ := ih hrep₁ hrest (by
        intro next hnext other hmem
        have hne : next ≠ page := fun heq => hpage (heq ▸ hnext)
        by_cases hother : other = list
        · subst hother
          rw [update_self] at hmem
          exact hfree next (List.mem_cons_of_mem _ hnext) other
            ((List.mem_cons.mp hmem).resolve_left hne)
        · rw [update_of_ne hother] at hmem
          exact hfree next (List.mem_cons_of_mem _ hnext) other hmem)
      refine ⟨s₂, ?_, by simpa using hrep₂, hpages₂.trans hpages₁, hvas₂.trans hvas₁⟩
      rw [enqueueAll, heq]
      exact heq₂

theorem represents_emptyLists (dramPages : Nat) :
    Represents (emptyLists dramPages).fifos fun _ => [] :=
  represents_empty

theorem lruInit_ok (dramPages nvmPages : Nat) :
    ∃ s, lruInit dramPages nvmPages = .ok s ∧ Wf s (initialContents dramPages nvmPages) ∧
      s.pages = initialPage dramPages ∧ s.vas = [] := by
  obtain ⟨s₁, heq₁, hrep₁, hpages₁, hvas₁⟩ := enqueueAll_ok .dramFree
    (represents_emptyLists dramPages) (List.nodup_range (n := dramPages)) (by simp)
  obtain ⟨s₂, heq₂, hrep₂, hpages₂, hvas₂⟩ := enqueueAll_ok .nvmFree hrep₁
    (List.nodup_range' (s := dramPages) (n := nvmPages)) (by
      intro page hpage other
      have hle := (List.mem_range'_1.mp hpage).1
      by_cases hother : other = .dramFree
      · subst hother
        simpa using hle
      · simp [hother])
  have hcontents : initialContents dramPages nvmPages =
      update (update (fun _ => []) .dramFree ((List.range dramPages).reverse ++ [])) .nvmFree
        ((List.range' dramPages nvmPages).reverse ++ []) := by
    funext list
    cases list <;> simp [initialContents]
  have hpages : s₂.pages = initialPage dramPages := hpages₂.trans hpages₁
  refine ⟨s₂, by rw [lruInit, heq₁]; exact heq₂, ?_, hpages, hvas₂.trans hvas₁⟩
  constructor
  · rw [hcontents]
    exact hrep₂
  · intro list page hmem
    rw [hpages]
    cases list <;> simp_all [initialContents, initialPage, LruList.inDram]
  · intro list hfree page hmem
    rw [hpages]
    rfl
  · rw [hvas₂, hvas₁]
    exact Nat.zero_le _

end ArmsTiering.Lru
