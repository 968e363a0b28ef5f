import ArmsTiering.Core.GuardFlag
import ArmsTiering.Kdq.Queue
import ArmsTiering.Pebs.Page

/-!
# `internal_call`

The hooks on `mmap` and `munmap` pass a call on to the system while
`internal_call` is set.  The functions of `arms.c` set it at their start and
clear it at their end; so do `arms_malloc` and `arms_realloc`, which the resize
of a khash table calls.  Each function below is its call tree, with what the
paths through it depend on as arguments; paths that end in a failing assertion
are left out.
-/

namespace ArmsTiering.CallTrees

open GuardFlag

/-- The calls that enter the library's hooks, or can: the allocator maps and
unmaps memory. -/
inductive SysCall
  | mmap
  | munmap
  | malloc
  | realloc
  | free
  deriving DecidableEq, Repr

inductive LibFn
  | armsMalloc
  | armsRealloc
  | khResize
  | khPut
  | kdqPush
  | pebsAddPage
  | pebsRemovePage
  | armsMmapPopulate
  | armsMmap
  | armsMunmap
  | armsWpPage
  | armsMigrateUp
  | armsMigrateDown
  | handleMissingFault
  deriving DecidableEq, Repr

abbrev LibCode := Code LibFn SysCall

/-- `munmap_filter` runs `arms_munmap`, which takes `pages_lock`. -/
def munmapFilterEnters (internalCall : Bool) : Bool := !internalCall

/-- The calls below which the hook on `munmap` can run. -/
def SysCall.unmaps : SysCall → Bool
  | .munmap | .realloc | .free => true
  | .mmap | .malloc => false

/-! ## The functions -/

def armsMalloc : LibCode :=
  .call .armsMalloc (.block [.setFlag true, .sys .malloc, .setFlag false])

def armsRealloc : LibCode :=
  .call .armsRealloc (.block [.setFlag true, .sys .realloc, .setFlag false])

/-- The header of a khash table. -/
structure Khash where
  nBuckets : UInt32
  size : UInt32
  nOccupied : UInt32
  upperBound : UInt32

/-- `kroundup32` -/
def kroundup32 (x : UInt32) : UInt32 :=
  let x := x - 1
  let x := x ||| (x >>> 1)
  let x := x ||| (x >>> 2)
  let x := x ||| (x >>> 4)
  let x := x ||| (x >>> 8)
  let x := x ||| (x >>> 16)
  x + 1

/-- `(khint_t)(new_n_buckets * __ac_HASH_UPPER + 0.5)` -/
def hashUpper (nBuckets : UInt32) : UInt32 :=
  UInt32.ofNat ((nBuckets.toNat * 77 + 50) / 100)

/-- `new_n_buckets` after the rounding at the start of `kh_resize`. -/
def roundBuckets (newNBuckets : UInt32) : UInt32 :=
  if kroundup32 newNBuckets < 4 then 4 else kroundup32 newNBuckets

/-- Which allocations of `kh_resize` succeed. -/
structure ResizeMemory where
  flags : Bool
  keys : Bool
  vals : Bool

/-- The expansion: the two arrays, or the `free` of the new flags where an
array cannot be had. -/
def khExpand (memory : ResizeMemory) (rehash : List LibCode) : List LibCode :=
  if !memory.keys then [armsRealloc, .sys .free]
  else if !memory.vals then [armsRealloc, armsRealloc, .sys .free]
  else armsRealloc :: armsRealloc :: rehash

/-- `kh_resize` on a table of pages, which is a map. -/
def khResize (h : Khash) (newNBuckets : UInt32) (memory : ResizeMemory) : LibCode :=
  let newNBuckets := roundBuckets newNBuckets
  .call .khResize <| .block <|
    if hashUpper newNBuckets ≤ h.size then []
    else if !memory.flags then [armsMalloc]
    else if h.nBuckets < newNBuckets then
      armsMalloc :: khExpand memory [.sys .free]
    else if newNBuckets < h.nBuckets then [armsMalloc, armsRealloc, armsRealloc, .sys .free]
    else [armsMalloc, .sys .free]

/-- The size that `kh_put` asks `kh_resize` for. -/
def Khash.requested (h : Khash) : UInt32 :=
  if (h.size <<< 1) < h.nBuckets then h.nBuckets - 1 else h.nBuckets + 1

def khPut (h : Khash) (memory : ResizeMemory) : LibCode :=
  .call .khPut (.block (if h.upperBound ≤ h.nOccupied then [khResize h h.requested memory] else []))

/-- `kdq_push`, with the resize of a full queue. -/
def kdqPush (q : Kdq ModPage) : LibCode :=
  .call .kdqPush (.block (if q.count = 2 ^ q.bits then [.sys .realloc] else []))

/-- What an insertion into `pages` finds. -/
structure Insertion where
  table : Khash
  memory : ResizeMemory
  modPageDq : Kdq ModPage

def pebsAddPage (ins : Insertion) : LibCode :=
  .call .pebsAddPage (.block [khPut ins.table ins.memory, kdqPush ins.modPageDq])

def pebsRemovePage (modPageDq : Kdq ModPage) : LibCode :=
  .call .pebsRemovePage (kdqPush modPageDq)

/-- One page of `arms_mmap_populate`. -/
def populatePage (ins : Insertion) : LibCode := .block [.sys .mmap, pebsAddPage ins]

def armsMmapPopulate (pages : List Insertion) : LibCode :=
  .call .armsMmapPopulate (.block (pages.map populatePage))

/-- `arms_mmap`; with `MAP_POPULATE`, the insertions of the pages in order. -/
def armsMmap (populate : Option (List Insertion)) : LibCode :=
  .call .armsMmap (.block [.setFlag true, .sys .mmap,
    match populate with
    | none => .skip
    | some pages => armsMmapPopulate pages,
    .setFlag false])

/-- `arms_munmap`, with the queue that each removal of a tracked page finds. -/
def armsMunmap (removals : List (Kdq ModPage)) : LibCode :=
  .call .armsMunmap (.block [.setFlag true, .block (removals.map pebsRemovePage),
    .sys .munmap, .setFlag false])

def armsWpPage : LibCode := .call .armsWpPage (.block [.setFlag true, .setFlag false])

def armsMigrateUp : LibCode :=
  .call .armsMigrateUp (.block [.setFlag true, .sys .mmap, .setFlag false])

def armsMigrateDown : LibCode :=
  .call .armsMigrateDown (.block [.setFlag true, .sys .mmap, .setFlag false])

def handleMissingFault (ins : Insertion) : LibCode :=
  .call .handleMissingFault
    (.block [.setFlag true, .sys .mmap, pebsAddPage ins, .setFlag false])

/-- A call of one of the library's functions, with what its paths depend on. -/
inductive LibCall
  | armsMalloc
  | armsRealloc
  | pebsAddPage (ins : Insertion)
  | pebsRemovePage (modPageDq : Kdq ModPage)
  | armsMmap (populate : Option (List Insertion))
  | armsMunmap (removals : List (Kdq ModPage))
  | armsWpPage
  | armsMigrateUp
  | armsMigrateDown
  | handleMissingFault (ins : Insertion)

def LibCall.code : LibCall → LibCode
  | .armsMalloc => CallTrees.armsMalloc
  | .armsRealloc => CallTrees.armsRealloc
  | .pebsAddPage ins => CallTrees.pebsAddPage ins
  | .pebsRemovePage modPageDq => CallTrees.pebsRemovePage modPageDq
  | .armsMmap populate => CallTrees.armsMmap populate
  | .armsMunmap removals => CallTrees.armsMunmap removals
  | .armsWpPage => CallTrees.armsWpPage
  | .armsMigrateUp => CallTrees.armsMigrateUp
  | .armsMigrateDown => CallTrees.armsMigrateDown
  | .handleMissingFault ins => CallTrees.handleMissingFault ins

/-- The guard nests: every hooked call below a function that set the flag finds
it set, every function returns with the flag as it found it, and the hook on
`munmap` never runs `arms_munmap` below such a function. -/
def GuardNests (internalCall : Bool) (call : LibCall) : Prop :=
  Guarded ⟨internalCall, false⟩ call.code ∧
    ∀ event ∈ (exec ⟨internalCall, false⟩ call.code).events,
      event.context.inside = true → event.call.unmaps = true →
        munmapFilterEnters event.context.flag = false

/-- The insertion rehashes the table: it is full and the new size is enough. -/
def Insertion.rehashes (ins : Insertion) : Bool :=
  decide (ins.table.upperBound ≤ ins.table.nOccupied) &&
    decide (ins.table.size < hashUpper (roundBuckets ins.table.requested))

/-- No function that sets the flag is called with the flag set. -/
def LibCall.Separate (internalCall : Bool) : LibCall → Prop
  | .pebsAddPage ins => ins.rehashes = true → internalCall = false
  | .pebsRemovePage _ => True
  | .armsMmap populate =>
      internalCall = false ∧ ∀ ins ∈ populate.getD [], ins.rehashes = false
  | .handleMissingFault ins => internalCall = false ∧ ins.rehashes = false
  | .armsMalloc | .armsRealloc | .armsMunmap _ | .armsWpPage | .armsMigrateUp
  | .armsMigrateDown => internalCall = false

/-! ## The trees -/

theorem guardNests_iff_guarded (internalCall : Bool) (call : LibCall) :
    GuardNests internalCall call ↔ Guarded ⟨internalCall, false⟩ call.code := by
  refine ⟨And.left, fun hguarded => ⟨hguarded, fun event hmem hinside _ => ?_⟩⟩
  rw [munmapFilterEnters, hguarded.1 event hmem hinside]
  rfl

section Trees

variable (context : Context)

theorem guarded_armsMalloc : Guarded context armsMalloc ↔ context.flag = false := by
  simp [armsMalloc, guarded_call]

theorem exec_armsMalloc : (exec context armsMalloc).context = ⟨false, context.inside⟩ := rfl

theorem guarded_armsRealloc : Guarded context armsRealloc ↔ context.flag = false := by
  simp [armsRealloc, guarded_call]

theorem exec_armsRealloc : (exec context armsRealloc).context = ⟨false, context.inside⟩ := rfl

/-- With the flag set, the rehash starts with a violation: `arms_malloc`. -/
theorem not_guarded_khResize {h : Khash} {newNBuckets : UInt32}
    (hrehash : h.size < hashUpper (roundBuckets newNBuckets)) (memory : ResizeMemory)
    (hflag : context.flag = true) : ¬ Guarded context (khResize h newNBuckets memory) := by
  have hmalloc : ∀ rest, ¬ Guarded context (.block (armsMalloc :: rest)) := by
    intro rest hguarded
    have hclear := (guarded_armsMalloc context).mp ((guarded_block_cons context _ _).mp hguarded).1
    rw [hflag] at hclear
    cases hclear
  unfold khResize
  rw [guarded_call, if_neg (UInt32.not_le.mpr hrehash)]
  rintro ⟨hbody, -⟩
  split at hbody
  · exact hmalloc _ hbody
  · split at hbody
    · exact hmalloc _ hbody
    · split at hbody <;> exact hmalloc _ hbody

/-- Outside of all sections `kh_resize` is guarded on every path. -/
theorem guarded_khResize (h : Khash) (newNBuckets : UInt32) (memory : ResizeMemory) :
    Guarded ⟨false, false⟩ (khResize h newNBuckets memory) ∧
      (exec ⟨false, false⟩ (khResize h newNBuckets memory)).context = ⟨false, false⟩ := by
  unfold khResize khExpand
  rw [guarded_call, exec_call]
  split_ifs <;> simp [guarded_armsMalloc, exec_armsMalloc, guarded_armsRealloc, exec_armsRealloc]

theorem exec_kdqPush (q : Kdq ModPage) : (exec context (kdqPush q)).context = context := by
  unfold kdqPush
  split <;> rfl

theorem guarded_kdqPush (q : Kdq ModPage) (hsound : context.inside = true → context.flag = true) :
    Guarded context (kdqPush q) := by
  unfold kdqPush
  rw [guarded_call]
  split
  · simpa using hsound
  · simp

variable (ins : Insertion)

/-- An insertion that does not rehash keeps the flag. -/
theorem pebsAddPage_of_not_rehashes (hnot : ins.rehashes = false)
    (hsound : context.inside = true → context.flag = true) :
    Guarded context (pebsAddPage ins) ∧ (exec context (pebsAddPage ins)).context = context := by
  have hput : Guarded context (khPut ins.table ins.memory) ∧
      (exec context (khPut ins.table ins.memory)).context = context := by
    unfold khPut
    rw [guarded_call]
    split
    · rename_i hfull
      have hsmall : hashUpper (roundBuckets ins.table.requested) ≤ ins.table.size := by
        simpa [Insertion.rehashes, hfull] using hnot
      simp [khResize, guarded_call, hsmall]
    · simp
  unfold pebsAddPage
  rw [guarded_call]
  simp [hput, exec_kdqPush, guarded_kdqPush context ins.modPageDq hsound]

theorem not_guarded_pebsAddPage (hrehashes : ins.rehashes = true) (hflag : context.flag = true) :
    ¬ Guarded context (pebsAddPage ins) := by
  simp only [Insertion.rehashes, Bool.and_eq_true, decide_eq_true_eq] at hrehashes
  intro hguarded
  unfold pebsAddPage khPut at hguarded
  rw [guarded_call, guarded_block_cons, guarded_call, if_pos hrehashes.1,
    guarded_block_cons] at hguarded
  exact not_guarded_khResize context hrehashes.2 ins.memory hflag hguarded.1.1.1.1

theorem guarded_pebsAddPage_outside : Guarded ⟨false, false⟩ (pebsAddPage ins) := by
  have hput : Guarded ⟨false, false⟩ (khPut ins.table ins.memory) ∧
      (exec ⟨false, false⟩ (khPut ins.table ins.memory)).context = ⟨false, false⟩ := by
    have hresize := guarded_khResize ins.table ins.table.requested ins.memory
    unfold khPut
    rw [guarded_call]
    split <;> simp [hresize]
  have hpush := guarded_kdqPush ⟨false, false⟩ ins.modPageDq (by simp)
  unfold pebsAddPage
  rw [guarded_call]
  simp [hput, hpush, exec_kdqPush]

end Trees

/-- A section: the flag is set, the body runs, the flag is cleared. -/
theorem guarded_section (fn : LibFn) (internalCall : Bool) (body : List LibCode) :
    Guarded ⟨internalCall, false⟩
        (.call fn (.block (.setFlag true :: body ++ [.setFlag false]))) ↔
      internalCall = false ∧ Guarded ⟨true, true⟩ (.block body) := by
  have happend : ∀ (pieces : List LibCode) (context : Context),
      (Guarded context (.block (pieces ++ [.setFlag false])) ↔ Guarded context (.block pieces)) ∧
        (exec context (.block (pieces ++ [.setFlag false]))).context.flag = false := by
    intro pieces
    induction pieces with
    | nil => intro context; simp
    | cons piece pieces ih => intro context; simp [ih]
  rw [guarded_call, List.cons_append, guarded_block_cons, exec_block_cons, exec_setFlag,
    (happend body _).1, (happend body _).2]
  simp only [guarded_setFlag, true_and, Bool.false_or, eq_comm]
  exact and_comm

/-- The pages of a populated mapping: the first one that rehashes the table
spoils the rest of the section. -/
theorem guarded_armsMmapPopulate (pages : List Insertion) :
    Guarded ⟨true, true⟩ (armsMmapPopulate pages) ↔ ∀ ins ∈ pages, ins.rehashes = false := by
  have hpage : ∀ ins : Insertion, ins.rehashes = false →
      Guarded ⟨true, true⟩ (populatePage ins) ∧
        (exec ⟨true, true⟩ (populatePage ins)).context = ⟨true, true⟩ := by
    intro ins hnot
    have hadd := pebsAddPage_of_not_rehashes ⟨true, true⟩ ins hnot fun _ => rfl
    simp [populatePage, hadd]
  have hblock : Guarded ⟨true, true⟩ (.block (pages.map populatePage)) →
      ∀ ins ∈ pages, ins.rehashes = false := by
    induction pages with
    | nil => simp
    | cons ins pages ih =>
        intro hguarded
        rw [List.map_cons, guarded_block_cons] at hguarded
        have hnot : ins.rehashes = false := by
          rw [← Bool.not_eq_true]
          intro hrehashes
          have hadd := hguarded.1
          rw [populatePage, guarded_block_cons, guarded_block_cons] at hadd
          exact not_guarded_pebsAddPage _ ins hrehashes rfl hadd.2.1
        rw [(hpage ins hnot).2] at hguarded
        exact List.forall_mem_cons.mpr ⟨hnot, ih hguarded.2⟩
  unfold armsMmapPopulate
  rw [guarded_call]
  refine ⟨fun hguarded => hblock hguarded.1, fun hnot => ?_⟩
  have hcontext : ∀ code ∈ pages.map populatePage,
      (exec ⟨true, true⟩ code).context = ⟨true, true⟩ := by
    intro code hmem
    obtain ⟨ins, hins, rfl⟩ := List.mem_map.mp hmem
    exact (hpage ins (hnot ins hins)).2
  have hkept := guarded_block_of_kept hcontext
  refine ⟨hkept.1.mpr fun code hmem => ?_, by rw [hkept.2]⟩
  obtain ⟨ins, hins, rfl⟩ := List.mem_map.mp hmem
  exact (hpage ins (hnot ins hins)).1

theorem pebsRemovePage_kept {context : Context} (hsound : context.inside = true → context.flag = true)
    (q : Kdq ModPage) :
    Guarded context (pebsRemovePage q) ∧ (exec context (pebsRemovePage q)).context = context := by
  unfold pebsRemovePage
  rw [guarded_call, exec_call, exec_kdqPush]
  exact ⟨⟨guarded_kdqPush context q hsound, rfl⟩, rfl⟩

theorem guarded_removals (removals : List (Kdq ModPage)) :
    Guarded ⟨true, true⟩ (.block (removals.map pebsRemovePage)) ∧
      (exec ⟨true, true⟩ (.block (removals.map pebsRemovePage) : LibCode)).context =
        ⟨true, true⟩ := by
  have hremove : ∀ code ∈ removals.map pebsRemovePage, Guarded ⟨true, true⟩ code ∧
      (exec ⟨true, true⟩ code).context = ⟨true, true⟩ := by
    intro code hmem
    obtain ⟨q, -, rfl⟩ := List.mem_map.mp hmem
    exact pebsRemovePage_kept (fun _ => rfl) q
  have hkept := guarded_block_of_kept fun code hmem => (hremove code hmem).2
  exact ⟨hkept.1.mpr fun code hmem => (hremove code hmem).1, hkept.2⟩

/-! ## Where the guard nests -/

/-- The guard nests exactly in the call trees in which no function that sets
the flag is called with the flag set. -/
theorem guardNests_iff (internalCall : Bool) (call : LibCall) :
    GuardNests internalCall call ↔ call.Separate internalCall := by
  rw [guardNests_iff_guarded]
  cases call with
  | armsMalloc => exact guarded_armsMalloc ⟨internalCall, false⟩
  | armsRealloc => exact guarded_armsRealloc ⟨internalCall, false⟩
  | pebsAddPage ins =>
      constructor
      · intro hguarded hrehashes
        rw [← Bool.not_eq_true]
        exact fun hflag => not_guarded_pebsAddPage _ ins hrehashes hflag hguarded
      · intro hseparate
        cases hrehashes : ins.rehashes with
        | false => exact (pebsAddPage_of_not_rehashes _ ins hrehashes (by simp)).1
        | true =>
            rw [hseparate hrehashes]
            exact guarded_pebsAddPage_outside ins
  | pebsRemovePage q => exact iff_of_true (pebsRemovePage_kept (by simp) q).1 trivial
  | armsMmap populate =>
      refine (guarded_section .armsMmap internalCall [.sys .mmap, _]).trans ?_
      refine and_congr_right fun _ => ?_
      cases populate with
      | none => simp
      | some pages => simp [guarded_armsMmapPopulate]
  | armsMunmap removals =>
      refine (guarded_section .armsMunmap internalCall
        [.block (removals.map pebsRemovePage), .sys .munmap]).trans ?_
      simp [guarded_removals, LibCall.Separate]
  | armsWpPage =>
      refine (guarded_section .armsWpPage internalCall []).trans ?_
      simp [LibCall.Separate]
  | armsMigrateUp =>
      refine (guarded_section .armsMigrateUp internalCall [.sys .mmap]).trans ?_
      simp [LibCall.Separate]
  | armsMigrateDown =>
      refine (guarded_section .armsMigrateDown internalCall [.sys .mmap]).trans ?_
      simp [LibCall.Separate]
  | handleMissingFault ins =>
      refine (guarded_section .handleMissingFault internalCall
        [.sys .mmap, pebsAddPage ins]).trans ?_
      refine and_congr_right fun _ => ?_
      rw [guarded_block_cons, guarded_block_cons, exec_sys]
      constructor
      · rintro ⟨-, hadd, -⟩
        rw [← Bool.not_eq_true]
        exact fun hrehashes => not_guarded_pebsAddPage _ ins hrehashes rfl hadd
      · intro hnot
        exact ⟨by simp, (pebsAddPage_of_not_rehashes _ ins hnot fun _ => rfl).1, by simp⟩

/-- The insertion of the first page: `pages` has no buckets yet. -/
def firstInsertion : Insertion where
  table := ⟨0, 0, 0, 0⟩
  memory := ⟨true, true, true⟩
  modPageDq := kdqInit fun _ => ⟨0, false⟩

/-- The first page fault makes the table's first buckets, and the flag is clear
for the rest of the fault. -/
theorem not_guardNests_firstFault :
    ¬ GuardNests false (.handleMissingFault firstInsertion) := by
  have hcleared : Event.mk .free ⟨false, true⟩ ∈
      (exec ⟨false, false⟩ (LibCall.handleMissingFault firstInsertion).code).events := by
    decide +kernel
  intro hnests
  cases hnests.1.1 _ hcleared rfl

end ArmsTiering.CallTrees
