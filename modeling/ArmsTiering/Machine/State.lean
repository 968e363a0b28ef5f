import ArmsTiering.Migration.Pipeline
import Mathlib.Tactic.Simps.Basic

/-!
# The tiering machine

All threads of the page manager over one state: fault handlers and `munmap`
callers, the application, the policy thread, and the migration workers.  The
atomic steps are the regions that a mutex protects, and the single accesses
between them.  A step consists of a guard, the assertions that the code checks
on the way, an effect on the pages, and, for the threads of the migration
pipeline, an action of the pipeline.
-/

namespace ArmsTiering

/-- A page-sized range of one of the two devdax files. -/
structure Frame where
  inDram : Bool
  devdaxOffset : ℕ
  deriving DecidableEq, Repr

abbrev Va := ℕ

/-- The bytes of a frame, by offset. -/
abbrev Contents := ℕ → UInt8

/-- The page structs of the machine.  No step below reads one of the scores. -/
abbrev Page := ArmsPage ℚ windowSize

/-- The list on which a page of the given tier belongs. -/
def FreeList.ofTier (inDram : Bool) : FreeList := if inDram then .dram else .nvm

/-! ## Program counters -/

/-- A thread in `handle_missing_fault` or in `arms_munmap`. -/
inductive Client
  | idle
  /-- after `pagefault()` -/
  | allocated (va : Va) (p : PageId)
  /-- after `libc_mmap` -/
  | mapped (va : Va) (p : PageId)
  /-- after the assignment to `page->va` -/
  | vaSet (p : PageId)
  /-- in `pebs_add_page`, before the push -/
  | added (p : PageId)
  /-- in `pebs_remove_page`, before the push -/
  | deleted (va : Va) (p : PageId)
  /-- in `pebs_remove_page`, before `present` is cleared -/
  | pushed (va : Va) (p : PageId)
  /-- before `libc_munmap` -/
  | cleared (va : Va)
  deriving DecidableEq, Repr

/-- The thread handles a fault at `va` and has not yet set the page's `va`. -/
def Client.faultsAt (va : Va) : Client → Bool
  | .allocated v _ | .mapped v _ => v == va
  | _ => false

/-- The two halves of a request: `demote_to_free_nvm_page` and
`promote_to_free_dram_page`. -/
inductive Half
  | demotion
  | promotion
  deriving DecidableEq, Repr

namespace Half

/-- The page that the half moves. -/
def page : Half → MigrationReq → PageId
  | .demotion, req => req.dramPage
  | .promotion, req => req.nvmPage

/-- The tier that the page leaves. -/
def sourceInDram : Half → Bool
  | .demotion => true
  | .promotion => false

def worker : Half → MigrationReq → Worker
  | .demotion, req => .demote req
  | .promotion, req => .promote req

def finish : Half → ℕ → Bool → PipelineAction
  | .demotion, i, present => .endDemote i present
  | .promotion, i, present => .endPromote i present

end Half

/-- How far a worker is in a half; all but `start` carry the local `old_offset`. -/
inductive Stage
  | start
  /-- `present` was set and `page_lock` is held -/
  | locked (oldOffset : ℕ)
  | writeProtected (oldOffset : ℕ)
  | copied (oldOffset : ℕ)
  /-- the page struct has its new frame -/
  | remapped (oldOffset : ℕ)
  | unlocked (oldOffset : ℕ)
  deriving DecidableEq, Repr

/-! ## State -/

structure Machine where
  dramsize : ℕ
  nvmsize : ℕ
  page : PageId → Page
  /-- the worker that holds `page_lock` of a page -/
  pageLock : PageId → Option ℕ
  /-- `dram_free_list` and `nvm_free_list`, next page to dequeue first -/
  freeList : FreeList → List PageId
  pages : Va → Option PageId
  pagesMap : Va → Option PageId
  modPageDq : List ModPage
  pipe : Pipeline
  /-- entries of `scores` that the policy thread has passed in this interval -/
  usedKeys : List Va
  stage : ℕ → Stage
  clients : List Client
  /-- the frame that the page table has for an address -/
  mapping : Va → Option Frame
  writeProtected : Va → Bool
  mem : Frame → Contents
  /-- an assertion has failed -/
  aborted : Bool
  /-- history: pages for which a free record was pushed -/
  removed : List PageId
  /-- history: pages that the policy thread put on a free list -/
  freed : List PageId

/-- The frame that `pebs_init` gives to a struct: first the DRAM structs, then
the NVM structs. -/
def initialFrame (dramPages : ℕ) (p : PageId) : Frame :=
  if p < dramPages then ⟨true, p * pageSize⟩ else ⟨false, (p - dramPages) * pageSize⟩

/-- `pebs_init`, with the given numbers of workers and of client threads. -/
def pebsInit (dramsize nvmsize workers clients : ℕ) : Machine where
  dramsize := dramsize
  nvmsize := nvmsize
  page := fun p =>
    callocPage (initialFrame (dramsize / pageSize) p).devdaxOffset
      (initialFrame (dramsize / pageSize) p).inDram
  pageLock := fun _ => none
  freeList
    | .dram => List.range (dramsize / pageSize)
    | .nvm => List.range' (dramsize / pageSize) (nvmsize / pageSize)
  pages := fun _ => none
  pagesMap := fun _ => none
  modPageDq := []
  pipe := pipelineInit workers
  usedKeys := []
  stage := fun _ => .start
  clients := List.replicate clients .idle
  mapping := fun _ => none
  writeProtected := fun _ => false
  mem := fun _ _ => 0
  aborted := false
  removed := []
  freed := []

namespace Machine

/-- The frame that the page struct names. -/
def frameOf (s : Machine) (p : PageId) : Frame :=
  ⟨(s.page p).inDram, (s.page p).devdaxOffset⟩

def abort (s : Machine) : Machine := { s with aborted := true }

@[simps -fullyApplied]
def setPipe (s : Machine) (pipe : Pipeline) : Machine := { s with pipe := pipe }

@[simps -fullyApplied]
def setPage (s : Machine) (p : PageId) (f : Page → Page) : Machine :=
  { s with page := Function.update s.page p (f (s.page p)) }

@[simps -fullyApplied]
def setClient (s : Machine) (c : ℕ) (client : Client) : Machine :=
  { s with clients := s.clients.set c client }

@[simps -fullyApplied]
def setStage (s : Machine) (i : ℕ) (stage : Stage) : Machine :=
  { s with stage := Function.update s.stage i stage }

@[simps -fullyApplied]
def setLock (s : Machine) (p : PageId) (holder : Option ℕ) : Machine :=
  { s with pageLock := Function.update s.pageLock p holder }

@[simps -fullyApplied]
def mapFrame (s : Machine) (va : Va) (frame : Option Frame) : Machine :=
  { s with
    mapping := Function.update s.mapping va frame
    writeProtected := Function.update s.writeProtected va false }

@[simps -fullyApplied]
def setMem (s : Machine) (frame : Frame) (contents : Contents) : Machine :=
  { s with mem := Function.update s.mem frame contents }

/-- `enqueue_fifo` -/
@[simps -fullyApplied]
def enqueueFifo (s : Machine) (list : FreeList) (p : PageId) : Machine :=
  { s with freeList := Function.update s.freeList list (s.freeList list ++ [p]) }

/-- `dequeue_fifo` on a list that is not empty -/
@[simps -fullyApplied]
def dequeueFifo (s : Machine) (list : FreeList) : Machine :=
  { s with freeList := Function.update s.freeList list (s.freeList list).tail }

/-- `kdq_push` under `mod_page_dq_lock` -/
@[simps -fullyApplied]
def pushRecord (s : Machine) (mp : ModPage) : Machine :=
  { s with modPageDq := s.modPageDq ++ [mp] }

end Machine

end ArmsTiering
