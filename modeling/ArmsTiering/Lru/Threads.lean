import ArmsTiering.Core.Transition
import ArmsTiering.Lru.Policy

/-!
# The threads of the LRU policy

The scanner, which takes no lock but those of the lists, and the swapper, the fault
handler and the removals, which work under the global lock, as they are built without
`LRU_SWAP`.  Every list operation, test and flag write is a step of its own.
-/

namespace ArmsTiering.Lru

open Function

/-! ## The scanner -/

inductive ScanKind where
  | checkWrites
  | shrink
  | expand
  deriving DecidableEq, Repr

/-- A call of `lru_kscand`, and the memory whose lists it is given. -/
structure ScanCall where
  kind : ScanKind
  inDram : Bool
  deriving DecidableEq, Repr

namespace ScanCall

/-- The call that follows. -/
def next : ScanCall → Option ScanCall
  | ⟨.checkWrites, true⟩ => some ⟨.checkWrites, false⟩
  | ⟨.checkWrites, false⟩ => some ⟨.shrink, true⟩
  | ⟨.shrink, true⟩ => some ⟨.shrink, false⟩
  | ⟨.shrink, false⟩ => some ⟨.expand, true⟩
  | ⟨.expand, true⟩ => some ⟨.expand, false⟩
  | ⟨.expand, false⟩ => none

def lists (call : ScanCall) : Role → LruList := if call.inDram then dramLists else nvmLists

/-- The list that the call goes through. -/
def source (call : ScanCall) : LruList :=
  match call.kind with
  | .checkWrites => call.lists .written
  | .shrink => call.lists .active
  | .expand => call.lists .inactive

def sift (call : ScanCall) : PageBits → ArmsPage → Sifted :=
  match call.kind with
  | .checkWrites => checkWritesSift
  | .shrink => shrinkSift
  | .expand => expandSift

end ScanCall

/-- Where `lru_kscand` is; `left` is the number of rounds to go. -/
inductive ScanPc where
  | asleep
  | count (call : ScanCall)
  | test (call : ScanCall) (left : Nat)
  | take (call : ScanCall) (left : Nat)
  | sift (call : ScanCall) (left page : Nat)
  | put (call : ScanCall) (left page : Nat) (role : Role)
  | clear
  deriving DecidableEq, Repr

def ScanPc.held : ScanPc → List Nat
  | .sift _ _ page | .put _ _ page _ => [page]
  | _ => []

/-! ## The code under the global lock -/

/-- Where the thread that holds the global lock is: the swapper with the number of
pages it has moved, a fault, or a removal. -/
inductive LockedPc where
  | swapTest (migrated : Nat)
  | swapActive (migrated : Nat)
  | swapTry (migrated tries p : Nat) (fromWritten : Bool)
  | swapUp (migrated p np : Nat)
  | swapUpFrame (migrated p np oldOffset : Nat)
  | swapUpPut (migrated p np : Nat)
  | swapUpFree (migrated np : Nat)
  | swapCold (migrated tries p : Nat) (fromWritten : Bool)
  | swapBack (p : Nat) (fromWritten : Bool)
  | swapNvm (migrated tries p : Nat) (fromWritten : Bool) (cp : Nat)
  | swapDown (migrated tries p : Nat) (fromWritten : Bool) (cp np : Nat)
  | swapDownFrame (migrated tries p : Nat) (fromWritten : Bool) (cp np oldOffset : Nat)
  | swapDownPut (migrated tries p : Nat) (fromWritten : Bool) (cp np : Nat)
  | swapDownFree (migrated tries p : Nat) (fromWritten : Bool) (np : Nat)
  | faultDram
  | faultNvm
  | faultPresent (page : Nat) (inDram : Bool)
  | faultPut (page : Nat) (inDram : Bool)
  | removeRead (page : Nat)
  | removeUnlink (page : Nat) (list : LruList)
  | removeAbsent (page : Nat)
  | removeFree (page : Nat)
  | unlock
  deriving DecidableEq, Repr

def LockedPc.held : LockedPc → List Nat
  | .swapTry _ _ p _ | .swapCold _ _ p _ | .swapBack p _ => [p]
  | .swapUp _ p np | .swapUpFrame _ p np _ | .swapUpPut _ p np => [p, np]
  | .swapUpFree _ np => [np]
  | .swapNvm _ _ p _ cp => [p, cp]
  | .swapDown _ _ p _ cp np | .swapDownFrame _ _ p _ cp np _ | .swapDownPut _ _ p _ cp np =>
      [p, cp, np]
  | .swapDownFree _ _ p _ np => [p, np]
  | .faultPresent page _ | .faultPut page _ | .removeAbsent page | .removeFree page => [page]
  | _ => []

/-- `calling` and `passed` are the removals before and after their test of
`in_kscand`; `locked` is the thread that holds the global lock. -/
structure Threads where
  lru : LruState
  scan : ScanPc
  inKscand : Bool
  calling : List Nat
  passed : List Nat
  locked : Option LockedPc

/-- Steps of the scanner, with the bits it reads; the steps by which a thread gets to
the global lock; and steps of the thread that holds it. -/
inductive LruAction where
  | scan (seen : PageBits)
  | beginSwap
  | beginFault
  | callRemove (page : Nat)
  | passTest (page : Nat)
  | beginRemove (page : Nat)
  | locked
  deriving DecidableEq

/-- `KSWAPD_MIGRATE_RATE / PAGE_SIZE` -/
def migrateRate : Nat := 50 * 1024 * 1024 * 1024 / pageSize

namespace Threads

/-- The state after `lru_init`. -/
def start (dramPages nvmPages : Nat) : Threads where
  lru := match lruInit dramPages nvmPages with
    | .ok s => s
    | .error _ => emptyLists dramPages
  scan := .asleep
  inKscand := false
  calling := []
  passed := []
  locked := none

/-- The scanner goes on to the next call, or to clearing the bits. -/
def endCall (t : Threads) (call : ScanCall) : Threads :=
  match call.next with
  | some next => { t with scan := .count next }
  | none => { t with scan := .clear }

/-- A step of `lru_kscand`; undefined where the process is brought down. -/
def scanStep (t : Threads) (seen : PageBits) : Option Threads :=
  match t.scan with
  | .asleep =>
      some { t with
        inKscand := true, lru := { t.lru with vas := [] }, scan := .count ⟨.checkWrites, true⟩ }
  | .count call => some { t with scan := .test call (t.lru.numentries call.source) }
  | .test call left =>
      if left = 0 ∨ (call.kind = .shrink ∧ t.lru.numentries call.source = 0) then
        some (t.endCall call)
      else some { t with scan := .take call (left - 1) }
  | .take call left =>
      match t.lru.dequeue call.source with
      | .error _ => none
      | .ok (none, s) =>
          if call.kind = .shrink then none else some ({ t with lru := s }.endCall call)
      | .ok (some page, s) => some { t with lru := s, scan := .sift call left page }
  | .sift call left page =>
      let sifted := call.sift seen (t.lru.pages page)
      let s := t.lru.setPage page sifted.page
      match if sifted.notes then s.recordVa page else .ok s with
      | .error _ => none
      | .ok s => some { t with lru := s, scan := .put call left page sifted.role }
  | .put call left page role =>
      match t.lru.enqueue (call.lists role) page with
      | .error _ => none
      | .ok s => some { t with lru := s, scan := .test call left }
  | .clear => some { t with inKscand := false, scan := .asleep }

/-- A list operation by the thread that holds the global lock. -/
def lockedTake (t : Threads) (list : LruList) (found : Nat → LockedPc) (missing : Option LockedPc) :
    Option Threads :=
  match t.lru.dequeue list with
  | .error _ => none
  | .ok (none, s) => missing.map fun pc => { t with lru := s, locked := some pc }
  | .ok (some page, s) => some { t with lru := s, locked := some (found page) }

def lockedPut (t : Threads) (list : LruList) (page : Nat) (pc : LockedPc) : Option Threads :=
  match t.lru.enqueue list page with
  | .error _ => none
  | .ok s => some { t with lru := s, locked := some pc }

/-- A step of the thread that holds the global lock; undefined where the process is
brought down. -/
def lockedStep (t : Threads) : LockedPc → Option Threads
  | .swapTest migrated =>
      if migrated < migrateRate then
        t.lockedTake .nvmWritten (fun p => .swapTry migrated 0 p true) (some (.swapActive migrated))
      else some { t with locked := some .unlock }
  | .swapActive migrated =>
      t.lockedTake .nvmActive (fun p => .swapTry migrated 0 p false) (some .unlock)
  | .swapTry migrated tries p fromWritten =>
      t.lockedTake .dramFree (fun np => .swapUp migrated p np)
        (some (.swapCold migrated tries p fromWritten))
  | .swapUp migrated p np =>
      if (t.lru.pages np).present then none
      else some { t with
        lru := t.lru.lruMigrateUp p (t.lru.pages np).devdaxOffset
        locked := some (.swapUpFrame migrated p np (t.lru.pages p).devdaxOffset) }
  | .swapUpFrame migrated p np oldOffset =>
      some { t with
        lru := t.lru.setPage np { t.lru.pages np with
          devdaxOffset := oldOffset, inDram := false, present := false }
        locked := some (.swapUpPut migrated p np) }
  | .swapUpPut migrated p np => t.lockedPut .active p (.swapUpFree migrated np)
  | .swapUpFree migrated np => t.lockedPut .nvmFree np (.swapTest (migrated + 1))
  | .swapCold migrated tries p fromWritten =>
      t.lockedTake .inactive (fun cp => .swapNvm migrated tries p fromWritten cp)
        (some (.swapBack p fromWritten))
  | .swapBack p fromWritten =>
      t.lockedPut (if fromWritten then .nvmWritten else .nvmActive) p .unlock
  | .swapNvm migrated tries p fromWritten cp =>
      t.lockedTake .nvmFree (fun np => .swapDown migrated tries p fromWritten cp np) none
  | .swapDown migrated tries p fromWritten cp np =>
      if (t.lru.pages np).present then none
      else some { t with
        lru := t.lru.lruMigrateDown cp (t.lru.pages np).devdaxOffset
        locked := some (.swapDownFrame migrated tries p fromWritten cp np
          (t.lru.pages cp).devdaxOffset) }
  | .swapDownFrame migrated tries p fromWritten cp np oldOffset =>
      some { t with
        lru := t.lru.setPage np { t.lru.pages np with
          devdaxOffset := oldOffset, inDram := true, present := false }
        locked := some (.swapDownPut migrated tries p fromWritten cp np) }
  | .swapDownPut migrated tries p fromWritten cp np =>
      t.lockedPut .nvmInactive cp (.swapDownFree migrated tries p fromWritten np)
  | .swapDownFree migrated tries p fromWritten np =>
      t.lockedPut .dramFree np
        (if tries + 1 < 2 then .swapTry migrated (tries + 1) p fromWritten
        else .swapTest migrated)
  | .faultDram => t.lockedTake .dramFree (fun page => .faultPresent page true) (some .faultNvm)
  | .faultNvm => t.lockedTake .nvmFree (fun page => .faultPresent page false) none
  | .faultPresent page inDram =>
      if (t.lru.pages page).inDram ≠ inDram ∨ (t.lru.pages page).present then none
      else some { t with
        lru := t.lru.setPage page { t.lru.pages page with present := true }
        locked := some (.faultPut page inDram) }
  | .faultPut page inDram => t.lockedPut (if inDram then .active else .nvmActive) page .unlock
  | .removeRead page =>
      (t.lru.fifos.list page).map fun list =>
        { t with locked := some (.removeUnlink page list) }
  | .removeUnlink page list =>
      match pageListRemovePage t.lru.fifos list page with
      | .error _ => none
      | .ok fifos => some { t with
          lru := { t.lru with fifos := fifos }, locked := some (.removeAbsent page) }
  | .removeAbsent page =>
      some { t with
        lru := t.lru.setPage page { t.lru.pages page with present := false }
        locked := some (.removeFree page) }
  | .removeFree page =>
      t.lockedPut (if (t.lru.pages page).inDram then .dramFree else .nvmFree) page .unlock
  | .unlock => some { t with locked := none }

def step (t : Threads) : LruAction → Option Threads
  | .scan seen => t.scanStep seen
  | .beginSwap =>
      if t.locked = none then some { t with locked := some (.swapTest 0) } else none
  | .beginFault => if t.locked = none then some { t with locked := some .faultDram } else none
  | .callRemove page => some { t with calling := page :: t.calling }
  | .passTest page =>
      if page ∈ t.calling ∧ t.inKscand = false then
        some { t with calling := t.calling.erase page, passed := page :: t.passed }
      else none
  | .beginRemove page =>
      if page ∈ t.passed ∧ t.locked = none then
        some { t with passed := t.passed.erase page, locked := some (.removeRead page) }
      else none
  | .locked => t.locked.bind t.lockedStep

/-- The pages in the hands of a thread. -/
def held (t : Threads) : List Nat := t.scan.held ++ (t.locked.map LockedPc.held).getD []

/-- Every page is on exactly one list or in the hands of exactly one thread, the
counts of the lists are their lengths, and the lists of a memory hold pages in it. -/
def Partition (total : Nat) (t : Threads) : Prop :=
  ∃ contents, Represents t.lru.fifos contents ∧
    (∀ list, ∀ page ∈ contents list, (t.lru.pages page).inDram = list.inDram) ∧
    ∀ page, page < total →
      (∃! list, page ∈ contents list) ∧ t.held.count page = 0 ∨
        (∀ list, page ∉ contents list) ∧ t.held.count page = 1

/-- When a removal unlinks its page, the page is on the list that the removal read. -/
def UnlinksListed (t : Threads) (action : LruAction) : Prop :=
  match action, t.locked with
  | .locked, some (.removeUnlink page list) => t.lru.fifos.list page = some list
  | _, _ => True

instance (t : Threads) (action : LruAction) : Decidable (t.UnlinksListed action) := by
  unfold UnlinksListed
  split <;> infer_instance

end Threads

end ArmsTiering.Lru
