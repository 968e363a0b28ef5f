import ArmsTiering.Core.Circular
import ArmsTiering.Core.Transition
import ArmsTiering.Flexkvs.Cleaning

/-!
# The cleanup queue

The maintenance thread puts the items that it has pinned into the cleanup queue of
an allocator, and the worker takes them out.  They share no counter and no lock: a
slot that is empty can be written, and one that is not can be taken.  Each access of
either thread is a step of its own.
-/

namespace ArmsTiering.Flexkvs

open Circular

/-- The local variables of the loop of `ialloc_maintenance` that fills the queue. -/
structure EnqueueScan where
  data : ℕ
  off : ℕ
  size : ℕ
  idx : ℕ
  deriving DecidableEq

/-- `it` -/
def EnqueueScan.item (scan : EnqueueScan) : ℕ := scan.data + scan.off

/-- Where the maintenance thread is in its loop. -/
inductive MaintenancePc
  | outside
  | testing (scan : EnqueueScan)
  | pinning (scan : EnqueueScan)
  | storing (scan : EnqueueScan)
  | advancing (scan : EnqueueScan)
  | skipping (scan : EnqueueScan)
  | leaving (scan : EnqueueScan)
  deriving DecidableEq

/-- Where the worker is in `ialloc_cleanup_item`. -/
inductive WorkerPc
  | outside
  | reading
  | clearing (i it : ℕ)
  | advancing (i it : ℕ)
  deriving DecidableEq

/-- One allocator, the two threads, and the items that were pinned and returned. -/
structure CleanupRun where
  mem : Memory
  cleaner : Cleaner
  cleanupCount : ℕ
  maintenance : MaintenancePc
  worker : WorkerPc
  pinned : List ℕ
  returned : List ℕ

inductive CleanupAction
  /-- the maintenance thread has a segment to scan -/
  | scan (data off size : ℕ)
  | maintenance
  /-- `ialloc_cleanup_item` is called -/
  | cleanupItem (idle : Bool)
  | worker
  /-- `ialloc_cleanup_nextrequest` -/
  | nextRequest
  /-- items are written elsewhere -/
  | others (mem : Memory)

namespace CleanupRun

def initial (mem : Memory) : CleanupRun where
  mem := mem
  cleaner := .initial
  cleanupCount := 0
  maintenance := .outside
  worker := .outside
  pinned := []
  returned := []

def setQueue (t : CleanupRun) (slot : ℕ) (item : Option ℕ) : CleanupRun :=
  { t with
    cleaner := { t.cleaner with
      cleanupQueue := Function.update t.cleaner.cleanupQueue slot item } }

section

variable (segcqsize : ℕ)

def maintenanceStep (t : CleanupRun) : Option CleanupRun :=
  match t.maintenance with
  | .outside => none
  | .testing scan =>
      if scan.off < scan.size ∧ t.cleaner.cleanupQueue scan.idx = none then
        if scan.size - scan.off < sizeofItem then
          some { t with maintenance := .leaving { scan with off := scan.size } }
        else some { t with maintenance := .pinning scan }
      else some { t with maintenance := .leaving scan }
  | .pinning scan =>
      let tried := itemTryref t.mem scan.item
      if tried.2 then
        some { t with
          mem := tried.1
          maintenance := .storing scan
          pinned := t.pinned ++ [scan.item] }
      else some { t with mem := tried.1, maintenance := .skipping scan }
  | .storing scan =>
      some { t.setQueue scan.idx (some scan.item) with maintenance := .advancing scan }
  | .advancing scan =>
      some { t with maintenance := .skipping { scan with idx := (scan.idx + 1) % segcqsize } }
  | .skipping scan =>
      some { t with
        maintenance := .testing { scan with off := scan.off + itemTotalsz t.mem scan.item } }
  | .leaving scan =>
      some { t with
        cleaner := { t.cleaner with cqTail := scan.idx, cleanOffset := scan.off }
        maintenance := .outside }

def workerStep (t : CleanupRun) : Option CleanupRun :=
  match t.worker with
  | .outside => none
  | .reading =>
      match t.cleaner.cleanupQueue t.cleaner.cqHead with
      | none => some { t with worker := .outside }
      | some it => some { t with worker := .clearing t.cleaner.cqHead it }
  | .clearing i it => some { t.setQueue i none with worker := .advancing i it }
  | .advancing i it =>
      some { t with
        cleaner := { t.cleaner with cqHead := (i + 1) % segcqsize }
        worker := .outside
        returned := t.returned ++ [it] }

def step (t : CleanupRun) : CleanupAction → Option CleanupRun
  | .scan data off size =>
      if t.maintenance = .outside then
        some { t with maintenance := .testing ⟨data, off, size, t.cleaner.cqTail⟩ }
      else none
  | .maintenance => t.maintenanceStep segcqsize
  | .cleanupItem idle =>
      if t.worker = .outside then
        if idle then some { t with worker := .reading }
        else if 32 ≤ t.cleanupCount then some t
        else some { t with cleanupCount := t.cleanupCount + 1, worker := .reading }
      else none
  | .worker => t.workerStep segcqsize
  | .nextRequest =>
      if t.worker = .outside then some { t with cleanupCount := 0 } else none
  | .others mem => some { t with mem := mem }

/-! ## What is handed over -/

/-- `cq_head`, as advanced once its slot is cleared. -/
def head (t : CleanupRun) : ℕ :=
  match t.worker with
  | .advancing i _ => (i + 1) % segcqsize
  | _ => t.cleaner.cqHead

/-- `cq_tail`, as advanced once its slot is written. -/
def tail (t : CleanupRun) : ℕ :=
  match t.maintenance with
  | .outside => t.cleaner.cqTail
  | .advancing scan => (scan.idx + 1) % segcqsize
  | .testing scan | .pinning scan | .storing scan | .skipping scan | .leaving scan => scan.idx

end

/-- The item that the worker has cleared from its slot and not yet returned. -/
def taken (t : CleanupRun) : List ℕ :=
  match t.worker with
  | .advancing _ it => [it]
  | _ => []

/-- The item that is pinned and not yet stored. -/
def unstored (t : CleanupRun) : List ℕ :=
  match t.maintenance with
  | .storing scan => [scan.item]
  | _ => []

/-- The occupied slots are those from the head to the tail.  What they hold comes,
in the order in which it was pinned, between the items returned and the one that is
not stored yet.  A slot that is written is empty, and one that is cleared holds the
item that is returned. -/
structure HandsOver (segcqsize : ℕ) (t : CleanupRun) : Prop where
  queued : ∃ items : List ℕ, items.length ≤ segcqsize ∧
    t.tail segcqsize = (t.head segcqsize + items.length) % segcqsize ∧
    (∀ slot < segcqsize, t.cleaner.cleanupQueue slot ≠ none ↔
      ∃ k < items.length, slot = (t.head segcqsize + k) % segcqsize) ∧
    circular t.cleaner.cleanupQueue segcqsize (t.head segcqsize) items.length =
      items.map some ∧
    t.pinned = t.returned ++ t.taken ++ items ++ t.unstored
  written : ∀ scan, t.maintenance = .storing scan → t.cleaner.cleanupQueue scan.idx = none
  cleared : ∀ i it, t.worker = .clearing i it → t.cleaner.cleanupQueue i = some it

/-! ## The steps -/

/-- What every step of either thread preserves. -/
structure Inv (segcqsize : ℕ) (t : CleanupRun) : Prop where
  ring : ∃ items, IsSlotRing t.cleaner.cleanupQueue segcqsize (t.head segcqsize) items ∧
    t.tail segcqsize = (t.head segcqsize + items.length) % segcqsize ∧
    t.pinned = t.returned ++ t.taken ++ items ++ t.unstored
  pinning : ∀ scan, t.maintenance = .pinning scan → t.cleaner.cleanupQueue scan.idx = none
  written : ∀ scan, t.maintenance = .storing scan → t.cleaner.cleanupQueue scan.idx = none
  cleared : ∀ i it, t.worker = .clearing i it →
    i = t.cleaner.cqHead ∧ t.cleaner.cleanupQueue i = some it

variable {segcqsize : ℕ} {t t' : CleanupRun}

theorem Inv.handsOver (hinv : Inv segcqsize t) : HandsOver segcqsize t where
  queued := by
    obtain ⟨items, hring, htail, hpinned⟩ := hinv.ring
    exact ⟨items, hring.length_le, htail, fun slot hslot => hring.occupied_iff hslot,
      hring.contents, hpinned⟩
  written := hinv.written
  cleared i it hworker := (hinv.cleared i it hworker).2

theorem inv_initial (mem : Memory) (hsize : 1 ≤ segcqsize) : Inv segcqsize (initial mem) where
  ring := ⟨[], IsSlotRing.nil hsize fun _ _ => rfl, (Nat.zero_mod _).symm, rfl⟩
  pinning := nofun
  written := nofun
  cleared := nofun

/-- The maintenance thread goes on without touching the queue. -/
theorem Inv.setMaintenance (hinv : Inv segcqsize t) {mem : Memory} {pc : MaintenancePc}
    (htail : CleanupRun.tail segcqsize { t with mem := mem, maintenance := pc } =
      t.tail segcqsize)
    (hunstored : CleanupRun.unstored { t with mem := mem, maintenance := pc } = t.unstored)
    (hpinning : ∀ scan, pc = .pinning scan → t.cleaner.cleanupQueue scan.idx = none)
    (hwritten : ∀ scan, pc = .storing scan → t.cleaner.cleanupQueue scan.idx = none) :
    Inv segcqsize { t with mem := mem, maintenance := pc } where
  ring := by
    obtain ⟨items, hring, hend, hpinned⟩ := hinv.ring
    exact ⟨items, hring, htail.trans hend, by rw [hunstored]; exact hpinned⟩
  pinning := hpinning
  written := hwritten
  cleared := hinv.cleared

theorem Inv.maintenanceStep (hinv : Inv segcqsize t)
    (hstep : t.maintenanceStep segcqsize = some t') : Inv segcqsize t' := by
  obtain ⟨items, hring, htail, hpinned⟩ := hinv.ring
  unfold CleanupRun.maintenanceStep at hstep
  cases hpc : t.maintenance with
  | outside =>
      rw [hpc] at hstep
      cases hstep
  | testing scan =>
      have hidx : t.tail segcqsize = scan.idx := by rw [CleanupRun.tail, hpc]
      have hunstored : t.unstored = [] := by rw [unstored, hpc]
      rw [hpc] at hstep
      dsimp only at hstep
      split at hstep
      · rename_i hgoes
        split at hstep
        · obtain rfl := Option.some.inj hstep
          exact hinv.setMaintenance hidx.symm hunstored.symm nofun nofun
        · obtain rfl := Option.some.inj hstep
          refine hinv.setMaintenance hidx.symm hunstored.symm (fun other heq => ?_) nofun
          obtain rfl := MaintenancePc.pinning.inj heq
          exact hgoes.2
      · obtain rfl := Option.some.inj hstep
        exact hinv.setMaintenance hidx.symm hunstored.symm nofun nofun
  | pinning scan =>
      have hidx : t.tail segcqsize = scan.idx := by rw [CleanupRun.tail, hpc]
      have hunstored : t.unstored = [] := by rw [unstored, hpc]
      have hempty := hinv.pinning scan hpc
      rw [hpc] at hstep
      dsimp only at hstep
      split at hstep
      · obtain rfl := Option.some.inj hstep
        rw [hunstored, List.append_nil] at hpinned
        refine ⟨⟨items, hring, hidx.symm.trans htail, ?_⟩, nofun, fun other heq => ?_,
          hinv.cleared⟩
        · show t.pinned ++ [scan.item] = _
          rw [hpinned]
          rfl
        · obtain rfl := MaintenancePc.storing.inj heq
          exact hempty
      · obtain rfl := Option.some.inj hstep
        exact hinv.setMaintenance hidx.symm hunstored.symm nofun nofun
  | storing scan =>
      have hidx : t.tail segcqsize = scan.idx := by rw [CleanupRun.tail, hpc]
      have hunstored : t.unstored = [scan.item] := by rw [unstored, hpc]
      have hempty := hinv.written scan hpc
      rw [hpc] at hstep
      obtain rfl := Option.some.inj hstep
      have hslot : scan.idx = (t.head segcqsize + items.length) % segcqsize :=
        hidx.symm.trans htail
      have hpush := hring.push (hslot ▸ hempty) scan.item
      rw [← hslot] at hpush
      refine ⟨⟨items ++ [scan.item], hpush, ?_, ?_⟩, nofun, nofun, fun i it hworker => ?_⟩
      · show (scan.idx + 1) % segcqsize = (t.head segcqsize + (items ++ [scan.item]).length) % _
        rw [hslot, Nat.mod_add_mod, List.length_append, List.length_singleton, Nat.add_assoc]
      · show t.pinned = t.returned ++ t.taken ++ (items ++ [scan.item]) ++ []
        rw [hpinned, hunstored, List.append_nil, List.append_assoc _ items]
      · obtain ⟨hhead, hitem⟩ := hinv.cleared i it hworker
        refine ⟨hhead, ?_⟩
        have hne : i ≠ scan.idx := by
          rintro rfl
          rw [hempty] at hitem
          cases hitem
        show Function.update t.cleaner.cleanupQueue scan.idx (some scan.item) i = some it
        rw [Function.update_of_ne hne]
        exact hitem
  | advancing scan =>
      have hidx : t.tail segcqsize = (scan.idx + 1) % segcqsize := by rw [CleanupRun.tail, hpc]
      have hunstored : t.unstored = [] := by rw [unstored, hpc]
      rw [hpc] at hstep
      obtain rfl := Option.some.inj hstep
      exact hinv.setMaintenance hidx.symm hunstored.symm nofun nofun
  | skipping scan =>
      have hidx : t.tail segcqsize = scan.idx := by rw [CleanupRun.tail, hpc]
      have hunstored : t.unstored = [] := by rw [unstored, hpc]
      rw [hpc] at hstep
      obtain rfl := Option.some.inj hstep
      exact hinv.setMaintenance hidx.symm hunstored.symm nofun nofun
  | leaving scan =>
      have hidx : t.tail segcqsize = scan.idx := by rw [CleanupRun.tail, hpc]
      have hunstored : t.unstored = [] := by rw [unstored, hpc]
      rw [hpc] at hstep
      obtain rfl := Option.some.inj hstep
      rw [hunstored] at hpinned
      exact ⟨⟨items, hring, hidx.symm.trans htail, hpinned⟩, nofun, nofun, hinv.cleared⟩

theorem Inv.workerStep (hinv : Inv segcqsize t) (hstep : t.workerStep segcqsize = some t') :
    Inv segcqsize t' := by
  obtain ⟨items, hring, htail, hpinned⟩ := hinv.ring
  unfold CleanupRun.workerStep at hstep
  cases hpc : t.worker with
  | outside =>
      rw [hpc] at hstep
      cases hstep
  | reading =>
      have hhead : t.head segcqsize = t.cleaner.cqHead := by rw [CleanupRun.head, hpc]
      have htaken : t.taken = [] := by rw [taken, hpc]
      rw [hhead] at hring htail
      rw [htaken] at hpinned
      rw [hpc] at hstep
      dsimp only at hstep
      split at hstep
      · obtain rfl := Option.some.inj hstep
        exact ⟨⟨items, hring, htail, hpinned⟩, hinv.pinning, hinv.written, nofun⟩
      · rename_i it hitem
        obtain rfl := Option.some.inj hstep
        refine ⟨⟨items, hring, htail, hpinned⟩, hinv.pinning, hinv.written,
          fun i other heq => ?_⟩
        obtain ⟨rfl, rfl⟩ := WorkerPc.clearing.inj heq
        exact ⟨rfl, hitem⟩
  | clearing i it =>
      have hhead : t.head segcqsize = t.cleaner.cqHead := by rw [CleanupRun.head, hpc]
      have htaken : t.taken = [] := by rw [taken, hpc]
      obtain ⟨rfl, hitem⟩ := hinv.cleared i it hpc
      rw [hhead] at hring htail
      rw [htaken, List.append_nil] at hpinned
      rw [hpc] at hstep
      obtain rfl := Option.some.inj hstep
      obtain ⟨rest, rfl, hpop⟩ := hring.pop hitem
      -- an empty slot stays empty
      have hkept : ∀ slot, t.cleaner.cleanupQueue slot = none →
          Function.update t.cleaner.cleanupQueue t.cleaner.cqHead none slot = none := by
        intro slot hslot
        by_cases hself : slot = t.cleaner.cqHead
        · rw [hself, Function.update_self]
        · rw [Function.update_of_ne hself, hslot]
      refine ⟨⟨rest, hpop, ?_, ?_⟩, fun scan hscan => hkept _ (hinv.pinning scan hscan),
        fun scan hscan => hkept _ (hinv.written scan hscan), nofun⟩
      · show t.tail segcqsize = ((t.cleaner.cqHead + 1) % segcqsize + rest.length) % segcqsize
        rw [htail, Nat.mod_add_mod, List.length_cons, Nat.add_assoc, Nat.add_comm 1]
      · show t.pinned = t.returned ++ [it] ++ rest ++ t.unstored
        rw [hpinned]
        simp
  | advancing i it =>
      have hhead : t.head segcqsize = (i + 1) % segcqsize := by rw [CleanupRun.head, hpc]
      have htaken : t.taken = [it] := by rw [taken, hpc]
      rw [hhead] at hring htail
      rw [htaken] at hpinned
      rw [hpc] at hstep
      obtain rfl := Option.some.inj hstep
      refine ⟨⟨items, hring, htail, ?_⟩, hinv.pinning, hinv.written, nofun⟩
      show t.pinned = t.returned ++ [it] ++ [] ++ items ++ t.unstored
      rw [List.append_nil]
      exact hpinned

/-- Step lemma: whichever thread takes the next step, the queue stays the pinned items
that were not returned. -/
theorem Inv.step (hinv : Inv segcqsize t) {action : CleanupAction}
    (hstep : t.step segcqsize action = some t') : Inv segcqsize t' := by
  cases action with
  | scan data off size =>
      obtain ⟨houtside, hnext⟩ := Option.ite_none_right_eq_some.mp hstep
      obtain rfl := Option.some.inj hnext
      have htail : t.tail segcqsize = t.cleaner.cqTail := by rw [CleanupRun.tail, houtside]
      have hunstored : t.unstored = [] := by rw [unstored, houtside]
      exact hinv.setMaintenance htail.symm hunstored.symm nofun nofun
  | maintenance => exact hinv.maintenanceStep hstep
  | cleanupItem idle =>
      obtain ⟨houtside, hnext⟩ := Option.ite_none_right_eq_some.mp hstep
      have hhead : t.head segcqsize = t.cleaner.cqHead := by rw [CleanupRun.head, houtside]
      have htaken : t.taken = [] := by rw [taken, houtside]
      obtain ⟨items, hring, htail, hpinned⟩ := hinv.ring
      rw [hhead] at hring htail
      rw [htaken] at hpinned
      split at hnext
      · obtain rfl := Option.some.inj hnext
        exact ⟨⟨items, hring, htail, hpinned⟩, hinv.pinning, hinv.written, nofun⟩
      · split at hnext
        · obtain rfl := Option.some.inj hnext
          exact hinv
        · obtain rfl := Option.some.inj hnext
          exact ⟨⟨items, hring, htail, hpinned⟩, hinv.pinning, hinv.written, nofun⟩
  | worker => exact hinv.workerStep hstep
  | nextRequest =>
      obtain ⟨-, hnext⟩ := Option.ite_none_right_eq_some.mp hstep
      obtain rfl := Option.some.inj hnext
      exact ⟨hinv.ring, hinv.pinning, hinv.written, hinv.cleared⟩
  | others mem =>
      obtain rfl := Option.some.inj hstep
      exact ⟨hinv.ring, hinv.pinning, hinv.written, hinv.cleared⟩

/-- Run lemma: the queue hands over every pinned item once and in order, however the
steps of the two threads are interleaved. -/
theorem handsOver_along (segcqsize : ℕ) (hsize : 1 ≤ segcqsize) (mem : Memory)
    (actions : List CleanupAction) :
    Transition.Along (step segcqsize) (HandsOver segcqsize) (initial mem) actions :=
  Transition.along_of_step (Inv segcqsize) (fun _ => Inv.handsOver)
    (fun _ _ _ hinv hstep => hinv.step hstep) (inv_initial mem hsize)

/-- Items of 24 bytes, all of them in use. -/
def usedItems : Memory := fun x => if x % 24 = 16 then 1 else 0

/-- A queue of one slot: the second item waits until the worker has taken the first. -/
def oneSlot : List CleanupAction :=
  [.scan 48 0 48, .maintenance, .maintenance, .maintenance, .maintenance, .maintenance,
    .cleanupItem false, .worker, .worker, .maintenance, .maintenance, .worker, .cleanupItem true,
    .maintenance, .maintenance, .maintenance, .maintenance, .worker, .worker, .worker,
    .nextRequest]

theorem handsOver_along_oneSlot :
    ((Transition.run (step 1) (initial usedItems) oneSlot).map fun t =>
        (t.pinned, t.returned)) = some ([48, 72], [48, 72]) ∧
      Transition.Along (step 1) (HandsOver 1) (initial usedItems) oneSlot :=
  ⟨by decide +kernel, handsOver_along 1 (by decide) usedItems oneSlot⟩

end CleanupRun

end ArmsTiering.Flexkvs
