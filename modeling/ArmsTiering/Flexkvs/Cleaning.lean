import ArmsTiering.Flexkvs.Recycling
import Mathlib.Algebra.Order.Ring.Rat

/-!
# Cleaning segments

The maintenance thread picks a retired segment of which much is freed and scans
it for items that are in use, on which it takes a reference and which it hands to
the worker through the cleanup queue.  While the queue is full the scan waits, and
goes on in a later call.  So the segment must not be recycled in between.
-/

namespace ArmsTiering.Flexkvs

/-- The settings of the cleaner.  A count of freed bytes is related to the size of
its segment by `ratio`, the quotient as a `double`. -/
structure CleanSettings extends Settings where
  segcqsize : ℕ
  cleanRatio : ℚ
  ratio : ℕ → ℕ → ℚ

/-- The part of `struct item_allocator` that concerns cleaning. -/
structure Cleaner where
  cleaning : Option ℕ
  cleanOffset : ℕ
  cleanupQueue : ℕ → Option ℕ
  cqHead : ℕ
  cqTail : ℕ

def Cleaner.initial : Cleaner where
  cleaning := none
  cleanOffset := 0
  cleanupQueue := fun _ => none
  cqHead := 0
  cqTail := 0

/-- The local variables of the scan in `ialloc_maintenance`, for the allocator
`w`. -/
structure Scan where
  w : ℕ
  segment : ℕ
  off : ℕ
  size : ℕ
  idx : ℕ

section

variable (settings : CleanSettings)

/-- The loop of `ialloc_maintenance` that frees segments and looks for a candidate
for cleaning. -/
def maintenanceLoop (cleaned : ℕ → Bool) : ℕ → Log → Option ℕ → List ℕ → Option ℕ → Option ℕ →
    ℚ → Option ℕ → Option (Log × Option ℕ × List ℕ × Option ℕ)
  | 0, _, _, _, _, _, _, _ => none
  | _ + 1, log, oldest, freed, _, cand, _, none => some (log, oldest, freed, cand)
  | fuel + 1, log, oldest, freed, prev, cand, candRatio, some i =>
      (log.segHeaders i).bind fun h =>
        if h.next = none ∨ h.inactive = false then some (log, oldest, freed, cand)
        else if h.freed = h.size then
          (unlinkSegment log prev h.next).bind fun log =>
            maintenanceLoop cleaned fuel (segmentFree log i h)
              (if prev = none then h.next else oldest) (i :: freed) prev cand candRatio h.next
        else
          let ratio := settings.ratio h.freed h.size
          if cleaned i = false ∧ settings.cleanRatio ≤ ratio ∧ candRatio < ratio then
            maintenanceLoop cleaned fuel log oldest freed (some i) (some i) ratio h.next
          else maintenanceLoop cleaned fuel log oldest freed (some i) cand candRatio h.next

end

/-- `h->size` -/
def segmentSize (log : Log) (i : ℕ) : ℕ := ((log.segHeaders i).map SegmentHeader.size).getD 0

/-- `item_tryref`: the memory, and whether the item is in use. -/
def itemTryref (m : Memory) (it : ℕ) : Memory × Bool :=
  if itemRefcount m it = 0 then (m, false)
  else (setRefcount m it (itemRefcount m it + 1), true)

/-- The queue after `ialloc_cleanup_item` has taken an item. -/
def Cleaner.pop (segcqsize : ℕ) (c : Cleaner) : Cleaner :=
  match c.cleanupQueue c.cqHead with
  | none => c
  | some _ =>
      { c with
        cleanupQueue := Function.update c.cleanupQueue c.cqHead none
        cqHead := (c.cqHead + 1) % segcqsize }

/-! ## Runs -/

inductive CleaningAction
  /-- a call of the allocator; one of `ialloc_maintenance` goes up to the scan -/
  | call (action : SegmentAction)
  /-- a worker writes to an item -/
  | store (address size value : ℕ)
  /-- a round of the scan -/
  | scanItem
  /-- the end of the scan, and of `ialloc_maintenance` -/
  | scanEnd

structure CleaningRun where
  segs : SegmentRun
  /-- `SF_CLEANED` in `flags` -/
  cleaned : ℕ → Bool
  cleaners : ℕ → Cleaner
  /-- the scan of the call in progress -/
  scanning : Option Scan

namespace CleaningRun

def initial (mem : Memory) : CleaningRun where
  segs := .initial mem
  cleaned := fun _ => false
  cleaners := fun _ => .initial
  scanning := none

/-- `segment_alloc` clears the flags, so the current and the reserved segment have
none. -/
def clearFlags (t : CleaningRun) (segs : SegmentRun) (w : ℕ) : ℕ → Bool := fun i =>
  match segs.allocators w with
  | none => t.cleaned i
  | some a => if a.ia.cur = i ∨ a.ia.reserved = some i then false else t.cleaned i

def setCleaner (t : CleaningRun) (w : ℕ) (c : Cleaner) : CleaningRun :=
  { t with cleaners := Function.update t.cleaners w c }

/-- `ialloc_maintenance` from the end of its first loop to the scan. -/
def beginScan (t : CleaningRun) (w : ℕ) (cand : Option ℕ) : CleaningRun :=
  let c := t.cleaners w
  let size := (c.cleaning.map (segmentSize t.segs.log)).getD 0
  if c.cleaning = none ∨ c.cleanOffset = size then
    let t := t.setCleaner w { c with cleaning := cand, cleanOffset := 0 }
    match cand with
    | none => t
    | some i =>
        { t with
          cleaned := Function.update t.cleaned i true
          scanning := some ⟨w, i, 0, size, c.cqTail⟩ }
  else { t with scanning := c.cleaning.map fun i => ⟨w, i, c.cleanOffset, size, c.cqTail⟩ }

/-- The first loop of `ialloc_maintenance`. -/
def maintain (settings : CleanSettings) (t : CleaningRun) (w : ℕ) : Option CleaningRun :=
  (t.segs.allocators w).bind fun a =>
    match maintenanceLoop settings t.cleaned (settings.segmaxnum + 1) t.segs.log a.oldest [] none
        none 0 a.oldest with
    | some (log, oldest, freed, cand) =>
        let segs := { t.segs.setAllocator w log { a with oldest := oldest } with
          extent := clear settings.toSettings t.segs.extent freed }
        some (beginScan { t with segs := segs } w cand)
    | none => some { t with segs := { t.segs with failed := true } }

/-- The other calls of the allocator. -/
def call (settings : CleanSettings) (t : CleaningRun) (action : SegmentAction) :
    Option CleaningRun :=
  match action with
  | .maintenance w => t.maintain settings w
  | .init w _ _ =>
      (SegmentRun.step settings.toSettings t.segs action).map fun segs =>
        { t with segs := segs, cleaned := t.clearFlags segs w }.setCleaner w .initial
  | .alloc w _ _ _ =>
      (SegmentRun.step settings.toSettings t.segs action).map fun segs =>
        { t with segs := segs, cleaned := t.clearFlags segs w }
  | .cleanup w idle _ =>
      (SegmentRun.step settings.toSettings t.segs action).map fun segs =>
        let busy := idle = false ∧ ((t.segs.allocators w).map Allocator.cleanupCount).getD 0 ≥ 32
        { t with segs := segs, cleaned := t.clearFlags segs w }.setCleaner w
          (if busy then t.cleaners w else (t.cleaners w).pop settings.segcqsize)
  | _ =>
      (SegmentRun.step settings.toSettings t.segs action).map fun segs => { t with segs := segs }

/-- A round of the scan reads the header of an item. -/
def scanRound (settings : CleanSettings) (t : CleaningRun) (scan : Scan) : CleaningRun :=
  let it := segData settings.toSettings scan.segment + scan.off
  let c := t.cleaners scan.w
  let result := itemTryref t.segs.mem it
  let off := scan.off + itemTotalsz t.segs.mem it
  let t := { t with segs := { t.segs with mem := result.1 } }
  if result.2 then
    { t.setCleaner scan.w { c with
        cleanupQueue := Function.update c.cleanupQueue scan.idx (some it) } with
      scanning := some { scan with off := off, idx := (scan.idx + 1) % settings.segcqsize } }
  else { t with scanning := some { scan with off := off } }

/-- The scan goes on: there is something left, and a slot in the queue is empty. -/
def Goes (t : CleaningRun) (scan : Scan) : Prop :=
  scan.off < scan.size ∧ (t.cleaners scan.w).cleanupQueue scan.idx = none

instance (t : CleaningRun) (scan : Scan) : Decidable (t.Goes scan) := by
  unfold Goes; infer_instance

def step (settings : CleanSettings) (t : CleaningRun) : CleaningAction → Option CleaningRun
  | .call action => if t.scanning.isNone then t.call settings action else none
  | .store address size value =>
      if t.scanning.isNone then
        some { t with segs := { t.segs with mem := t.segs.mem.store address size value } }
      else none
  | .scanItem =>
      t.scanning.bind fun scan =>
        if t.Goes scan ∧ sizeofItem ≤ scan.size - scan.off then some (t.scanRound settings scan)
        else none
  | .scanEnd =>
      t.scanning.bind fun scan =>
        if t.Goes scan ∧ sizeofItem ≤ scan.size - scan.off then none
        else
          let off := if t.Goes scan then scan.size else scan.off
          some { t.setCleaner scan.w { t.cleaners scan.w with
              cqTail := scan.idx, cleanOffset := off } with scanning := none }

/-- What is left of the scan is in a retired segment of the allocator for which it
is made. -/
def ScansOwn (t : CleaningRun) : Prop :=
  ∀ scan, t.scanning = some scan → scan.off < scan.size →
    ∃ place, t.segs.InPlace place ∧ t.segs.Retired place scan.w scan.segment

/-- The maintenance does not find all of the segment freed whose scan it has not
finished. -/
def CleansUnfreed (t : CleaningRun) : CleaningAction → Prop
  | .call (.maintenance w) => ∀ i h, (t.cleaners w).cleaning = some i →
      t.segs.log.segHeaders i = some h → (t.cleaners w).cleanOffset < h.size → h.freed ≠ h.size
  | _ => True

end CleaningRun

/-! ## The candidate -/

variable {settings : CleanSettings} {log log' : Log} {cleaned : ℕ → Bool}

/-- Without the candidate the loop is the one that frees segments. -/
theorem maintenanceLoop_reclaim (settings : CleanSettings) (cleaned : ℕ → Bool) (fuel : ℕ) (log : Log)
    (oldest : Option ℕ) (freed : List ℕ) (prev cand : Option ℕ) (candRatio : ℚ) (i : Option ℕ) :
    (maintenanceLoop settings cleaned fuel log oldest freed prev cand candRatio i).map
        (fun result => (result.1, result.2.1, result.2.2.1)) =
      reclaim fuel log oldest freed prev i := by
  induction fuel generalizing log oldest freed prev cand candRatio i with
  | zero => rfl
  | succ fuel ih =>
      cases i with
      | none => rfl
      | some i =>
          rw [maintenanceLoop, reclaim]
          cases log.segHeaders i with
          | none => rfl
          | some h =>
              rw [Option.bind_some, Option.bind_some]
              split
              · rfl
              · split
                · cases unlinkSegment log prev h.next with
                  | none => rfl
                  | some log => exact ih ..
                · dsimp only
                  split
                  · exact ih ..
                  · exact ih ..

theorem unlinkSegment_other {prev next : Option ℕ} {k : ℕ}
    (hunlink : unlinkSegment log prev next = some log') (hk : prev ≠ some k) :
    log'.segHeaders k = log.segHeaders k := by
  cases prev with
  | none =>
      obtain rfl := Option.some.inj hunlink
      rfl
  | some j =>
      obtain ⟨f, hf, rfl⟩ := Option.map_eq_some_iff.mp hunlink
      exact segHeaders_setHeader_of_ne _ _ fun heq => hk (congrArg some heq.symm)

/-- A candidate that the loop finds is one of the segments before it, retired and
not counted as freed entirely. -/
theorem maintenanceLoop_cand {log₀ : Log} (fuel : ℕ) {log : Log} {oldest : Option ℕ}
    {freed : List ℕ} {prev cand : Option ℕ} {candRatio : ℚ} {rest : List ℕ}
    {result : Log × Option ℕ × List ℕ × Option ℕ}
    (hlinks : IsChain log₀.nextFree none rest.head? (rest.map some)) (hnodup : rest.Nodup)
    (hprev : ∀ k ∈ rest, prev ≠ some k)
    (hsame : ∀ k ∈ rest, log.segHeaders k = log₀.segHeaders k)
    (hrun : maintenanceLoop settings cleaned fuel log oldest freed prev cand candRatio rest.head? =
      some result) :
    result.2.2.2 = cand ∨ ∃ i ∈ rest, result.2.2.2 = some i ∧ ∃ h, log₀.segHeaders i = some h ∧
      h.next ≠ none ∧ h.inactive = true ∧ h.freed ≠ h.size := by
  induction fuel generalizing log oldest freed prev cand candRatio rest with
  | zero => cases hrun
  | succ fuel ih =>
      cases rest with
      | nil =>
          obtain rfl := Option.some.inj hrun
          exact .inl rfl
      | cons i after =>
          obtain ⟨hi, hnodupAfter⟩ := List.nodup_cons.mp hnodup
          rw [List.head?_cons, maintenanceLoop] at hrun
          obtain ⟨h, hh, hrun⟩ := Option.bind_eq_some_iff.mp hrun
          have hh₀ : log₀.segHeaders i = some h := (hsame i List.mem_cons_self).symm.trans hh
          have hrest : IsChain log₀.nextFree none (log₀.nextFree (some i)) (after.map some) :=
            hlinks.2.2
          have hnext : h.next = after.head? := by
            rw [nextFree_eq hh₀] at hrest
            exact chain_start hrest
          rw [nextFree_eq hh₀, hnext] at hrest
          have hlater : ∀ k ∈ after, log.segHeaders k = log₀.segHeaders k :=
            fun k hk => hsame k (List.mem_cons_of_mem _ hk)
          have hbehind : ∀ k ∈ after, some i ≠ some k := by
            rintro k hk ⟨⟩
            exact hi hk
          -- the candidate of the rest is one of the whole
          have hstep : ∀ {log oldest freed prev cand candRatio},
              (∀ k ∈ after, prev ≠ some k) →
              (∀ k ∈ after, log.segHeaders k = log₀.segHeaders k) →
              maintenanceLoop settings cleaned fuel log oldest freed prev cand candRatio after.head? =
                some result →
              result.2.2.2 = cand ∨ ∃ i' ∈ i :: after, result.2.2.2 = some i' ∧
                ∃ h, log₀.segHeaders i' = some h ∧ h.next ≠ none ∧ h.inactive = true ∧
                  h.freed ≠ h.size := by
            intro log oldest freed prev cand candRatio hprev hsame hrun
            rcases ih hrest hnodupAfter hprev hsame hrun with hcand | ⟨k, hk, hfound⟩
            · exact .inl hcand
            · exact .inr ⟨k, List.mem_cons_of_mem _ hk, hfound⟩
          split at hrun
          · obtain rfl := Option.some.inj hrun
            exact .inl rfl
          · rename_i hgoes
            rw [not_or] at hgoes
            split at hrun
            · obtain ⟨log₁, hunlink, hrun⟩ := Option.bind_eq_some_iff.mp hrun
              rw [hnext] at hrun
              refine hstep (fun k hk => hprev k (List.mem_cons_of_mem _ hk)) (fun k hk => ?_) hrun
              have hki : k ≠ i := by
                rintro rfl
                exact hi hk
              have hother : (segmentFree log₁ i h).segHeaders k = log₁.segHeaders k :=
                segHeaders_setHeader_of_ne _ _ hki
              rw [hother, unlinkSegment_other hunlink (hprev k (List.mem_cons_of_mem _ hk))]
              exact hlater k hk
            · rename_i hpartly
              dsimp only at hrun
              rw [hnext] at hrun
              split at hrun
              · rcases hstep hbehind hlater hrun with hcand | hfound
                · exact .inr ⟨i, List.mem_cons_self, hcand, h, hh₀, hgoes.1,
                    Bool.not_eq_false _ ▸ hgoes.2, hpartly⟩
                · exact .inr hfound
              · exact hstep hbehind hlater hrun

namespace CleaningRun

open SegmentRun (Holds Keeps Retired)

variable {t next : CleaningRun} {action : CleaningAction} {chains : ℕ → List ℕ}
  {place : ℕ → Place} {free : List ℕ} {w k : ℕ}

/-! ## The invariant of a run -/

/-- A segment whose scan is not finished is retired. -/
structure CleanInv (settings : CleanSettings) (t : CleaningRun) (chains : ℕ → List ℕ)
    (place : ℕ → Place) (free : List ℕ) : Prop where
  holds : Holds settings.toSettings t.segs chains place free
  cleaning : ∀ w i, (t.cleaners w).cleaning = some i →
    (t.cleaners w).cleanOffset < settings.segsize % 2 ^ 32 → t.segs.Retired place w i
  scan : ∀ scan, t.scanning = some scan → (t.cleaners scan.w).cleaning = some scan.segment ∧
    scan.size ≤ settings.segsize % 2 ^ 32 ∧
    (scan.off < settings.segsize % 2 ^ 32 → t.segs.Retired place scan.w scan.segment)

def Inv (settings : CleanSettings) (t : CleaningRun) : Prop :=
  ∃ chains place free, CleanInv settings t chains place free

theorem inv_initial (settings : CleanSettings) (mem : Memory) : Inv settings (initial mem) := by
  obtain ⟨chains, place, free, hlog, holdest, hhands⟩ :=
    (SegmentRun.inv_initial settings.toSettings mem).log
  exact ⟨chains, place, free, ⟨rfl, fun p q hp => absurd rfl hp, hlog, holdest, hhands⟩, nofun,
    nofun⟩

theorem Inv.scansOwn (hinv : Inv settings t) : t.ScansOwn := by
  obtain ⟨chains, place, free, hholds, _, hscan⟩ := hinv
  intro scan hscanning hoff
  obtain ⟨_, hsize, hretired⟩ := hscan scan hscanning
  exact ⟨place, hholds.inPlace, hretired (hoff.trans_le hsize)⟩

theorem segmentSize_le (hholds : Holds settings.toSettings t.segs chains place free) (i : ℕ) :
    segmentSize t.segs.log i ≤ settings.segsize % 2 ^ 32 := by
  unfold segmentSize
  cases hh : t.segs.log.segHeaders i with
  | none => exact Nat.zero_le _
  | some h => exact (hholds.log.size i h hh).le

/-! ## Calls of the allocator -/

/-- A call that leaves the cleaners alone, up to their queues. -/
theorem CleanInv.segments (hbase : settings.segBase ≠ 0)
    (hinv : CleanInv settings t chains place free) {action : SegmentAction}
    (hstep : SegmentRun.step settings.toSettings t.segs action = some next.segs)
    (hother : ∀ w, action ≠ .maintenance w) (hidle : next.scanning = none)
    (hcleaners : ∀ w, (next.cleaners w).cleaning = none ∨
      (next.cleaners w).cleaning = (t.cleaners w).cleaning ∧
        (next.cleaners w).cleanOffset = (t.cleaners w).cleanOffset) : Inv settings next := by
  obtain ⟨chains', place', free', hholds, hkeeps⟩ := hinv.holds.step hbase hstep
  refine ⟨chains', place', free', hholds, fun w i hcleaning hoff => ?_, fun scan hscanning => ?_⟩
  · rcases hcleaners w with hnone | ⟨hsame, hoffset⟩
    · rw [hnone] at hcleaning
      cases hcleaning
    · rw [hsame] at hcleaning
      rw [hoffset] at hoff
      exact hkeeps w i (hinv.cleaning w i hcleaning hoff) fun heq => absurd heq (hother w)
  · rw [hidle] at hscanning
    cases hscanning

/-- The scan begins in a segment whose scan is not finished, or in a candidate. -/
theorem CleanInv.beginScan (hinv : CleanInv settings t chains place free)
    (hidle : t.scanning = none) {cand : Option ℕ}
    (hcand : ∀ i, cand = some i → t.segs.Retired place w i) :
    CleanInv settings (t.beginScan w cand) chains place free := by
  obtain ⟨hholds, hcleaning, _⟩ := hinv
  have hsize : ((t.cleaners w).cleaning.map (segmentSize t.segs.log)).getD 0 ≤
      settings.segsize % 2 ^ 32 := by
    cases (t.cleaners w).cleaning with
    | none => exact Nat.zero_le _
    | some i => exact segmentSize_le hholds i
  unfold CleaningRun.beginScan
  dsimp only
  split
  · have hset : ∀ v i, (Function.update t.cleaners w
        { t.cleaners w with cleaning := cand, cleanOffset := 0 } v).cleaning = some i →
        (Function.update t.cleaners w
          { t.cleaners w with cleaning := cand, cleanOffset := 0 } v).cleanOffset <
          settings.segsize % 2 ^ 32 → t.segs.Retired place v i := by
      intro v i hv hoff
      rcases eq_or_ne v w with rfl | hne
      · rw [Function.update_self] at hv
        exact hcand i hv
      · rw [Function.update_of_ne hne] at hv hoff
        exact hcleaning v i hv hoff
    cases cand with
    | none =>
        refine ⟨hholds, hset, fun scan hscanning => ?_⟩
        change t.scanning = some scan at hscanning
        rw [hidle] at hscanning
        cases hscanning
    | some i =>
        refine ⟨hholds, hset, fun scan hscanning => ?_⟩
        obtain rfl := Option.some.inj hscanning
        refine ⟨?_, hsize, fun _ => hcand i rfl⟩
        change (Function.update t.cleaners w _ w).cleaning = some i
        rw [Function.update_self]
  · refine ⟨hholds, hcleaning, fun scan hscanning => ?_⟩
    obtain ⟨i, hi, rfl⟩ := Option.map_eq_some_iff.mp hscanning
    exact ⟨hi, hsize, fun hoff => hcleaning w i hi hoff⟩

/-- The first loop of the maintenance does to the segments what it does without a
candidate, and a candidate is retired. -/
theorem maintain_cases (hbase : settings.segBase ≠ 0)
    (hholds : Holds settings.toSettings t.segs chains place free)
    (hstep : t.maintain settings w = some next) :
    ∃ segs cand, SegmentRun.step settings.toSettings t.segs (.maintenance w) = some segs ∧
      next = beginScan { t with segs := segs } w cand ∧
      ∀ i, cand = some i → t.segs.Retired place w i ∧
        ∀ h, t.segs.log.segHeaders i = some h → h.freed ≠ h.size := by
  obtain ⟨a, hw, hstep⟩ := Option.bind_eq_some_iff.mp hstep
  have hreclaim := maintenanceLoop_reclaim settings t.cleaned (settings.segmaxnum + 1) t.segs.log
    a.oldest [] none none 0 a.oldest
  have howned := hholds.log.owned w a.ia (SegmentRun.owners_eq hw)
  split at hstep
  · rename_i log oldest freed cand hloop
    obtain rfl := Option.some.inj hstep
    rw [hloop] at hreclaim
    refine ⟨_, cand, ?_, rfl, fun i hi => ?_⟩
    · rw [SegmentRun.step, hw, Option.bind_some, iallocMaintenance, ← hreclaim]
      rfl
    · rw [hholds.oldest w a hw] at hloop
      rcases maintenanceLoop_cand _ howned.links howned.nodup (fun k _ =>
          (Option.some_ne_none k).symm) (fun _ _ => rfl) hloop with
        hnone | ⟨k, hk, hsome, h, hh, hnext, hinactive, hpartly⟩
      · cases hi.symm.trans hnone
      · obtain rfl : i = k := Option.some.inj (hi.symm.trans hsome)
        refine ⟨⟨(howned.mem_iff i).mp hk, fun b hb => ?_, h, hh, hinactive⟩, fun g hg => ?_⟩
        · obtain rfl : a = b := Option.some.inj (hw.symm.trans hb)
          rintro rfl
          -- nothing is behind the current segment
          obtain ⟨older, holder⟩ := howned.last
          exact hnext (hholds.log.next_eq_head (SegmentRun.owners_eq hw) holder hh)
        · obtain rfl : h = g := Option.some.inj (hh.symm.trans hg)
          exact hpartly
  · rename_i hloop
    rw [hloop] at hreclaim
    have hfails : SegmentRun.step settings.toSettings t.segs (.maintenance w) =
        some { t.segs with failed := true } := by
      rw [SegmentRun.step, hw, Option.bind_some, iallocMaintenance, ← hreclaim]
      rfl
    obtain ⟨_, _, _, hafter, _⟩ := hholds.step hbase hfails
    cases hafter.running

theorem CleanInv.maintain (hbase : settings.segBase ≠ 0)
    (hinv : CleanInv settings t chains place free) (hidle : t.scanning = none)
    (hmeets : t.CleansUnfreed (.call (.maintenance w)))
    (hstep : t.maintain settings w = some next) : Inv settings next := by
  obtain ⟨segs, cand, hsegs, rfl, hcand⟩ := maintain_cases hbase hinv.holds hstep
  obtain ⟨chains', place', free', hholds, hkeeps⟩ := hinv.holds.step hbase hsegs
  have hafter : CleanInv settings { t with segs := segs } chains' place' free' := by
    refine ⟨hholds, fun v i hcleaning hoff => ?_, fun scan hscanning => ?_⟩
    · have hretired := hinv.cleaning v i hcleaning hoff
      refine hkeeps v i hretired fun heq h hh => ?_
      obtain rfl := SegmentAction.maintenance.inj heq
      refine hmeets i h hcleaning hh ?_
      rw [hinv.holds.log.size i h hh]
      exact hoff
    · change t.scanning = some scan at hscanning
      rw [hidle] at hscanning
      cases hscanning
  refine ⟨chains', place', free', hafter.beginScan hidle fun i hi => ?_⟩
  obtain ⟨hretired, hpartly⟩ := hcand i hi
  exact hkeeps w i hretired fun _ => hpartly

theorem CleanInv.call (hbase : settings.segBase ≠ 0)
    (hinv : CleanInv settings t chains place free) (hidle : t.scanning = none)
    {action : SegmentAction} (hmeets : t.CleansUnfreed (.call action))
    (hstep : t.call settings action = some next) : Inv settings next := by
  -- the cleaner of one allocator is replaced
  have hset : ∀ {v : ℕ} {c : Cleaner}, (c.cleaning = none ∨
      c.cleaning = (t.cleaners v).cleaning ∧ c.cleanOffset = (t.cleaners v).cleanOffset) → ∀ w,
      (Function.update t.cleaners v c w).cleaning = none ∨
        (Function.update t.cleaners v c w).cleaning = (t.cleaners w).cleaning ∧
          (Function.update t.cleaners v c w).cleanOffset = (t.cleaners w).cleanOffset := by
    intro v c hc w
    rcases eq_or_ne w v with rfl | hne
    · rw [Function.update_self]
      exact hc
    · rw [Function.update_of_ne hne]
      exact .inr ⟨rfl, rfl⟩
  cases action with
  | maintenance w => exact hinv.maintain hbase hidle hmeets hstep
  | init w mapped mapped' =>
      obtain ⟨segs, hsegs, rfl⟩ := Option.map_eq_some_iff.mp hstep
      exact hinv.segments hbase hsegs nofun hidle (hset (.inl rfl))
  | alloc w total cleanup mapped =>
      obtain ⟨segs, hsegs, rfl⟩ := Option.map_eq_some_iff.mp hstep
      exact hinv.segments hbase hsegs nofun hidle fun _ => .inr ⟨rfl, rfl⟩
  | cleanup w idle mapped =>
      obtain ⟨segs, hsegs, rfl⟩ := Option.map_eq_some_iff.mp hstep
      refine hinv.segments hbase hsegs nofun hidle (hset (.inr ?_))
      split
      · exact ⟨rfl, rfl⟩
      · unfold Cleaner.pop
        split
        · exact ⟨rfl, rfl⟩
        · exact ⟨rfl, rfl⟩
  | free it =>
      obtain ⟨segs, hsegs, rfl⟩ := Option.map_eq_some_iff.mp hstep
      exact hinv.segments hbase hsegs nofun hidle fun _ => .inr ⟨rfl, rfl⟩
  | nextRequest w =>
      obtain ⟨segs, hsegs, rfl⟩ := Option.map_eq_some_iff.mp hstep
      exact hinv.segments hbase hsegs nofun hidle fun _ => .inr ⟨rfl, rfl⟩

/-! ## The scan -/

/-- What the invariant says does not depend on memory. -/
theorem CleanInv.store (hinv : CleanInv settings t chains place free) (m : Memory) :
    CleanInv settings { t with segs := { t.segs with mem := m } } chains place free :=
  ⟨⟨hinv.holds.running, hinv.holds.apart, hinv.holds.log, hinv.holds.oldest, hinv.holds.hands⟩,
    fun w i hcleaning hoff =>
      let hretired := hinv.cleaning w i hcleaning hoff
      ⟨hretired.place, hretired.ne_cur, hretired.inactive⟩,
    fun scan hscanning =>
      let ⟨hcleaning, hsize, hretired⟩ := hinv.scan scan hscanning
      ⟨hcleaning, hsize, fun hoff =>
        ⟨(hretired hoff).place, (hretired hoff).ne_cur, (hretired hoff).inactive⟩⟩⟩

/-- The scan moves on, or it ends and its offset is kept. -/
theorem CleanInv.moves (hinv : CleanInv settings t chains place free) {scan : Scan}
    (hscanning : t.scanning = some scan) (hsegs : next.segs = t.segs)
    (hcleaners : ∀ v, (next.cleaners v).cleaning = (t.cleaners v).cleaning ∧
      ((next.cleaners v).cleanOffset = (t.cleaners v).cleanOffset ∨
        v = scan.w ∧ scan.off ≤ (next.cleaners v).cleanOffset))
    (hscan : ∀ scan', next.scanning = some scan' → scan'.w = scan.w ∧
      scan'.segment = scan.segment ∧ scan'.size = scan.size ∧ scan.off ≤ scan'.off) :
    CleanInv settings next chains place free := by
  obtain ⟨hholds, hcleaning, hold⟩ := hinv
  obtain ⟨hcurrent, hsize, hretired⟩ := hold scan hscanning
  refine ⟨hsegs ▸ hholds, fun v i hv hoff => ?_, fun scan' hscan' => ?_⟩
  · obtain ⟨hsame, hoffset⟩ := hcleaners v
    rw [hsame] at hv
    rw [hsegs]
    rcases hoffset with hoffset | ⟨rfl, hle⟩
    · rw [hoffset] at hoff
      exact hcleaning v i hv hoff
    · obtain rfl : scan.segment = i := Option.some.inj (hcurrent.symm.trans hv)
      exact hretired (hle.trans_lt hoff)
  · obtain ⟨hw, hsegment, hsizeEq, hle⟩ := hscan scan' hscan'
    rw [hsegs, hw, hsegment, hsizeEq, (hcleaners scan.w).1]
    exact ⟨hcurrent, hsize, fun hoff => hretired (hle.trans_lt hoff)⟩

theorem step_call {action : SegmentAction} (hstep : step settings t (.call action) = some next) :
    t.scanning = none ∧ t.call settings action = some next := by
  obtain ⟨hidle, hcall⟩ := Option.ite_none_right_eq_some.mp hstep
  exact ⟨Option.isNone_iff_eq_none.mp hidle, hcall⟩

theorem CleanInv.step (hbase : settings.segBase ≠ 0)
    (hinv : CleanInv settings t chains place free) (hmeets : t.CleansUnfreed action)
    (hstep : step settings t action = some next) : Inv settings next := by
  cases action with
  | call action =>
      obtain ⟨hidle, hcall⟩ := step_call hstep
      exact hinv.call hbase hidle hmeets hcall
  | store address size value =>
      obtain ⟨_, hnext⟩ := Option.ite_none_right_eq_some.mp hstep
      obtain rfl := Option.some.inj hnext
      exact ⟨chains, place, free, hinv.store _⟩
  | scanItem =>
      obtain ⟨scan, hscanning, hstep⟩ := Option.bind_eq_some_iff.mp hstep
      obtain ⟨_, hnext⟩ := Option.ite_none_right_eq_some.mp hstep
      obtain rfl := Option.some.inj hnext
      refine ⟨chains, place, free, (hinv.store (itemTryref t.segs.mem
        (segData settings.toSettings scan.segment + scan.off)).1).moves hscanning ?_ (fun v => ?_)
        fun scan' hscan' => ?_⟩
      · unfold scanRound
        dsimp only
        split
        · rfl
        · rfl
      · unfold scanRound
        dsimp only
        split
        · dsimp only [setCleaner]
          rcases eq_or_ne v scan.w with rfl | hne
          · rw [Function.update_self]
            exact ⟨rfl, .inl rfl⟩
          · rw [Function.update_of_ne hne]
            exact ⟨rfl, .inl rfl⟩
        · exact ⟨rfl, .inl rfl⟩
      · unfold scanRound at hscan'
        dsimp only at hscan'
        split at hscan'
        · obtain rfl := Option.some.inj hscan'
          exact ⟨rfl, rfl, rfl, Nat.le_add_right _ _⟩
        · obtain rfl := Option.some.inj hscan'
          exact ⟨rfl, rfl, rfl, Nat.le_add_right _ _⟩
  | scanEnd =>
      obtain ⟨scan, hscanning, hstep⟩ := Option.bind_eq_some_iff.mp hstep
      split at hstep
      · cases hstep
      · obtain rfl := Option.some.inj hstep
        refine ⟨chains, place, free, hinv.moves hscanning rfl (fun v => ?_) nofun⟩
        dsimp only [setCleaner]
        rcases eq_or_ne v scan.w with rfl | hne
        · rw [Function.update_self]
          refine ⟨rfl, .inr ⟨rfl, ?_⟩⟩
          dsimp only
          split
          · rename_i hgoes
            exact hgoes.1.le
          · exact le_rfl
        · rw [Function.update_of_ne hne]
          exact ⟨rfl, .inl rfl⟩

theorem Inv.step (hbase : settings.segBase ≠ 0) (hinv : Inv settings t)
    (hmeets : t.CleansUnfreed action) (hstep : CleaningRun.step settings t action = some next) :
    Inv settings next := by
  obtain ⟨chains, place, free, hclean⟩ := hinv
  exact hclean.step hbase hmeets hstep

/-- Eight segments of 256 bytes, of which the cleaner scans those that are freed by
four fifths, and a queue for one item. -/
def cleanSettings : CleanSettings where
  segBase := 4096
  segsize := 256
  segmaxnum := 8
  bound := by decide
  segcqsize := 1
  cleanRatio := 4 / 5
  ratio := fun freed size => freed / size

/-- The maintenance of an allocator with one item. -/
def idleActions : List CleaningAction :=
  [.call (.init 0 true true), .call (.alloc 0 24 false true), .call (.maintenance 0)]

/-- The scan of a segment stops behind the second item, as the queue is full; then
the rest of the segment is freed. -/
def overtakenActions : List CleaningAction :=
  [.call (.init 0 true true), .call (.alloc 0 200 false true), .call (.alloc 0 24 false true),
    .call (.alloc 0 24 false true), .call (.alloc 0 24 false true),
    -- the first item is freed
    .store (4096 + 12) 4 176, .store (4096 + 16) 2 0, .call (.free 4096),
    .call (.maintenance 0), .scanEnd,
    -- the second item goes into the queue
    .call (.maintenance 0), .scanItem, .scanItem, .scanEnd,
    .store (4320 + 16) 2 0, .call (.free 4320), .call (.cleanup 0 true true),
    .store (4296 + 16) 2 0, .call (.free 4296), .call (.maintenance 0)]

end CleaningRun

end ArmsTiering.Flexkvs
