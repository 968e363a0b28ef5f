import ArmsTiering.Core.Transition
import ArmsTiering.Flexkvs.Segments

/-!
# Recycling segments

A worker owns a chain of segments, of which it allocates in the last one, and a
reserved segment for cleanup.  The maintenance thread takes segments that are
counted as freed entirely out of the chains and puts them on the shared list of
free segments, from which any worker may take them again.
-/

namespace ArmsTiering.Flexkvs

/-- The part of `struct item_allocator` that concerns segments.  The cleanup queue
holds references on items, and is left out. -/
structure Allocator where
  ia : ItemAllocator
  oldest : Option ℕ
  cleanupCount : ℕ
  deriving DecidableEq

section

variable (settings : Settings)

/-- `segment_free` on the segment `i` with the header `h` -/
def segmentFree (log : Log) (i : ℕ) (h : SegmentHeader) : Log :=
  { log.setHeader i { h with offset := 0, next := log.freeSegments } with freeSegments := some i }

/-- A new segment with which no other is linked. -/
def takeSegment (log : Log) (mapped : Bool) : Option (Log × ℕ) :=
  match segmentAlloc settings log mapped with
  | (log, some i) => (log.segHeaders i).map fun h => (log.setHeader i { h with next := none }, i)
  | (_, none) => none

/-- `ialloc_init_allocator`; undefined where it aborts. -/
def iallocInitAllocator (log : Log) (mapped mapped' : Bool) : Option (Log × Allocator) :=
  (takeSegment settings log mapped).bind fun (log, cur) =>
    (takeSegment settings log mapped').map fun (log, reserved) =>
      (log, ⟨⟨some reserved, cur⟩, some cur, 0⟩)

/-- `ialloc_cleanup_item`, without the item. -/
def iallocCleanupItem (log : Log) (a : Allocator) (idle mapped : Bool) : Log × Allocator :=
  if idle = false ∧ 32 ≤ a.cleanupCount then (log, a)
  else
    let a := if idle then a else { a with cleanupCount := a.cleanupCount + 1 }
    if a.ia.reserved = none then
      let result := segmentAlloc settings log mapped
      (result.1, { a with ia := { a.ia with reserved := result.2 } })
    else (log, a)

/-- The assignment that takes a segment out of a chain. -/
def unlinkSegment (log : Log) (prev next : Option ℕ) : Option Log :=
  match prev with
  | none => some log
  | some j => (log.segHeaders j).map fun g => log.setHeader j { g with next := next }

/-- The loop of `ialloc_maintenance` that frees segments: the log, the oldest
segment and those that have been freed.  Its last argument is `h`.  A chain with
more segments than there are never ends. -/
def reclaim : ℕ → Log → Option ℕ → List ℕ → Option ℕ → Option ℕ → Option (Log × Option ℕ × List ℕ)
  | 0, _, _, _, _, _ => none
  | _ + 1, log, oldest, freed, _, none => some (log, oldest, freed)
  | fuel + 1, log, oldest, freed, prev, some i =>
      (log.segHeaders i).bind fun h =>
        if h.next = none ∨ h.inactive = false then some (log, oldest, freed)
        else if h.freed = h.size then
          (unlinkSegment log prev h.next).bind fun log =>
            reclaim fuel (segmentFree log i h) (if prev = none then h.next else oldest)
              (i :: freed) prev h.next
        else reclaim fuel log oldest freed (some i) h.next

/-- The part of `ialloc_maintenance` that frees segments. -/
def iallocMaintenance (log : Log) (a : Allocator) : Option (Log × Allocator × List ℕ) :=
  (reclaim (settings.segmaxnum + 1) log a.oldest [] none a.oldest).map fun (log, oldest, freed) =>
    (log, { a with oldest := oldest }, freed)

/-- The items after the given segments have been recycled. -/
def clear (extent : ℕ → ℕ) (freed : List ℕ) : ℕ → ℕ := fun p =>
  if ∃ i ∈ freed, segData settings i ≤ p ∧ p < segData settings i + settings.segsize then 0
  else extent p

end

/-! ## Runs -/

inductive SegmentAction
  | init (w : ℕ) (mapped mapped' : Bool)
  | alloc (w total : ℕ) (cleanup mapped : Bool)
  /-- an allocated item is freed with the size it was allocated with -/
  | free (it : ℕ)
  | cleanup (w : ℕ) (idle mapped : Bool)
  | nextRequest (w : ℕ)
  | maintenance (w : ℕ)

/-- The allocators with the items they have handed out. -/
structure SegmentRun where
  mem : Memory
  log : Log
  allocators : ℕ → Option Allocator
  /-- the sizes of the items in segments that have not been recycled since -/
  extent : ℕ → ℕ
  /-- the sizes of the items that have not been freed -/
  live : ℕ → ℕ
  /-- a header is missing, or a loop does not end -/
  failed : Bool

namespace SegmentRun

def initial (mem : Memory) : SegmentRun where
  mem := mem
  log := .initial
  allocators := fun _ => none
  extent := fun _ => 0
  live := fun _ => 0
  failed := false

def setAllocator (t : SegmentRun) (w : ℕ) (log : Log) (a : Allocator) : SegmentRun :=
  { t with log := log, allocators := Function.update t.allocators w (some a) }

def step (settings : Settings) (t : SegmentRun) : SegmentAction → Option SegmentRun
  | .init w mapped mapped' =>
      if t.allocators w = none then
        (iallocInitAllocator settings t.log mapped mapped').map fun (log, a) =>
          t.setAllocator w log a
      else none
  | .alloc w total cleanup mapped =>
      (t.allocators w).bind fun a =>
        if sizeofItem ≤ total ∧ total < settings.segsize then
          match iallocAlloc settings t.mem t.log a.ia total cleanup mapped with
          | some (m, log, ia, it) =>
              some { t.setAllocator w log { a with ia := ia } with
                mem := m
                extent := allocated t.extent it total
                live := allocated t.live it total }
          | none => some { t with failed := true }
        else none
  | .free it =>
      if t.live it = 0 then none
      else
        match iallocFree settings t.log it (t.live it) with
        | some log => some { t with log := log, live := Function.update t.live it 0 }
        | none => some { t with failed := true }
  | .cleanup w idle mapped =>
      (t.allocators w).map fun a =>
        let result := iallocCleanupItem settings t.log a idle mapped
        t.setAllocator w result.1 result.2
  | .nextRequest w =>
      (t.allocators w).map fun a => t.setAllocator w t.log { a with cleanupCount := 0 }
  | .maintenance w =>
      (t.allocators w).bind fun a =>
        match iallocMaintenance settings t.log a with
        | some (log, a, freed) =>
            some { t.setAllocator w log a with extent := clear settings t.extent freed }
        | none => some { t with failed := true }

/-- Each segment is in the place that `place` gives: it has no header, it is in
the list of free segments, from the oldest to the current one of an allocator, or
reserved by an allocator. -/
structure InPlace (t : SegmentRun) (place : ℕ → Place) : Prop where
  unallocated : ∀ i, place i = .unallocated ↔ t.log.segHeaders i = none
  settled : ∀ i, place i ≠ .hand
  free : ∃ free : List ℕ, IsChain t.log.nextFree none t.log.freeSegments (free.map some) ∧
    free.Nodup ∧ ∀ i, i ∈ free ↔ place i = .free
  chain : ∀ w a, t.allocators w = some a → ∃ older,
    IsChain t.log.nextFree none a.oldest ((older ++ [a.ia.cur]).map some) ∧
      (older ++ [a.ia.cur]).Nodup ∧ ∀ i, i ∈ older ++ [a.ia.cur] ↔ place i = .chain w
  reserved : ∀ w a, t.allocators w = some a → ∀ i,
    a.ia.reserved = some i ↔ place i = .reserved w
  unowned : ∀ w, t.allocators w = none → ∀ i, place i ≠ .chain w ∧ place i ≠ .reserved w

/-- The bytes of freed items in the segment `i`. -/
def freedBytes (settings : Settings) (t : SegmentRun) (i : ℕ) : ℕ :=
  liveBytes settings (fun p => t.extent p - t.live p) i

/-- What is counted as freed of a segment is the freed items and its tail, which
it has only once it is retired. -/
structure Accounted (settings : Settings) (t : SegmentRun) (i : ℕ) (h : SegmentHeader) : Prop where
  freed : ∃ tail, h.freed = t.freedBytes settings i + tail ∧ (tail ≠ 0 → h.offset = h.size) ∧
    h.offset = liveBytes settings t.live i + t.freedBytes settings i + tail
  bounded : h.freed ≤ h.offset ∧ h.offset ≤ h.size

/-- Live items are apart from each other, in segments that are in service and
account for them. -/
structure Sound (settings : Settings) (t : SegmentRun) : Prop where
  running : t.failed = false
  apart : ∀ p q, t.live p ≠ 0 → t.live q ≠ 0 → p ≠ q →
    p + t.live p ≤ q ∨ q + t.live q ≤ p
  inPlace : ∃ place, t.InPlace place ∧
    (∀ p, t.live p ≠ 0 → ∃ i h, t.log.segHeaders i = some h ∧ place i ≠ .free ∧
      segData settings i ≤ p ∧ p + t.live p ≤ segData settings i + h.offset) ∧
    ∀ i h, t.log.segHeaders i = some h → place i ≠ .free → t.Accounted settings i h

end SegmentRun

/-! ## Taking a segment out of its chain -/

variable {settings : Settings} {log log' : Log} {allocators : ℕ → Option ItemAllocator}
  {chains : ℕ → List ℕ} {place : ℕ → Place} {free : List ℕ} {extent live : ℕ → ℕ} {i k p w : ℕ}
  {h : SegmentHeader} {ia : ItemAllocator}

/-- Only the link of one header has changed. -/
structure Unlinked (log log' : Log) (prev next : Option ℕ) : Prop where
  freeSegments : log'.freeSegments = log.freeSegments
  segAlloced : log'.segAlloced = log.segAlloced
  back : ∀ k g, log'.segHeaders k = some g → ∃ g', log.segHeaders k = some g' ∧
    g.offset = g'.offset ∧ g.freed = g'.freed ∧ g.size = g'.size
  forth : ∀ k g, log.segHeaders k = some g → ∃ g', log'.segHeaders k = some g' ∧
    g'.offset = g.offset
  kept : ∀ k, prev ≠ some k → log'.segHeaders k = log.segHeaders k
  link : ∀ k, prev = some k → log'.nextFree (some k) = next

theorem unlinkSegment_eq (log : Log) (prev next : Option ℕ)
    (hprev : ∀ j, prev = some j → ∃ g, log.segHeaders j = some g) :
    ∃ log', unlinkSegment log prev next = some log' ∧ Unlinked log log' prev next := by
  cases prev with
  | none =>
      exact ⟨log, rfl, rfl, rfl, fun _ g hg => ⟨g, hg, rfl, rfl, rfl⟩, fun _ g hg => ⟨g, hg, rfl⟩,
        fun _ _ => rfl, nofun⟩
  | some j =>
      obtain ⟨g, hg⟩ := hprev j rfl
      refine ⟨log.setHeader j { g with next := next }, ?_, rfl, rfl, fun k f hf => ?_,
        fun k f hf => ?_, fun k hk => ?_, fun k hk => ?_⟩
      · rw [unlinkSegment, hg]
        rfl
      · rcases eq_or_ne k j with rfl | hne
        · rw [segHeaders_setHeader_self] at hf
          obtain rfl := Option.some.inj hf
          exact ⟨g, hg, rfl, rfl, rfl⟩
        · rw [segHeaders_setHeader_of_ne _ _ hne] at hf
          exact ⟨f, hf, rfl, rfl, rfl⟩
      · rcases eq_or_ne k j with rfl | hne
        · rw [hg] at hf
          obtain rfl := Option.some.inj hf
          exact ⟨_, segHeaders_setHeader_self .., rfl⟩
        · exact ⟨f, (segHeaders_setHeader_of_ne _ _ hne).trans hf, rfl⟩
      · exact segHeaders_setHeader_of_ne _ _ fun heq => hk (congrArg some heq.symm)
      · obtain rfl := Option.some.inj hk
        exact nextFree_setHeader_self ..

/-- Only links change when a segment is taken out of a chain. -/
theorem unlinkSegment_kept {prev next : Option ℕ} (hunlink : unlinkSegment log prev next = some log')
    (hk : log.segHeaders k = some h) : ∃ g, log'.segHeaders k = some g ∧
      g.inactive = h.inactive ∧ g.freed = h.freed ∧ g.size = h.size := by
  cases prev with
  | none =>
      obtain rfl := Option.some.inj hunlink
      exact ⟨h, hk, rfl, rfl, rfl⟩
  | some j =>
      obtain ⟨f, hf, rfl⟩ := Option.map_eq_some_iff.mp hunlink
      rcases eq_or_ne k j with rfl | hne
      · obtain rfl : f = h := Option.some.inj (hf.symm.trans hk)
        exact ⟨_, segHeaders_setHeader_self .., rfl, rfl, rfl⟩
      · exact ⟨h, (segHeaders_setHeader_of_ne _ _ hne).trans hk, rfl, rfl, rfl⟩

theorem Unlinked.sameCounts {prev next : Option ℕ} (hunlinked : Unlinked log log' prev next) :
    SameCounts log log' := by
  intro k
  cases hg : log'.segHeaders k with
  | none =>
      cases hk : log.segHeaders k with
      | none => rfl
      | some g =>
          obtain ⟨g', hg', _⟩ := hunlinked.forth k g hk
          rw [hg] at hg'
          cases hg'
  | some g =>
      obtain ⟨g', hg', hoffset, hfreed, hsize⟩ := hunlinked.back k g hg
      rw [hg', Option.map_some, Option.map_some]
      unfold SegmentHeader.counts
      rw [hoffset, hfreed, hsize]

theorem Unlinked.nextFree {prev next : Option ℕ} (hunlinked : Unlinked log log' prev next)
    (hk : prev ≠ some k) : log'.nextFree (some k) = log.nextFree (some k) := by
  change (log'.segHeaders k).bind _ = (log.segHeaders k).bind _
  rw [hunlinked.kept k hk]

theorem chain_start {next : Option ℕ → Option ℕ} {start : Option ℕ} {segments : List ℕ}
    (hlinks : IsChain next none start (segments.map some)) : start = segments.head? := by
  cases segments with
  | nil => exact hlinks
  | cons first rest => exact hlinks.1

/-- A chain without one of its segments. -/
theorem chain_unlink {next next' : Option ℕ → Option ℕ} {before after : List ℕ}
    (hlinks : IsChain next none (before ++ i :: after).head? ((before ++ i :: after).map some))
    (hnodup : (before ++ i :: after).Nodup)
    (hprev : ∀ j, before.getLast? = some j → next' (some j) = next (some i))
    (hother : ∀ k, k ≠ i → before.getLast? ≠ some k → next' (some k) = next (some k)) :
    IsChain next' none (before ++ after).head? ((before ++ after).map some) := by
  rcases List.eq_nil_or_concat before with rfl | ⟨init, prev, rfl⟩
  · obtain ⟨hi, _⟩ := List.nodup_cons.mp hnodup
    have hrest : IsChain next none (next (some i)) (after.map some) := hlinks.2.2
    rw [List.nil_append, ← chain_start hrest]
    refine hrest.congr fun node hnode => ?_
    obtain ⟨k, hk, rfl⟩ := List.mem_map.mp hnode
    refine hother k (fun heq => hi (heq ▸ hk)) nofun
  · rw [List.concat_eq_append] at *
    have hlast : (init ++ [prev]).getLast? = some prev := List.getLast?_concat
    have hhead : (init ++ [prev] ++ after).head? = (init ++ [prev] ++ i :: after).head? := by
      cases init with
      | nil => rfl
      | cons first init => rfl
    rw [hhead]
    rw [List.append_assoc, List.singleton_append] at hnodup
    rw [List.append_assoc, List.singleton_append, List.map_append, List.map_cons] at hlinks
    rw [List.append_assoc init, List.append_assoc init, List.singleton_append, List.singleton_append,
      List.map_append, List.map_cons]
    have hfar : ∀ k, (k ∈ init ∨ k ∈ after) → k ≠ i ∧ (init ++ [prev]).getLast? ≠ some k := by
      intro k hk
      rw [hlast]
      simp only [List.nodup_append, List.nodup_cons, List.mem_cons, not_or] at hnodup
      obtain ⟨_, ⟨hprevOut, hiOut, _⟩, hapart⟩ := hnodup
      rcases hk with hk | hk
      · exact ⟨hapart k hk i (.inr (.inl rfl)), fun heq =>
          hapart k hk prev (.inl rfl) (Option.some.inj heq).symm⟩
      · refine ⟨fun heq => hiOut (heq ▸ hk), fun heq => hprevOut.2 ?_⟩
        rw [Option.some.inj heq]
        exact hk
    refine hlinks.unlink (hprev prev hlast) (fun node hnode => ?_) fun node hnode => ?_
    · obtain ⟨k, hk, rfl⟩ := List.mem_map.mp hnode
      exact hother k (hfar k (.inl hk)).1 (hfar k (.inl hk)).2
    · obtain ⟨k, hk, rfl⟩ := List.mem_map.mp hnode
      exact hother k (hfar k (.inr hk)).1 (hfar k (.inr hk)).2

/-- Items in other segments are not cleared. -/
theorem clear_of_outside (hout : p < segData settings i ∨ segData settings i + settings.segsize ≤ p) :
    clear settings extent [i] p = extent p := by
  refine if_neg ?_
  rintro ⟨k, hk, hlo, hhi⟩
  obtain rfl := List.mem_singleton.mp hk
  omega

theorem clear_of_inside (hlo : segData settings i ≤ p)
    (hhi : p < segData settings i + settings.segsize) : clear settings extent [i] p = 0 :=
  if_pos ⟨i, List.mem_singleton_self i, hlo, hhi⟩

theorem liveBytes_clear_self (settings : Settings) (extent : ℕ → ℕ) (i : ℕ) :
    liveBytes settings (clear settings extent [i]) i = 0 := by
  refine Finset.sum_eq_zero fun x hx => ?_
  have hlt := Finset.mem_range.mp hx
  exact clear_of_inside (by omega) (by omega)

theorem liveBytes_clear_other (extent : ℕ → ℕ) (hk : k ≠ i) :
    liveBytes settings (clear settings extent [i]) k = liveBytes settings extent k := by
  refine Finset.sum_congr rfl fun x hx => clear_of_outside ?_
  have hlt := Finset.mem_range.mp hx
  rcases segData_apart settings hk with hapart | hapart
  · omega
  · omega

theorem clear_clear (settings : Settings) (extent : ℕ → ℕ) (i : ℕ) (freed : List ℕ) :
    clear settings (clear settings extent freed) [i] = clear settings extent (i :: freed) := by
  funext p
  unfold clear
  simp only [List.mem_cons, List.not_mem_nil, or_false, exists_eq_left, exists_eq_or_imp]
  split
  · rename_i hin
    rw [if_pos (.inl hin)]
  · rename_i hout
    simp only [hout, false_or]

/-- The segment `i` has been unlinked from the chain of an allocator that goes on. -/
theorem Owned.unlink {log log' : Log} {place : ℕ → Place} {i w : ℕ} {ia : ItemAllocator}
    {before after : List ℕ} (howned : Owned log place (before ++ i :: after) w ia)
    (hafter : after ≠ [])
    (hprev : ∀ j, before.getLast? = some j → log'.nextFree (some j) = log.nextFree (some i))
    (hnext : ∀ k, k ≠ i → before.getLast? ≠ some k →
      log'.nextFree (some k) = log.nextFree (some k)) :
    Owned log' (Function.update place i .free) (before ++ after) w ia := by
  have hnodup := howned.nodup
  have hplace : place i = .chain w :=
    (howned.mem_iff i).mp (List.mem_append_right _ List.mem_cons_self)
  obtain ⟨hi, hrest⟩ : i ∉ before ++ after ∧ (before ++ after).Nodup := by
    rw [List.nodup_middle, List.nodup_cons] at hnodup
    exact hnodup
  refine ⟨?_, hrest, fun k => ?_, chain_unlink howned.links hnodup hprev hnext, fun k => ?_⟩
  · obtain ⟨older, holder⟩ := howned.last
    obtain ⟨init, last, rfl⟩ : ∃ init last, after = init ++ [last] :=
      ⟨_, _, (List.dropLast_append_getLast hafter).symm⟩
    rw [← List.cons_append, ← List.append_assoc] at holder
    have hlast : last = ia.cur := (List.append_inj' holder rfl).2 |> List.singleton_inj.mp
    rw [← hlast, ← List.append_assoc]
    exact ⟨_, rfl⟩
  · rcases eq_or_ne k i with rfl | hki
    · rw [Function.update_self]
      exact ⟨fun hmem => absurd hmem hi, nofun⟩
    · rw [Function.update_of_ne hki, ← howned.mem_iff k, List.mem_append, List.mem_append,
        List.mem_cons]
      exact ⟨fun hor => hor.imp_right .inr, fun hor => hor.imp_right fun hor =>
        hor.resolve_left hki⟩
  · rcases eq_or_ne k i with rfl | hki
    · rw [Function.update_self, howned.reserved k, hplace]
      exact ⟨nofun, nofun⟩
    · rw [Function.update_of_ne hki]
      exact howned.reserved k

namespace LogInv

/-- The segment `i` is taken out of the chain of an allocator and freed. -/
theorem release (hinv : LogInv settings log allocators chains place free extent live)
    (hw : allocators w = some ia) {before after : List ℕ} (hchain : chains w = before ++ i :: after)
    (hafter : after ≠ []) (hh : log.segHeaders i = some h) (hfreed : h.freed = h.size)
    {log₁ : Log} (hunlinked : Unlinked log log₁ before.getLast? h.next) :
    LogInv settings (segmentFree log₁ i h) allocators (Function.update chains w (before ++ after))
      (Function.update place i .free) (i :: free) (clear settings extent [i]) live := by
  have howned := hinv.owned w ia hw
  have hnodup := howned.nodup
  rw [hchain] at hnodup
  have hplace : place i = .chain w := (howned.mem_iff i).mp (by
    rw [hchain]
    exact List.mem_append_right _ List.mem_cons_self)
  have hnotFree : place i ≠ .free := by
    rw [hplace]
    nofun
  have hzero := hinv.liveBytes_eq_zero hh hnotFree hfreed
  have hsize := hinv.size_le hh
  have hiBefore : i ∉ before := by
    rw [List.nodup_middle, List.nodup_cons, List.mem_append, not_or] at hnodup
    exact hnodup.1.1
  have hself : (segmentFree log₁ i h).segHeaders i =
      some { h with offset := 0, next := log₁.freeSegments } := segHeaders_setHeader_self ..
  have hother : ∀ k, k ≠ i → (segmentFree log₁ i h).segHeaders k = log₁.segHeaders k :=
    fun k hk => segHeaders_setHeader_of_ne _ _ hk
  have hnextSelf : (segmentFree log₁ i h).nextFree (some i) = log.freeSegments := by
    rw [nextFree_eq hself, hunlinked.freeSegments]
  have hnextOther : ∀ k, k ≠ i → (segmentFree log₁ i h).nextFree (some k) = log₁.nextFree (some k) :=
    fun k hk => nextFree_setHeader_of_ne _ _ hk
  have hnext : ∀ k, k ≠ i → before.getLast? ≠ some k →
      (segmentFree log₁ i h).nextFree (some k) = log.nextFree (some k) :=
    fun k hk hkPrev => (hnextOther k hk).trans (hunlinked.nextFree hkPrev)
  -- the segments of other allocators and the free ones are not on the chain
  have hoff : ∀ k, place k ≠ .chain w → k ≠ i ∧ before.getLast? ≠ some k := by
    intro k hk
    refine ⟨fun heq => hk (heq ▸ hplace), fun heq => hk ((howned.mem_iff k).mp ?_)⟩
    rw [hchain]
    exact List.mem_append_left _ (List.mem_of_getLast? heq)
  have hback : ∀ k g, k ≠ i → (segmentFree log₁ i h).segHeaders k = some g → ∃ g',
      log.segHeaders k = some g' ∧ g.offset = g'.offset ∧ g.freed = g'.freed ∧ g.size = g'.size := by
    intro k g hk hg
    rw [hother k hk] at hg
    exact hunlinked.back k g hg
  have hplaceFree : ∀ k, Function.update place i .free k = .free ↔ k = i ∨ place k = .free := by
    intro k
    rcases eq_or_ne k i with rfl | hk
    · rw [Function.update_self]
      exact ⟨fun _ => .inl rfl, fun _ => rfl⟩
    · rw [Function.update_of_ne hk]
      exact ⟨.inr, fun hor => hor.resolve_left hk⟩
  have halloced : (segmentFree log₁ i h).segAlloced = log.segAlloced := hunlinked.segAlloced
  refine ⟨fun k g hg => ?_, fun k g hg => ?_, fun k => ?_, fun k g hg hk => ?_, fun k hk => ?_,
    fun q => ?_, fun q hq => ?_, ?_, ?_, fun k => ?_, fun v ja hv => ?_, fun v hv k => ?_⟩
  · rw [halloced]
    rcases eq_or_ne k i with rfl | hk
    · exact hinv.index k h hh
    · obtain ⟨g', hg', _⟩ := hback k g hk hg
      exact hinv.index k g' hg'
  · rcases eq_or_ne k i with rfl | hk
    · rw [hself] at hg
      obtain rfl := Option.some.inj hg
      exact hinv.size k h hh
    · obtain ⟨g', hg', _, _, hsizeEq⟩ := hback k g hk hg
      rw [hsizeEq]
      exact hinv.size k g' hg'
  · rcases eq_or_ne k i with rfl | hk
    · rw [Function.update_self, hself]
      exact ⟨nofun, nofun⟩
    · rw [Function.update_of_ne hk, hother k hk, hinv.placed k, hunlinked.sameCounts.eq_none_iff k]
  · have hkFree := fun hor => hk ((hplaceFree k).mpr hor)
    have hki : k ≠ i := fun heq => hkFree (.inl heq)
    obtain ⟨g', hg', hoffset, hfreedEq, hsizeEq⟩ := hback k g hki hg
    have hcounts := hinv.counts k g' hg' fun hfree => hkFree (.inr hfree)
    exact hcounts.congr hoffset hfreedEq hsizeEq (liveBytes_clear_other extent hki)
  · rcases eq_or_ne k i with rfl | hki
    · exact liveBytes_clear_self settings extent k
    · rw [liveBytes_clear_other extent hki]
      exact hinv.recycled k (((hplaceFree k).mp hk).resolve_left hki)
  · by_cases hin : segData settings i ≤ q ∧ q < segData settings i + settings.segsize
    · have hle := extent_le_liveBytes live hin.1 hin.2
      exact .inr (by omega)
    · rw [clear_of_outside (by omega)]
      exact hinv.live q
  · have hout : ¬(segData settings i ≤ q ∧ q < segData settings i + settings.segsize) :=
      fun hin => hq (clear_of_inside hin.1 hin.2)
    rw [clear_of_outside (by omega)] at hq ⊢
    obtain ⟨k, g, hg, hk, hlo, hhi, hend⟩ := hinv.inside_segment hq
    have hki : k ≠ i := by
      rintro rfl
      exact hout ⟨hlo, by omega⟩
    obtain ⟨g', hg', hoffset⟩ := hunlinked.forth k g hg
    refine ⟨k, g', (hother k hki).trans hg', ?_, hlo, ?_⟩
    · rw [Ne, hplaceFree, not_or]
      exact ⟨hki, hk⟩
    · rw [hoffset]
      exact hhi
  · refine ⟨rfl, Option.some_ne_none i, ?_⟩
    rw [hnextSelf]
    refine IsChain.congr hinv.freeLinks fun node hnode => ?_
    obtain ⟨k, hk, rfl⟩ := List.mem_map.mp hnode
    have hkOff := hoff k (by rw [(hinv.mem_free k).mp hk]; nofun)
    exact hnext k hkOff.1 hkOff.2
  · refine List.nodup_cons.mpr ⟨fun hmem => hnotFree ((hinv.mem_free i).mp hmem), hinv.freeNodup⟩
  · rw [List.mem_cons, hinv.mem_free k, hplaceFree k]
  · rcases eq_or_ne v w with rfl | hvw
    · obtain rfl : ia = ja := Option.some.inj (hw.symm.trans hv)
      rw [Function.update_self]
      rw [hchain] at howned
      refine howned.unlink hafter (fun j hj => ?_) hnext
      have hji : j ≠ i := fun heq => hiBefore (heq ▸ List.mem_of_getLast? hj)
      rw [hnextOther j hji, hunlinked.link j hj, nextFree_eq hh]
    · rw [Function.update_of_ne hvw]
      have hvOwned := hinv.owned v ja hv
      refine hvOwned.congr (fun k => ?_) fun k hk => ?_
      · rcases eq_or_ne k i with rfl | hki
        · rw [Function.update_self, hplace]
          refine ⟨⟨nofun, fun heq => absurd (Place.chain.inj heq).symm hvw⟩, nofun, nofun⟩
        · rw [Function.update_of_ne hki]
          exact ⟨Iff.rfl, Iff.rfl⟩
      · have hkOff := hoff k (by
          rw [(hvOwned.mem_iff k).mp hk]
          exact fun heq => hvw (Place.chain.inj heq))
        exact hnext k hkOff.1 hkOff.2
  · rcases eq_or_ne k i with rfl | hki
    · rw [Function.update_self]
      exact ⟨nofun, nofun⟩
    · rw [Function.update_of_ne hki]
      exact hinv.unowned v hv k

/-- The link of a segment in the chain of an allocator. -/
theorem next_eq_head (hinv : LogInv settings log allocators chains place free extent live)
    (hw : allocators w = some ia) {before after : List ℕ} (hchain : chains w = before ++ i :: after)
    (hh : log.segHeaders i = some h) : h.next = after.head? := by
  have hlinks := (hinv.owned w ia hw).links
  rw [hchain, List.map_append, List.map_cons] at hlinks
  have hrest := hlinks.drop.2.2
  rw [nextFree_eq hh] at hrest
  exact chain_start hrest

/-- The loop of the maintenance keeps the invariant and ends.  It has passed the
segments in `before`, and `rest` is left.  What is not counted as freed entirely
stays where it is. -/
theorem reclaim_spec (hw : allocators w = some ia) (fuel : ℕ) {log : Log} {oldest : Option ℕ}
    {freed before rest : List ℕ} {place : ℕ → Place} {free : List ℕ} (hfuel : rest.length < fuel)
    (hinv : LogInv settings log allocators (Function.update chains w (before ++ rest)) place free
      (clear settings extent freed) live)
    (holdest : oldest = (before ++ rest).head?) (hhands : ∀ i, place i ≠ .hand) :
    ∃ log' oldest' freed' chain' place' free',
      reclaim fuel log oldest freed before.getLast? rest.head? = some (log', oldest', freed') ∧
      LogInv settings log' allocators (Function.update chains w chain') place' free'
        (clear settings extent freed') live ∧
      oldest' = chain'.head? ∧ (∀ i, place' i ≠ .hand) ∧
      ∀ k g, log.segHeaders k = some g → g.freed ≠ g.size ∨ place k ≠ .chain w →
        place' k = place k ∧ ∃ g', log'.segHeaders k = some g' ∧ g'.inactive = g.inactive := by
  induction fuel generalizing log oldest freed before rest place free with
  | zero => exact absurd hfuel (Nat.not_lt_zero _)
  | succ fuel ih =>
      cases rest with
      | nil =>
          exact ⟨log, oldest, freed, _, place, free, rfl, hinv, holdest, hhands,
            fun k g hg _ => ⟨rfl, g, hg, rfl⟩⟩
      | cons i after =>
          have hchain : Function.update chains w (before ++ i :: after) w = before ++ i :: after :=
            Function.update_self ..
          have howned := hinv.owned w ia hw
          rw [hchain] at howned
          have hplace : ∀ k ∈ before ++ i :: after, place k = .chain w :=
            fun k hk => (howned.mem_iff k).mp hk
          have hheader : ∀ k ∈ before ++ i :: after, ∃ g, log.segHeaders k = some g :=
            fun k hk => hinv.header_of_place (by rw [hplace k hk]; nofun)
          obtain ⟨h, hh⟩ := hheader i (List.mem_append_right _ List.mem_cons_self)
          have hnext := hinv.next_eq_head hw hchain hh
          rw [List.head?_cons, reclaim, hh, Option.bind_some]
          split
          · exact ⟨log, oldest, freed, _, place, free, rfl, hinv, holdest, hhands,
              fun k g hg _ => ⟨rfl, g, hg, rfl⟩⟩
          · rename_i hgoes
            rw [not_or] at hgoes
            have hafter : after ≠ [] := by
              rintro rfl
              exact hgoes.1 hnext
            split
            · rename_i hall
              obtain ⟨log₁, hlog₁, hunlinked⟩ := unlinkSegment_eq log
                before.getLast? h.next fun j hj =>
                  hheader j (List.mem_append_left _ (List.mem_of_getLast? hj))
              have hreleased := hinv.release hw hchain hafter hh hall hunlinked
              rw [Function.update_idem, clear_clear] at hreleased
              rw [hlog₁, Option.bind_some, hnext]
              have holdest' : (if before.getLast? = none then after.head? else oldest) =
                  (before ++ after).head? := by
                cases before with
                | nil => rfl
                | cons first before =>
                    rw [if_neg (by rw [List.getLast?_cons]; nofun), holdest]
                    rfl
              have hhands' : ∀ k, Function.update place i .free k ≠ .hand := by
                intro k
                rcases eq_or_ne k i with rfl | hne
                · rw [Function.update_self]
                  nofun
                · rw [Function.update_of_ne hne]
                  exact hhands k
              obtain ⟨log', oldest', freed', chain', place', free', hrun, hlog', hhead, hhandsEnd,
                hkept⟩ := ih (Nat.lt_of_succ_lt_succ hfuel) hreleased holdest' hhands'
              refine ⟨log', oldest', freed', chain', place', free', hrun, hlog', hhead, hhandsEnd,
                fun k g hg hor => ?_⟩
              have hne : k ≠ i := by
                rintro rfl
                obtain rfl : h = g := Option.some.inj (hh.symm.trans hg)
                rcases hor with hpartly | hout
                · exact hpartly hall
                · exact hout (hplace k (List.mem_append_right _ List.mem_cons_self))
              obtain ⟨g₁, hg₁, hinactive, hfreed, hsize⟩ := unlinkSegment_kept hlog₁ hg
              have hor' : g₁.freed ≠ g₁.size ∨ Function.update place i .free k ≠ .chain w := by
                rwa [hfreed, hsize, Function.update_of_ne hne]
              obtain ⟨hplaceEnd, g', hg', hinactiveEnd⟩ :=
                hkept k g₁ ((segHeaders_setHeader_of_ne _ _ hne).trans hg₁) hor'
              refine ⟨?_, g', hg', hinactiveEnd.trans hinactive⟩
              rw [hplaceEnd, Function.update_of_ne hne]
            · have hsplit : before ++ i :: after = before ++ [i] ++ after := by
                rw [List.append_assoc, List.singleton_append]
              rw [hsplit] at hinv holdest
              have hrest := ih (Nat.lt_of_succ_lt_succ hfuel) hinv holdest hhands
              rw [List.getLast?_concat] at hrest
              rw [hnext]
              exact hrest

/-- The segments of one allocator change, or there is a new one. -/
theorem rehouse (hinv : LogInv settings log allocators chains place free extent live)
    {place' : ℕ → Place} {chain : List ℕ}
    (hshared : ∀ i, (place' i = .free ↔ place i = .free) ∧
      (place' i = .unallocated ↔ place i = .unallocated))
    (howned : Owned log place' chain w ia)
    (hothers : ∀ v, v ≠ w → ∀ i, (place' i = .chain v ↔ place i = .chain v) ∧
      (place' i = .reserved v ↔ place i = .reserved v)) :
    LogInv settings log (Function.update allocators w (some ia)) (Function.update chains w chain)
      place' free extent live := by
  refine { hinv with
    placed := fun i => by rw [(hshared i).2, hinv.placed]
    counts := fun i h hh hi => hinv.counts i h hh fun hfree => hi ((hshared i).1.mpr hfree)
    recycled := fun i hi => hinv.recycled i ((hshared i).1.mp hi)
    inside := fun p hp => ?_
    mem_free := fun i => by rw [(hshared i).1, hinv.mem_free]
    owned := fun v ja hv => ?_
    unowned := fun v hv i => ?_ }
  · obtain ⟨i, h, hh, hi, hrest⟩ := hinv.inside p hp
    exact ⟨i, h, hh, fun hfree => hi ((hshared i).1.mp hfree), hrest⟩
  · rcases eq_or_ne v w with rfl | hvw
    · rw [Function.update_self] at hv ⊢
      rw [← Option.some.inj hv]
      exact howned
    · rw [Function.update_of_ne hvw] at hv ⊢
      exact (hinv.owned v ja hv).congr (hothers v hvw) fun _ _ => rfl
  · rcases eq_or_ne v w with rfl | hvw
    · rw [Function.update_self] at hv
      cases hv
    · rw [Function.update_of_ne hvw] at hv
      rw [Ne, Ne, (hothers v hvw i).1, (hothers v hvw i).2]
      exact hinv.unowned v hv i

/-- A segment that has just been taken is given a place with the allocator `w`. -/
theorem update_hand {place : ℕ → Place} {new : Place} (hi : place i = .hand)
    (hnew : new = .chain w ∨ new = .reserved w) :
    (∀ k, (Function.update place i new k = .free ↔ place k = .free) ∧
      (Function.update place i new k = .unallocated ↔ place k = .unallocated)) ∧
    ∀ v, v ≠ w → ∀ k, (Function.update place i new k = .chain v ↔ place k = .chain v) ∧
      (Function.update place i new k = .reserved v ↔ place k = .reserved v) := by
  refine ⟨fun k => ?_, fun v hv k => ?_⟩
  · rcases eq_or_ne k i with rfl | hne
    · rw [Function.update_self, hi]
      rcases hnew with rfl | rfl
      · exact ⟨⟨nofun, nofun⟩, nofun, nofun⟩
      · exact ⟨⟨nofun, nofun⟩, nofun, nofun⟩
    · rw [Function.update_of_ne hne]
      exact ⟨Iff.rfl, Iff.rfl⟩
  · rcases eq_or_ne k i with rfl | hne
    · rw [Function.update_self, hi]
      rcases hnew with rfl | rfl
      · exact ⟨⟨fun heq => absurd (Place.chain.inj heq).symm hv, nofun⟩, nofun, nofun⟩
      · exact ⟨⟨nofun, nofun⟩, fun heq => absurd (Place.reserved.inj heq).symm hv, nofun⟩
    · rw [Function.update_of_ne hne]
      exact ⟨Iff.rfl, Iff.rfl⟩

/-- An allocator without a reserved segment reserves one. -/
theorem reserve (hinv : LogInv settings log allocators chains place free extent live)
    (hw : allocators w = some ia) (hreserved : ia.reserved = none) (hi : place i = .hand) :
    LogInv settings log (Function.update allocators w (some { ia with reserved := some i })) chains
      (Function.update place i (.reserved w)) free extent live := by
  obtain ⟨hshared, hothers⟩ := update_hand (w := w) hi (.inr rfl)
  have howned := hinv.owned w ia hw
  have hnew : Owned log (Function.update place i (.reserved w)) (chains w) w
      { ia with reserved := some i } := by
    refine ⟨howned.last, howned.nodup, fun k => ?_, howned.links, fun k => ?_⟩
    · rw [howned.mem_iff]
      rcases eq_or_ne k i with rfl | hne
      · rw [Function.update_self, hi]
        exact ⟨nofun, nofun⟩
      · rw [Function.update_of_ne hne]
    · rcases eq_or_ne k i with rfl | hne
      · rw [Function.update_self]
        exact ⟨fun _ => rfl, fun _ => rfl⟩
      · rw [Function.update_of_ne hne, ← howned.reserved k, hreserved]
        exact ⟨fun heq => absurd (Option.some.inj heq).symm hne, nofun⟩
  have hrehoused := hinv.rehouse hshared hnew hothers
  rwa [Function.update_eq_self] at hrehoused

/-- `segment_alloc`, and the link of the new segment. -/
theorem takeSegment (hinv : LogInv settings log allocators chains place free extent live)
    {mapped : Bool} (htake : takeSegment settings log mapped = some (log', i)) :
    ∃ free', (place i = .free ∨ place i = .unallocated) ∧
      LogInv settings log' allocators chains (Function.update place i .hand) free' extent live ∧
      log'.nextFree (some i) = none ∧ ∀ k, k ≠ i → log'.segHeaders k = log.segHeaders k := by
  unfold Flexkvs.takeSegment at htake
  split at htake
  · rename_i log₁ k halloc
    obtain ⟨h, hh, hpair⟩ := Option.map_eq_some_iff.mp htake
    obtain ⟨rfl, rfl⟩ := Prod.mk.inj hpair
    obtain ⟨hkept, ⟨hnone, _⟩ | ⟨l, free', hsome, hplace, hlog⟩⟩ := hinv.segmentAlloc halloc
    · cases hnone
    obtain rfl := Option.some.inj hsome
    have hhand : Function.update place k .hand k = .hand := Function.update_self ..
    have hnotFree : Function.update place k .hand k ≠ .free := by
      rw [hhand]
      nofun
    have hcounts := hlog.counts k h hh hnotFree
    refine ⟨free', hplace, ?_, nextFree_setHeader_self .., fun l hl => ?_⟩
    swap
    · rw [segHeaders_setHeader_of_ne _ _ hl, hkept l fun heq => hl (Option.some.inj heq).symm]
    exact hlog.setHeader hh hnotFree rfl (.inr hhand) (.inl le_rfl)
      ⟨hcounts.freed, hcounts.items, hcounts.tail, hcounts.bound⟩
  · cases htake

/-- `ialloc_init_allocator` for an allocator that has no segments yet. -/
theorem iallocInitAllocator (hinv : LogInv settings log allocators chains place free extent live)
    (hw : allocators w = none) {mapped mapped' : Bool} {a : Allocator}
    (hinit : iallocInitAllocator settings log mapped mapped' = some (log', a)) :
    ∃ chain place' free', LogInv settings log' (Function.update allocators w (some a.ia))
        (Function.update chains w chain) place' free' extent live ∧
      a.oldest = chain.head? ∧
      (∀ k, place' k = place k ∨ place' k = .chain w ∨ place' k = .reserved w) ∧
      ∀ k v, place k = .chain v → place' k = .chain v ∧ log'.segHeaders k = log.segHeaders k := by
  obtain ⟨⟨log₁, cur⟩, hcur, hrest⟩ := Option.bind_eq_some_iff.mp hinit
  obtain ⟨⟨log₂, reserved⟩, hreserved, hpair⟩ := Option.map_eq_some_iff.mp hrest
  obtain ⟨rfl, rfl⟩ := Prod.mk.inj hpair
  obtain ⟨free₁, hcurPlace, hlog₁, hcurNext, hkept₁⟩ := hinv.takeSegment hcur
  obtain ⟨free₂, hresPlace, hlog₂, _, hkept⟩ := hlog₁.takeSegment hreserved
  have hne : cur ≠ reserved := by
    rintro rfl
    rw [Function.update_self] at hresPlace
    rcases hresPlace with heq | heq
    · cases heq
    · cases heq
  obtain ⟨taken, htaken⟩ : ∃ taken, taken =
    Function.update (Function.update place cur .hand) reserved .hand := ⟨_, rfl⟩
  have hothers : ∀ k, k ≠ cur → k ≠ reserved → taken k = place k := by
    intro k hkc hkr
    rw [htaken, Function.update_of_ne hkr, Function.update_of_ne hkc]
  have hcurHand : taken cur = .hand := by
    rw [htaken, Function.update_of_ne hne, Function.update_self]
  have hresHand : taken reserved = .hand := by
    rw [htaken, Function.update_self]
  rw [← htaken] at hlog₂
  clear htaken
  have hresKept : Function.update taken cur (.chain w) reserved = .hand := by
    rw [Function.update_of_ne hne.symm, hresHand]
  obtain ⟨hshared₁, hothers₁⟩ := update_hand (w := w) hcurHand (.inl rfl)
  obtain ⟨hshared₂, hothers₂⟩ := update_hand (w := w) hresKept (.inr rfl)
  have hunowned := hlog₂.unowned w hw
  have hnew : Owned log₂
      (Function.update (Function.update taken cur (.chain w)) reserved (.reserved w)) [cur] w
      ⟨some reserved, cur⟩ := by
    refine ⟨⟨[], rfl⟩, List.nodup_singleton cur, fun k => ?_, ?_, fun k => ?_⟩
    · rw [List.mem_singleton]
      rcases eq_or_ne k reserved with rfl | hkr
      · rw [Function.update_self]
        exact ⟨fun heq => absurd heq.symm hne, nofun⟩
      · rw [Function.update_of_ne hkr]
        rcases eq_or_ne k cur with rfl | hkc
        · rw [Function.update_self]
          exact ⟨fun _ => rfl, fun _ => rfl⟩
        · rw [Function.update_of_ne hkc]
          exact ⟨fun heq => absurd heq hkc, fun heq => absurd heq (hunowned k).1⟩
    · refine ⟨rfl, Option.some_ne_none cur, ?_⟩
      change (log₂.segHeaders cur).bind _ = none
      rw [hkept cur hne]
      exact hcurNext
    · dsimp only
      rcases eq_or_ne k reserved with rfl | hkr
      · rw [Function.update_self]
        exact ⟨fun _ => rfl, fun _ => rfl⟩
      · rw [Function.update_of_ne hkr]
        refine ⟨fun heq => absurd (Option.some.inj heq).symm hkr, fun heq => ?_⟩
        rcases eq_or_ne k cur with rfl | hkc
        · rw [Function.update_self] at heq
          cases heq
        · rw [Function.update_of_ne hkc] at heq
          exact absurd heq (hunowned k).2
  refine ⟨[cur], _, free₂, hlog₂.rehouse (fun k => ?_) hnew fun v hv k => ?_, rfl, fun k => ?_,
    fun k v hk => ?_⟩
  · exact ⟨(hshared₂ k).1.trans (hshared₁ k).1, (hshared₂ k).2.trans (hshared₁ k).2⟩
  · exact ⟨(hothers₂ v hv k).1.trans (hothers₁ v hv k).1,
      (hothers₂ v hv k).2.trans (hothers₁ v hv k).2⟩
  · rcases eq_or_ne k reserved with rfl | hkr
    · exact .inr (.inr (Function.update_self ..))
    · rw [Function.update_of_ne hkr]
      rcases eq_or_ne k cur with rfl | hkc
      · exact .inr (.inl (Function.update_self ..))
      · rw [Function.update_of_ne hkc, hothers k hkc hkr]
        exact .inl rfl
  · have hkc : k ≠ cur := by
      rintro rfl
      rw [hk] at hcurPlace
      rcases hcurPlace with heq | heq
      · cases heq
      · cases heq
    have hkr : k ≠ reserved := by
      rintro rfl
      rw [Function.update_of_ne hne.symm, hk] at hresPlace
      rcases hresPlace with heq | heq
      · cases heq
      · cases heq
    rw [Function.update_of_ne hkr, Function.update_of_ne hkc, hothers k hkc hkr]
    exact ⟨hk, (hkept k hkr).trans (hkept₁ k hkc)⟩

/-- `ialloc_cleanup_item` only fills the place of the reserved segment. -/
theorem iallocCleanupItem (hinv : LogInv settings log allocators chains place free extent live)
    {a : Allocator} (hw : allocators w = some a.ia) (idle mapped : Bool) :
    ∃ place' free', LogInv settings (iallocCleanupItem settings log a idle mapped).1
        (Function.update allocators w (some (iallocCleanupItem settings log a idle mapped).2.ia))
        chains place' free' extent live ∧
      (iallocCleanupItem settings log a idle mapped).2.oldest = a.oldest ∧
      (∀ k, place' k = .hand → place k = .hand) ∧
      (iallocCleanupItem settings log a idle mapped).2.ia.cur = a.ia.cur ∧
      ∀ k v, place k = .chain v → place' k = .chain v ∧
        (iallocCleanupItem settings log a idle mapped).1.segHeaders k = log.segHeaders k := by
  have hsame : Function.update allocators w (some a.ia) = allocators := by
    rw [← hw, Function.update_eq_self]
  have hcounted : ∃ b : Allocator, b = (if idle then a else { a with
      cleanupCount := a.cleanupCount + 1 }) ∧ b.ia = a.ia ∧ b.oldest = a.oldest := by
    refine ⟨_, rfl, ?_, ?_⟩
    · split
      · rfl
      · rfl
    · split
      · rfl
      · rfl
  obtain ⟨b, hb, hia, holdest⟩ := hcounted
  have hcur : b.ia.cur = a.ia.cur := by rw [hia]
  unfold Flexkvs.iallocCleanupItem
  split
  · refine ⟨place, free, ?_, rfl, fun _ hhand => hhand, rfl, fun _ _ hk => ⟨hk, rfl⟩⟩
    rw [hsame]
    exact hinv
  · dsimp only
    rw [← hb]
    split
    · rename_i hnone
      obtain ⟨result, hresult⟩ : ∃ result, result = Flexkvs.segmentAlloc settings log mapped :=
        ⟨_, rfl⟩
      obtain ⟨log', segment⟩ := result
      rw [← hresult]
      obtain ⟨hheaders, ⟨rfl, hlog⟩ | ⟨i, free', rfl, hplace, hlog⟩⟩ :=
        hinv.segmentAlloc hresult.symm
      · refine ⟨place, free, ?_, holdest, fun _ hhand => hhand, hcur,
          fun k _ hk => ⟨hk, hheaders k nofun⟩⟩
        have hempty : ({ b.ia with reserved := none } : ItemAllocator) = a.ia := by
          rw [← hia, ← hnone]
        dsimp only
        rw [hempty, hsame]
        exact hlog
      · rw [hia] at hnone
        refine ⟨Function.update (Function.update place i .hand) i (.reserved w), free', ?_, holdest,
          fun k hk => ?_, hcur, fun k v hk => ?_⟩
        · dsimp only
          rw [hia]
          exact hlog.reserve hw hnone (Function.update_self ..)
        · rcases eq_or_ne k i with rfl | hne
          · rw [Function.update_self] at hk
            cases hk
          · rwa [Function.update_of_ne hne, Function.update_of_ne hne] at hk
        · have hne : k ≠ i := by
            rintro rfl
            rw [hk] at hplace
            rcases hplace with heq | heq
            · cases heq
            · cases heq
          rw [Function.update_of_ne hne, Function.update_of_ne hne]
          exact ⟨hk, hheaders k fun heq => hne (Option.some.inj heq).symm⟩
    · refine ⟨place, free, ?_, holdest, fun _ hhand => hhand, hcur,
        fun _ _ hk => ⟨hk, rfl⟩⟩
      dsimp only
      rw [hia, hsame]
      exact hinv

end LogInv

/-! ## The invariant of a run -/

theorem clear_nil (settings : Settings) (extent : ℕ → ℕ) : clear settings extent [] = extent := by
  funext p
  exact if_neg fun ⟨_, hmem, _⟩ => List.not_mem_nil hmem

/-- A chain has no more segments than there are. -/
theorem LogInv.length_le (hinv : LogInv settings log allocators chains place free extent live)
    (hw : allocators w = some ia) : (chains w).length ≤ settings.segmaxnum := by
  have howned := hinv.owned w ia hw
  rw [← List.toFinset_card_of_nodup howned.nodup, ← Finset.card_range settings.segmaxnum]
  refine Finset.card_le_card fun i hi => Finset.mem_range.mpr ?_
  have hplace := (howned.mem_iff i).mp (List.mem_toFinset.mp hi)
  obtain ⟨h, hh⟩ := hinv.header_of_place (i := i) (by rw [hplace]; nofun)
  exact (hinv.index i h hh).1

namespace SegmentRun

variable {t next : SegmentRun} {action : SegmentAction}

/-- The segments that an allocator owns. -/
def owners (t : SegmentRun) : ℕ → Option ItemAllocator := fun w => (t.allocators w).map Allocator.ia

structure Inv (settings : Settings) (t : SegmentRun) : Prop where
  running : t.failed = false
  apart : ∀ p q, t.extent p ≠ 0 → t.extent q ≠ 0 → p ≠ q →
    p + t.extent p ≤ q ∨ q + t.extent q ≤ p
  log : ∃ chains place free,
    LogInv settings t.log t.owners chains place free t.extent t.live ∧
      (∀ w a, t.allocators w = some a → a.oldest = (chains w).head?) ∧ ∀ i, place i ≠ .hand

theorem inv_initial (settings : Settings) (mem : Memory) : Inv settings (initial mem) := by
  refine ⟨rfl, fun p q hp => absurd rfl hp, fun _ => [], fun _ => .unallocated, [], ?_, nofun,
    fun _ => nofun⟩
  refine ⟨nofun, nofun, fun _ => ⟨fun _ => rfl, fun _ => rfl⟩, nofun, nofun, fun _ => .inl rfl,
    fun p hp => absurd rfl hp, rfl, List.nodup_nil, fun _ => ⟨nofun, nofun⟩, nofun,
    fun _ _ _ => ⟨nofun, nofun⟩⟩

/-- The invariant at the places of the segments. -/
structure Holds (settings : Settings) (t : SegmentRun) (chains : ℕ → List ℕ) (place : ℕ → Place)
    (free : List ℕ) : Prop where
  running : t.failed = false
  apart : ∀ p q, t.extent p ≠ 0 → t.extent q ≠ 0 → p ≠ q →
    p + t.extent p ≤ q ∨ q + t.extent q ≤ p
  log : LogInv settings t.log t.owners chains place free t.extent t.live
  oldest : ∀ w a, t.allocators w = some a → a.oldest = (chains w).head?
  hands : ∀ i, place i ≠ .hand

theorem Holds.inv (hholds : Holds settings t chains place free) : Inv settings t :=
  ⟨hholds.running, hholds.apart, chains, place, free, hholds.log, hholds.oldest, hholds.hands⟩

theorem owners_eq {a : Allocator} (hw : t.allocators w = some a) : t.owners w = some a.ia := by
  rw [owners, hw]
  rfl

theorem Holds.inPlace (hholds : Holds settings t chains place free) : t.InPlace place := by
  obtain ⟨_, _, hlog, holdest, hhands⟩ := hholds
  refine ⟨fun i => hlog.placed i, hhands, ⟨free, hlog.freeLinks, hlog.freeNodup, hlog.mem_free⟩,
    fun w a hw => ?_, fun w a hw => (hlog.owned w a.ia (owners_eq hw)).reserved,
    fun w hw => hlog.unowned w ?_⟩
  · have howned := hlog.owned w a.ia (owners_eq hw)
    obtain ⟨older, holder⟩ := howned.last
    refine ⟨older, ?_, ?_, ?_⟩
    · rw [holdest w a hw, ← holder]
      exact howned.links
    · rw [← holder]
      exact howned.nodup
    · rw [← holder]
      exact howned.mem_iff
  · rw [owners, hw]
    rfl

/-- Bytes that are no longer live. -/
theorem liveBytes_sub (hinv : LogInv settings log allocators chains place free extent live) (i : ℕ) :
    liveBytes settings (fun p => extent p - live p) i + liveBytes settings live i =
      liveBytes settings extent i := by
  unfold liveBytes
  rw [← Finset.sum_add_distrib]
  exact Finset.sum_congr rfl fun x _ => Nat.sub_add_cancel (hinv.live_le _)

theorem Inv.sound (hinv : Inv settings t) : Sound settings t := by
  obtain ⟨chains, place, free, hlog, holdest, hhands⟩ := hinv.log
  have hextent : ∀ p, t.live p ≠ 0 → t.extent p = t.live p :=
    fun p hp => ((hlog.live p).resolve_right hp).symm
  have hinPlace := Holds.inPlace ⟨hinv.running, hinv.apart, hlog, holdest, hhands⟩
  refine ⟨hinv.running, fun p q hp hq hne => ?_, place, hinPlace, fun p hp => ?_,
    fun i h hh hi => ?_⟩
  · have hapart := hinv.apart p q (by rwa [hextent p hp]) (by rwa [hextent q hq]) hne
    rwa [hextent p hp, hextent q hq] at hapart
  · have hin := hlog.inside p (by rwa [hextent p hp])
    rwa [hextent p hp] at hin
  · have hcounts := hlog.counts i h hh hi
    have hsub := liveBytes_sub hlog i
    have hfreed := hcounts.freed
    have hitems := hcounts.items
    have hbytes : t.freedBytes settings i = liveBytes settings (fun p => t.extent p - t.live p) i :=
      rfl
    refine ⟨⟨h.offset - liveBytes settings t.extent i, ?_, fun htail => ?_, ?_⟩, ?_, hcounts.bound⟩
    · omega
    · refine hcounts.tail ?_
      omega
    · omega
    · omega

/-! ## One action -/

theorem owners_setAllocator (t : SegmentRun) (w : ℕ) (log : Log) (a : Allocator) :
    (t.setAllocator w log a).owners = Function.update t.owners w (some a.ia) := by
  funext v
  unfold owners setAllocator
  dsimp only
  rcases eq_or_ne v w with rfl | hne
  · rw [Function.update_self, Function.update_self]
    rfl
  · rw [Function.update_of_ne hne, Function.update_of_ne hne]

/-- The oldest segments after the one of the allocator `w` has been assigned. -/
theorem oldest_setAllocator {a : Allocator} {chain : List ℕ}
    (holdest : ∀ v b, t.allocators v = some b → b.oldest = (chains v).head?)
    (ha : a.oldest = chain.head?) (v : ℕ) (b : Allocator)
    (hv : Function.update t.allocators w (some a) v = some b) :
    b.oldest = (Function.update chains w chain v).head? := by
  rcases eq_or_ne v w with rfl | hne
  · rw [Function.update_self] at hv ⊢
    rw [← Option.some.inj hv]
    exact ha
  · rw [Function.update_of_ne hne] at hv ⊢
    exact holdest v b hv

/-- The ranges of the items stay apart if another one is put into a place of its own. -/
theorem apart_allocated {it total : ℕ} {extent : ℕ → ℕ}
    (hapart : ∀ p q, extent p ≠ 0 → extent q ≠ 0 → p ≠ q → p + extent p ≤ q ∨ q + extent q ≤ p)
    (hroom : it ≠ 0 → Laid.Room extent it total) {p q : ℕ} (hp : allocated extent it total p ≠ 0)
    (hq : allocated extent it total q ≠ 0) (hne : p ≠ q) :
    p + allocated extent it total p ≤ q ∨ q + allocated extent it total q ≤ p := by
  unfold allocated at *
  split at hp
  · rename_i hzero
    rw [if_pos hzero] at hq ⊢
    exact hapart p q hp hq hne
  · rename_i hit
    rw [if_neg hit] at hq ⊢
    rcases eq_or_ne p it with rfl | hpit
    · rw [Function.update_of_ne hne.symm] at hq ⊢
      rw [Function.update_self]
      exact (hroom hit).apart q hq
    · rw [Function.update_of_ne hpit] at hp ⊢
      rcases eq_or_ne q it with rfl | hqit
      · rw [Function.update_self]
        exact ((hroom hit).apart p hp).symm
      · rw [Function.update_of_ne hqit] at hq ⊢
        exact hapart p q hp hq hne

theorem clear_ne_zero {freed : List ℕ} (hp : clear settings extent freed p ≠ 0) :
    clear settings extent freed p = extent p ∧ extent p ≠ 0 := by
  unfold clear at *
  split at hp
  · exact absurd rfl hp
  · rename_i hout
    rw [if_neg hout]
    exact ⟨rfl, hp⟩

/-- Freeing an item only counts its bytes. -/
theorem iallocFree_kept {total : ℕ} (hfree : iallocFree settings log p total = some log')
    (hk : log.segHeaders k = some h) :
    ∃ g, log'.segHeaders k = some g ∧ g.inactive = h.inactive := by
  obtain ⟨⟨i, f⟩, hpart, rfl⟩ := Option.map_eq_some_iff.mp hfree
  obtain ⟨_, hpart⟩ := Option.ite_none_right_eq_some.mp hpart
  obtain ⟨f', hf, hpair⟩ := Option.map_eq_some_iff.mp hpart
  obtain ⟨rfl, rfl⟩ := Prod.mk.inj hpair
  rcases eq_or_ne k ((p - settings.segBase) / settings.segsize) with rfl | hne
  · obtain rfl : f' = h := Option.some.inj (hf.symm.trans hk)
    exact ⟨_, segHeaders_setHeader_self .., rfl⟩
  · exact ⟨h, (segHeaders_setHeader_of_ne _ _ hne).trans hk, rfl⟩

/-- The segment is in the chain of the allocator `v`, behind its current one. -/
structure Retired (t : SegmentRun) (place : ℕ → Place) (v k : ℕ) : Prop where
  place : place k = .chain v
  ne_cur : ∀ a, t.allocators v = some a → k ≠ a.ia.cur
  inactive : ∃ h, t.log.segHeaders k = some h ∧ h.inactive = true

/-- A retired segment stays so until the maintenance of its allocator finds all
of it freed. -/
def Keeps (t next : SegmentRun) (place place' : ℕ → Place) (action : SegmentAction) : Prop :=
  ∀ v k, t.Retired place v k →
    (action = .maintenance v → ∀ h, t.log.segHeaders k = some h → h.freed ≠ h.size) →
    next.Retired place' v k

/-- The current segment of another allocator stays what it is. -/
theorem Retired.ne_cur_update {place : ℕ → Place} {w v k : ℕ} {b : Allocator}
    (hretired : t.Retired place v k) (hsame : v = w → k ≠ b.ia.cur) (a : Allocator)
    (ha : Function.update t.allocators w (some b) v = some a) : k ≠ a.ia.cur := by
  rcases eq_or_ne v w with rfl | hne
  · rw [Function.update_self] at ha
    rw [← Option.some.inj ha]
    exact hsame rfl
  · rw [Function.update_of_ne hne] at ha
    exact hretired.ne_cur a ha

theorem Holds.init (hholds : Holds settings t chains place free)
    {w : ℕ} {mapped mapped' : Bool} (hstep : SegmentRun.step settings t (.init w mapped mapped') = some next) :
    ∃ chains' place' free', Holds settings next chains' place' free' ∧
      Keeps t next place place' (.init w mapped mapped') := by
  obtain ⟨hrunning, hapart, hlog, holdest, hhands⟩ := hholds
  dsimp only [SegmentRun.step] at hstep
  split at hstep
  · rename_i hnone
    obtain ⟨⟨log', a⟩, hinit, rfl⟩ := Option.map_eq_some_iff.mp hstep
    have hw : t.owners w = none := by
      rw [owners, hnone]
      rfl
    obtain ⟨chain, place', free', hlog', ha, hplaces, hkept⟩ :=
      hlog.iallocInitAllocator hw hinit
    refine ⟨_, place', free', ⟨hrunning, hapart, ?_,
      fun v b hv => oldest_setAllocator holdest ha v b hv, fun i => ?_⟩,
      fun v k hretired _ => ?_⟩
    · rw [owners_setAllocator]
      exact hlog'
    · rcases hplaces i with heq | heq | heq
      · rw [heq]
        exact hhands i
      · rw [heq]
        nofun
      · rw [heq]
        nofun
    · obtain ⟨hplace', hheader⟩ := hkept k v hretired.place
      refine ⟨hplace', hretired.ne_cur_update fun hvw => ?_, ?_⟩
      · rw [hvw] at hretired
        exact absurd hretired.place (hlog.unowned w hw k).1
      · obtain ⟨h, hh, hinactive⟩ := hretired.inactive
        exact ⟨h, hheader.trans hh, hinactive⟩
  · cases hstep

theorem Holds.alloc (hbase : settings.segBase ≠ 0) (hholds : Holds settings t chains place free)
    {w total : ℕ} {cleanup mapped : Bool} (hstep : SegmentRun.step settings t (.alloc w total cleanup mapped) = some next) :
    ∃ chains' place' free', Holds settings next chains' place' free' ∧
      Keeps t next place place' (.alloc w total cleanup mapped) := by
  obtain ⟨hrunning, hapart, hlog, holdest, hhands⟩ := hholds
  obtain ⟨a, hw, hstep⟩ := Option.bind_eq_some_iff.mp hstep
  split at hstep
  · rename_i hsize
    obtain ⟨m, log', ia', it, halloc, hspec⟩ :=
      hlog.iallocAlloc (owners_eq hw) t.mem hsize.1 hsize.2 cleanup mapped
    obtain ⟨chain, place', free', hlog', hfetched, hhead, hplaces, hkept⟩ :=
      hspec (.inr hbase)
    rw [halloc] at hstep
    obtain rfl := Option.some.inj hstep
    have ha : ({ a with ia := ia' } : Allocator).oldest = chain.head? :=
      (holdest w a hw).trans hhead.symm
    refine ⟨_, place', free', ⟨hrunning, fun p q hp hq hne => ?_, ?_,
      fun v b hv => oldest_setAllocator holdest ha v b hv, fun i => ?_⟩,
      fun v k hretired _ => ?_⟩
    · exact apart_allocated hapart (fun hit => (hfetched.item hit).1) hp hq hne
    · rw [← owners_setAllocator t w log' { a with ia := ia' }] at hlog'
      exact hlog'
    · rcases hplaces i with heq | heq
      · rw [heq]
        exact hhands i
      · rw [heq]
        nofun
    · have hneCur : k ≠ a.ia.cur := by
        rintro rfl
        have hcur := (hlog.cur_header (owners_eq hw)).1
        rw [hretired.place] at hcur
        obtain rfl := Place.chain.inj hcur
        exact hretired.ne_cur a hw rfl
      obtain ⟨hplace', hneCur', hheader⟩ := hkept k v hretired.place hneCur
      obtain ⟨h, hh, hinactive⟩ := hretired.inactive
      exact ⟨hplace', hretired.ne_cur_update fun _ => hneCur', h, hheader.trans hh, hinactive⟩
  · cases hstep

theorem Holds.freeItem (hholds : Holds settings t chains place free)
    {it : ℕ} (hstep : SegmentRun.step settings t (.free it) = some next) :
    ∃ chains' place' free', Holds settings next chains' place' free' ∧
      Keeps t next place place' (.free it) := by
  obtain ⟨hrunning, hapart, hlog, holdest, hhands⟩ := hholds
  dsimp only [SegmentRun.step] at hstep
  split at hstep
  · cases hstep
  · rename_i hlive
    obtain ⟨log', hfree, hlog'⟩ := hlog.remove hlive rfl
    rw [hfree] at hstep
    obtain rfl := Option.some.inj hstep
    refine ⟨chains, place, free, ⟨hrunning, hapart, hlog', holdest, hhands⟩,
      fun v k hretired _ => ⟨hretired.place, hretired.ne_cur, ?_⟩⟩
    obtain ⟨h, hh, hinactive⟩ := hretired.inactive
    obtain ⟨g, hg, hsame⟩ := iallocFree_kept hfree hh
    exact ⟨g, hg, hsame.trans hinactive⟩

theorem Holds.cleanup (hholds : Holds settings t chains place free)
    {w : ℕ} {idle mapped : Bool} (hstep : SegmentRun.step settings t (.cleanup w idle mapped) = some next) :
    ∃ chains' place' free', Holds settings next chains' place' free' ∧
      Keeps t next place place' (.cleanup w idle mapped) := by
  obtain ⟨hrunning, hapart, hlog, holdest, hhands⟩ := hholds
  obtain ⟨a, hw, rfl⟩ := Option.map_eq_some_iff.mp hstep
  obtain ⟨place', free', hlog', ha, hplaces, hcur, hkept⟩ :=
    hlog.iallocCleanupItem (owners_eq hw) idle mapped
  refine ⟨Function.update chains w (chains w), place', free', ⟨hrunning, hapart, ?_,
    fun v b hv => oldest_setAllocator holdest (ha.trans (holdest w a hw)) v b hv,
    fun i hi => hhands i (hplaces i hi)⟩, fun v k hretired _ => ?_⟩
  · rw [owners_setAllocator, Function.update_eq_self]
    exact hlog'
  · obtain ⟨hplace', hheader⟩ := hkept k v hretired.place
    obtain ⟨h, hh, hinactive⟩ := hretired.inactive
    refine ⟨hplace', hretired.ne_cur_update fun hvw => ?_, h, hheader.trans hh, hinactive⟩
    rw [hcur]
    exact hretired.ne_cur a (hvw ▸ hw)

theorem Holds.nextRequest (hholds : Holds settings t chains place free)
    {w : ℕ} (hstep : SegmentRun.step settings t (.nextRequest w) = some next) :
    ∃ chains' place' free', Holds settings next chains' place' free' ∧
      Keeps t next place place' (.nextRequest w) := by
  obtain ⟨hrunning, hapart, hlog, holdest, hhands⟩ := hholds
  obtain ⟨a, hw, rfl⟩ := Option.map_eq_some_iff.mp hstep
  have ha : ({ a with cleanupCount := 0 } : Allocator).oldest = (chains w).head? :=
    holdest w a hw
  refine ⟨Function.update chains w (chains w), place, free, ⟨hrunning, hapart, ?_,
    fun v b hv => oldest_setAllocator holdest ha v b hv, hhands⟩, fun v k hretired _ =>
    ⟨hretired.place, hretired.ne_cur_update fun hvw => hretired.ne_cur a (hvw ▸ hw),
      hretired.inactive⟩⟩
  rw [owners_setAllocator, Function.update_eq_self, ← owners_eq hw, Function.update_eq_self]
  exact hlog

theorem Holds.maintenance (hholds : Holds settings t chains place free)
    {w : ℕ} (hstep : SegmentRun.step settings t (.maintenance w) = some next) :
    ∃ chains' place' free', Holds settings next chains' place' free' ∧
      Keeps t next place place' (.maintenance w) := by
  obtain ⟨hrunning, hapart, hlog, holdest, hhands⟩ := hholds
  obtain ⟨a, hw, hstep⟩ := Option.bind_eq_some_iff.mp hstep
  have hchain : ([] : List ℕ) ++ chains w = chains w := rfl
  have hstart : LogInv settings t.log t.owners (Function.update chains w ([] ++ chains w)) place
      free (clear settings t.extent []) t.live := by
    rw [hchain, Function.update_eq_self, clear_nil]
    exact hlog
  obtain ⟨log', oldest', freed, chain, place', free', hreclaim, hlog', hhead, hhands', hkept⟩ :=
    LogInv.reclaim_spec (owners_eq hw) (settings.segmaxnum + 1)
      (Nat.lt_succ_of_le (hlog.length_le (owners_eq hw))) hstart (holdest w a hw) hhands
  rw [← holdest w a hw] at hreclaim
  have hmaintained : iallocMaintenance settings t.log a =
      some (log', { a with oldest := oldest' }, freed) := by
    unfold iallocMaintenance
    rw [show (none : Option ℕ) = ([] : List ℕ).getLast? from rfl, hreclaim]
    rfl
  rw [hmaintained] at hstep
  obtain rfl := Option.some.inj hstep
  refine ⟨Function.update chains w chain, place', free', ⟨hrunning, fun p q hp hq hne => ?_,
    ?_, fun v b hv => oldest_setAllocator holdest hhead v b hv, hhands'⟩,
    fun v k hretired hpartly => ?_⟩
  · obtain ⟨hpEq, hpLive⟩ := clear_ne_zero hp
    obtain ⟨hqEq, hqLive⟩ := clear_ne_zero hq
    dsimp only
    rw [hpEq, hqEq]
    exact hapart p q hpLive hqLive hne
  · have howners : (t.setAllocator w log' { a with oldest := oldest' }).owners = t.owners := by
      rw [owners_setAllocator, ← owners_eq hw, Function.update_eq_self]
    change LogInv settings log' (t.setAllocator w log' { a with oldest := oldest' }).owners _ _ _
      _ _
    rw [howners]
    exact hlog'
  · obtain ⟨h, hh, hinactive⟩ := hretired.inactive
    have hor : h.freed ≠ h.size ∨ place k ≠ .chain w := by
      rcases eq_or_ne v w with rfl | hne
      · exact .inl (hpartly rfl h hh)
      · refine .inr fun heq => hne ?_
        rw [hretired.place] at heq
        exact Place.chain.inj heq
    obtain ⟨hplace', g, hg, hsame⟩ := hkept k h hh hor
    exact ⟨hplace'.trans hretired.place,
      hretired.ne_cur_update fun hvw => hretired.ne_cur a (hvw ▸ hw), g, hg, hsame.trans hinactive⟩

/-- Step lemma: every action keeps the invariant, and the retired segments stay so. -/
theorem Holds.step (hbase : settings.segBase ≠ 0) (hholds : Holds settings t chains place free)
    (hstep : SegmentRun.step settings t action = some next) :
    ∃ chains' place' free', Holds settings next chains' place' free' ∧
      Keeps t next place place' action := by
  cases action with
  | init w mapped mapped' => exact hholds.init hstep
  | alloc w total cleanup mapped => exact hholds.alloc hbase hstep
  | free it => exact hholds.freeItem hstep
  | cleanup w idle mapped => exact hholds.cleanup hstep
  | nextRequest w => exact hholds.nextRequest hstep
  | maintenance w => exact hholds.maintenance hstep

theorem Inv.step (hbase : settings.segBase ≠ 0) (hinv : Inv settings t)
    (hstep : step settings t action = some next) : Inv settings next := by
  obtain ⟨chains, place, free, hlog, holdest, hhands⟩ := hinv.log
  obtain ⟨_, _, _, hholds, _⟩ :=
    Holds.step hbase ⟨hinv.running, hinv.apart, hlog, holdest, hhands⟩ hstep
  exact hholds.inv

/-- Two items fill a segment up to a tail that is too small for a third one; they
are freed and the segment is recycled. -/
def recyclingActions : List SegmentAction :=
  [.init 0 true true, .alloc 0 24 false true, .alloc 0 24 false true, .alloc 0 24 false true,
    .free 64, .free 88, .maintenance 0]

/-- Four segments of 64 bytes. -/
def recyclingSettings : Settings := ⟨64, 64, 4, by decide⟩

end SegmentRun

end ArmsTiering.Flexkvs
