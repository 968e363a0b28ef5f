import ArmsTiering.Core.LinkedList
import ArmsTiering.Flexkvs.Log
import Mathlib.Algebra.BigOperators.Group.Finset.Basic
import Mathlib.Algebra.Order.BigOperators.Group.Finset

/-!
# The segments of the log

Every item lies in the allocated part of a segment until the segment is recycled.
What is allocated of a segment is made up of its items and of a retired tail, and
what is not counted as freed is the live items.  So an allocation finds a place
of its own, and a segment that is counted as freed entirely has no live item.
-/

namespace ArmsTiering.Flexkvs

/-- Where a segment is.  A segment without a header has not been allocated, or
its mapping has failed; between two assignments it is in the hand of a call. -/
inductive Place
  | unallocated
  | free
  | hand
  | chain (w : ℕ)
  | reserved (w : ℕ)
  deriving DecidableEq

/-- The bytes of items in the segment `i`. -/
def liveBytes (settings : Settings) (extent : ℕ → ℕ) (i : ℕ) : ℕ :=
  ∑ x ∈ Finset.range settings.segsize, extent (segData settings i + x)

/-- The segment behind another one in a list of segments. -/
def Log.nextFree (log : Log) (i : Option ℕ) : Option ℕ :=
  (i.bind log.segHeaders).bind SegmentHeader.next

/-- What is allocated of a segment is its items and a tail, which it has only
once it is retired.  All of it but the live items is counted as freed. -/
structure Counted (settings : Settings) (extent live : ℕ → ℕ) (i : ℕ) (h : SegmentHeader) :
    Prop where
  freed : h.freed + liveBytes settings live i = h.offset
  items : liveBytes settings extent i ≤ h.offset
  tail : liveBytes settings extent i ≠ h.offset → h.offset = h.size
  bound : h.offset ≤ h.size

/-- The segments of one allocator: from the oldest to the current one, and the
reserved one. -/
structure Owned (log : Log) (place : ℕ → Place) (chain : List ℕ) (w : ℕ) (ia : ItemAllocator) :
    Prop where
  last : ∃ older, chain = older ++ [ia.cur]
  nodup : chain.Nodup
  mem_iff : ∀ i, i ∈ chain ↔ place i = .chain w
  links : IsChain log.nextFree none chain.head? (chain.map some)
  reserved : ∀ i, ia.reserved = some i ↔ place i = .reserved w

structure LogInv (settings : Settings) (log : Log) (allocators : ℕ → Option ItemAllocator)
    (chains : ℕ → List ℕ) (place : ℕ → Place) (free : List ℕ) (extent live : ℕ → ℕ) : Prop where
  index : ∀ i h, log.segHeaders i = some h → i < settings.segmaxnum ∧ i < log.segAlloced
  size : ∀ i h, log.segHeaders i = some h → h.size = settings.segsize % 2 ^ 32
  placed : ∀ i, place i = .unallocated ↔ log.segHeaders i = none
  counts : ∀ i h, log.segHeaders i = some h → place i ≠ .free → Counted settings extent live i h
  recycled : ∀ i, place i = .free → liveBytes settings extent i = 0
  live : ∀ p, live p = extent p ∨ live p = 0
  inside : ∀ p, extent p ≠ 0 → ∃ i h, log.segHeaders i = some h ∧ place i ≠ .free ∧
    segData settings i ≤ p ∧ p + extent p ≤ segData settings i + h.offset
  freeLinks : IsChain log.nextFree none log.freeSegments (free.map some)
  freeNodup : free.Nodup
  mem_free : ∀ i, i ∈ free ↔ place i = .free
  owned : ∀ w ia, allocators w = some ia → Owned log place (chains w) w ia
  unowned : ∀ w, allocators w = none → ∀ i, place i ≠ .chain w ∧ place i ≠ .reserved w

/-- The items after an allocation that returned `it` or `NULL`. -/
def allocated (extent : ℕ → ℕ) (it total : ℕ) : ℕ → ℕ :=
  if it = 0 then extent else Function.update extent it total

/-- What is counted of a segment. -/
def SegmentHeader.counts (h : SegmentHeader) : ℕ × ℕ × ℕ := (h.offset, h.freed, h.size)

/-- The headers are the same but for their links and flags. -/
def SameCounts (log log' : Log) : Prop :=
  ∀ i, (log'.segHeaders i).map SegmentHeader.counts = (log.segHeaders i).map SegmentHeader.counts

/-! ## Addresses in segments -/

variable {settings : Settings} {log : Log} {allocators : ℕ → Option ItemAllocator}
  {chains : ℕ → List ℕ} {place : ℕ → Place} {free : List ℕ} {extent live : ℕ → ℕ} {i k p : ℕ}
  {h h' : SegmentHeader}

theorem segData_add_le (hik : i < k) :
    segData settings i + settings.segsize ≤ segData settings k := by
  have hmul := Nat.mul_le_mul_left settings.segsize (Nat.succ_le_of_lt hik)
  rw [Nat.mul_succ] at hmul
  unfold segData
  omega

/-- Segments do not overlap. -/
theorem segData_apart (settings : Settings) (hik : i ≠ k) :
    segData settings i + settings.segsize ≤ segData settings k ∨
      segData settings k + settings.segsize ≤ segData settings i := by
  rcases Nat.lt_or_gt_of_ne hik with hlt | hgt
  · exact .inl (segData_add_le hlt)
  · exact .inr (segData_add_le hgt)

theorem segData_bound (hi : i < settings.segmaxnum) :
    segData settings i + settings.segsize ≤ 2 ^ 64 := by
  have hmul := Nat.mul_le_mul_left settings.segsize (Nat.succ_le_of_lt hi)
  have hbound := settings.bound
  rw [Nat.mul_succ] at hmul
  unfold segData
  omega

/-- The segment of an address. -/
theorem segmentFromPart_eq (hlo : segData settings i ≤ p)
    (hhi : p < segData settings i + settings.segsize) (hi : i < settings.segmaxnum) :
    segmentFromPart settings log p = (log.segHeaders i).map fun h => (i, h) := by
  have hindex : (p - settings.segBase) / settings.segsize = i := by
    unfold segData at hlo hhi
    have hpos : 0 < settings.segsize := by omega
    refine (Nat.div_eq_iff hpos).mpr ⟨?_, ?_⟩
    · rw [Nat.mul_comm]
      omega
    · rw [Nat.mul_comm]
      omega
  simp only [segmentFromPart, hindex, if_pos hi]

/-! ## Counting live bytes -/

/-- Another extent for an address in the segment. -/
theorem liveBytes_update_self (extent : ℕ → ℕ) (hlo : segData settings i ≤ p)
    (hhi : p < segData settings i + settings.segsize) (size : ℕ) :
    liveBytes settings (Function.update extent p size) i + extent p =
      liveBytes settings extent i + size := by
  have hmem : p - segData settings i ∈ Finset.range settings.segsize :=
    Finset.mem_range.mpr (by omega)
  have hback : segData settings i + (p - segData settings i) = p := by omega
  unfold liveBytes
  rw [← Finset.add_sum_erase _ _ hmem, ← Finset.add_sum_erase _ _ hmem]
  have hrest : ∑ x ∈ (Finset.range settings.segsize).erase (p - segData settings i),
      Function.update extent p size (segData settings i + x) =
      ∑ x ∈ (Finset.range settings.segsize).erase (p - segData settings i),
        extent (segData settings i + x) := by
    refine Finset.sum_congr rfl fun x hx => Function.update_of_ne ?_ ..
    have hne := Finset.ne_of_mem_erase hx
    omega
  rw [hrest, hback, Function.update_self]
  omega

theorem liveBytes_update_other
    (hout : p < segData settings i ∨ segData settings i + settings.segsize ≤ p) (size : ℕ) :
    liveBytes settings (Function.update extent p size) i = liveBytes settings extent i := by
  refine Finset.sum_congr rfl fun x hx => Function.update_of_ne ?_ ..
  have hlt := Finset.mem_range.mp hx
  omega

theorem extent_le_liveBytes (extent : ℕ → ℕ) (hlo : segData settings i ≤ p)
    (hhi : p < segData settings i + settings.segsize) :
    extent p ≤ liveBytes settings extent i := by
  have hmem : p - segData settings i ∈ Finset.range settings.segsize :=
    Finset.mem_range.mpr (by omega)
  have hback : segData settings i + (p - segData settings i) = p := by omega
  have hle := Finset.single_le_sum (fun x _ => Nat.zero_le (extent (segData settings i + x))) hmem
  rw [hback] at hle
  exact hle

theorem setHeader_setHeader (log : Log) (i : ℕ) (h h' : SegmentHeader) :
    (log.setHeader i h).setHeader i h' = log.setHeader i h' := by
  unfold Log.setHeader
  dsimp only
  rw [Function.update_idem]

@[simp]
theorem segHeaders_setHeader_self (log : Log) (i : ℕ) (h : SegmentHeader) :
    (log.setHeader i h).segHeaders i = some h :=
  Function.update_self ..

theorem segHeaders_setHeader_of_ne (log : Log) (h : SegmentHeader) (hk : k ≠ i) :
    (log.setHeader i h).segHeaders k = log.segHeaders k :=
  Function.update_of_ne hk ..

theorem nextFree_setHeader_of_ne (log : Log) (h : SegmentHeader) (hk : k ≠ i) :
    (log.setHeader i h).nextFree (some k) = log.nextFree (some k) := by
  change ((log.setHeader i h).segHeaders k).bind _ = (log.segHeaders k).bind _
  rw [segHeaders_setHeader_of_ne log h hk]

@[simp]
theorem nextFree_setHeader_self (log : Log) (i : ℕ) (h : SegmentHeader) :
    (log.setHeader i h).nextFree (some i) = h.next := by
  change ((log.setHeader i h).segHeaders i).bind _ = _
  rw [segHeaders_setHeader_self]
  rfl

theorem nextFree_eq (hh : log.segHeaders i = some h) : log.nextFree (some i) = h.next := by
  change (log.segHeaders i).bind _ = _
  rw [hh]
  rfl

/-- Links that an assignment to a header leaves. -/
theorem nextFree_setHeader (hh : log.segHeaders i = some h) (hnext : h'.next = h.next)
    (node : Option ℕ) : (log.setHeader i h').nextFree node = log.nextFree node := by
  cases node with
  | none => rfl
  | some k =>
      rcases eq_or_ne k i with rfl | hne
      · rw [nextFree_setHeader_self, nextFree_eq hh, hnext]
      · exact nextFree_setHeader_of_ne log h' hne

theorem SameCounts.symm {log' : Log} (hsame : SameCounts log log') : SameCounts log' log :=
  fun k => (hsame k).symm

theorem SameCounts.trans {log₁ log₂ : Log} (h₁ : SameCounts log log₁) (h₂ : SameCounts log₁ log₂) :
    SameCounts log log₂ :=
  fun k => (h₂ k).trans (h₁ k)

theorem SameCounts.setHeader (hh : log.segHeaders i = some h) (hcounts : h'.counts = h.counts) :
    SameCounts log (log.setHeader i h') := by
  intro k
  rcases eq_or_ne k i with rfl | hne
  · rw [segHeaders_setHeader_self, hh, Option.map_some, Option.map_some, hcounts]
  · rw [segHeaders_setHeader_of_ne log h' hne]

theorem SameCounts.header {log' : Log} (hsame : SameCounts log log') {g : SegmentHeader}
    (hg : log'.segHeaders k = some g) : ∃ g', log.segHeaders k = some g' ∧
      g.offset = g'.offset ∧ g.freed = g'.freed ∧ g.size = g'.size := by
  have hk := hsame k
  rw [hg, Option.map_some] at hk
  obtain ⟨g', hg', hcounts⟩ := Option.map_eq_some_iff.mp hk.symm
  obtain ⟨hoffset, hrest⟩ := Prod.mk.inj hcounts
  obtain ⟨hfreed, hsize⟩ := Prod.mk.inj hrest
  exact ⟨g', hg', hoffset.symm, hfreed.symm, hsize.symm⟩

theorem SameCounts.eq_none_iff {log' : Log} (hsame : SameCounts log log') (k : ℕ) :
    log'.segHeaders k = none ↔ log.segHeaders k = none := by
  rw [← Option.map_eq_none_iff, hsame k, Option.map_eq_none_iff]

theorem Owned.cur_mem {w : ℕ} {ia : ItemAllocator} {chain : List ℕ}
    (howned : Owned log place chain w ia) : ia.cur ∈ chain := by
  obtain ⟨older, hchain⟩ := howned.last
  rw [hchain]
  exact List.mem_append_right _ List.mem_cons_self

/-- The segments of an allocator do not depend on the other headers and places. -/
theorem Owned.congr {log' : Log} {place' : ℕ → Place} {chain : List ℕ} {w : ℕ}
    {ia : ItemAllocator} (howned : Owned log place chain w ia)
    (hplace : ∀ i, (place' i = .chain w ↔ place i = .chain w) ∧
      (place' i = .reserved w ↔ place i = .reserved w))
    (hnext : ∀ i ∈ chain, log'.nextFree (some i) = log.nextFree (some i)) :
    Owned log' place' chain w ia := by
  refine ⟨howned.last, howned.nodup, fun i => ?_, ?_, fun i => ?_⟩
  · rw [howned.mem_iff, (hplace i).1]
  · refine howned.links.congr fun node hnode => ?_
    obtain ⟨i, hi, rfl⟩ := List.mem_map.mp hnode
    exact hnext i hi
  · rw [howned.reserved, (hplace i).2]

/-- The allocator goes on with the segment `i`, which is linked behind its current one. -/
theorem Owned.snoc {log' : Log} {chain : List ℕ} {w : ℕ} {ia : ItemAllocator}
    {reserved : Option ℕ} (howned : Owned log place chain w ia) (hnot : i ∉ chain)
    (hcur : log'.nextFree (some ia.cur) = some i) (hself : log'.nextFree (some i) = none)
    (hnext : ∀ k ∈ chain, k ≠ ia.cur → log'.nextFree (some k) = log.nextFree (some k))
    (hreserved : ∀ k, reserved = some k ↔ Function.update place i (.chain w) k = .reserved w) :
    Owned log' (Function.update place i (.chain w)) (chain ++ [i]) w ⟨reserved, i⟩ := by
  have hnodup := howned.nodup
  have hlinks := howned.links
  obtain ⟨older, holder⟩ := howned.last
  refine ⟨⟨chain, rfl⟩, ?_, fun k => ?_, ?_, hreserved⟩
  · rw [← List.concat_eq_append]
    exact List.Nodup.concat hnot hnodup
  · rw [List.mem_append, List.mem_singleton]
    rcases eq_or_ne k i with rfl | hki
    · rw [Function.update_self]
      exact ⟨fun _ => rfl, fun _ => .inr rfl⟩
    · rw [Function.update_of_ne hki, howned.mem_iff]
      exact ⟨fun hor => hor.resolve_right hki, .inl⟩
  · have hhead : (chain ++ [i]).head? = chain.head? := by
      rw [holder]
      cases older with
      | nil => rfl
      | cons first older => rfl
    rw [hhead]
    rw [holder, List.map_append] at hlinks ⊢
    rw [List.map_append]
    refine hlinks.snoc (Option.some_ne_none i) hcur hself fun node hnode => ?_
    obtain ⟨k, hk, rfl⟩ := List.mem_map.mp hnode
    refine hnext k (holder ▸ List.mem_append_left _ hk) ?_
    rintro rfl
    rw [holder] at hnodup
    exact (List.nodup_append.mp hnodup).2.2 _ hk _ List.mem_cons_self rfl

/-- The allocator goes on with a segment in hand, or with its reserved one. -/
theorem Owned.goOn {log' : Log} {chain : List ℕ} {w : ℕ} {ia : ItemAllocator}
    {reserved : Option ℕ} (howned : Owned log place chain w ia)
    (hfrom : place i = .hand ∧ reserved = ia.reserved ∨ place i = .reserved w ∧ reserved = none)
    (hcur : log'.nextFree (some ia.cur) = some i) (hself : log'.nextFree (some i) = none)
    (hnext : ∀ k, k ≠ i → k ≠ ia.cur → log'.nextFree (some k) = log.nextFree (some k)) :
    Owned log' (Function.update place i (.chain w)) (chain ++ [i]) w ⟨reserved, i⟩ := by
  have hnot : i ∉ chain := by
    intro hmem
    have hchain := (howned.mem_iff i).mp hmem
    rcases hfrom with ⟨hplace, _⟩ | ⟨hplace, _⟩
    · rw [hplace] at hchain
      cases hchain
    · rw [hplace] at hchain
      cases hchain
  refine howned.snoc hnot hcur hself (fun k hk hkc => hnext k (fun heq => hnot (heq ▸ hk)) hkc)
    fun k => ?_
  rcases eq_or_ne k i with rfl | hki
  · rw [Function.update_self]
    refine ⟨fun hres => ?_, nofun⟩
    rcases hfrom with ⟨hplace, rfl⟩ | ⟨_, rfl⟩
    · rw [(howned.reserved k).mp hres] at hplace
      cases hplace
    · cases hres
  · rw [Function.update_of_ne hki, ← howned.reserved k]
    rcases hfrom with ⟨_, rfl⟩ | ⟨hplace, rfl⟩
    · exact Iff.rfl
    · rw [(howned.reserved i).mpr hplace]
      exact ⟨nofun, fun heq => absurd (Option.some.inj heq).symm hki⟩

/-- A segment that comes from another place into the chain of `w` is not one of the
segments of another allocator. -/
theorem Owned.other {log' : Log} {chain : List ℕ} {v w : ℕ} {ia : ItemAllocator}
    (howned : Owned log place chain v ia) (hvw : v ≠ w) (hchain : place i ≠ .chain v)
    (hreserved : place i ≠ .reserved v)
    (hnext : ∀ k ∈ chain, log'.nextFree (some k) = log.nextFree (some k)) :
    Owned log' (Function.update place i (.chain w)) chain v ia := by
  refine howned.congr (fun k => ?_) hnext
  rcases eq_or_ne k i with rfl | hki
  · rw [Function.update_self]
    exact ⟨⟨fun heq => absurd (Place.chain.inj heq).symm hvw, fun heq => absurd heq hchain⟩,
      nofun, fun heq => absurd heq hreserved⟩
  · rw [Function.update_of_ne hki]
    exact ⟨Iff.rfl, Iff.rfl⟩

/-- What counts is what is allocated of a segment, what of it is freed, and its items. -/
theorem Counted.congr {extent' : ℕ → ℕ} {g : SegmentHeader}
    (hcounts : Counted settings extent live i h) (hoffset : g.offset = h.offset)
    (hfreed : g.freed = h.freed) (hsize : g.size = h.size)
    (hextent : liveBytes settings extent' i = liveBytes settings extent i) :
    Counted settings extent' live i g := by
  refine ⟨?_, ?_, ?_, ?_⟩
  · rw [hfreed, hoffset]
    exact hcounts.freed
  · rw [hoffset, hextent]
    exact hcounts.items
  · rw [hoffset, hsize, hextent]
    exact hcounts.tail
  · rw [hoffset, hsize]
    exact hcounts.bound

namespace LogInv

/-! ## What the invariant says -/

theorem size_le (hinv : LogInv settings log allocators chains place free extent live)
    (hh : log.segHeaders i = some h) : h.size ≤ settings.segsize := by
  rw [hinv.size i h hh]
  exact Nat.mod_le _ _

theorem size_lt (hinv : LogInv settings log allocators chains place free extent live)
    (hh : log.segHeaders i = some h) : h.size < 2 ^ 32 := by
  rw [hinv.size i h hh]
  exact Nat.mod_lt _ (Nat.two_pow_pos 32)

/-- The segment in which an item lies. -/
theorem inside_segment (hinv : LogInv settings log allocators chains place free extent live)
    (hp : extent p ≠ 0) : ∃ i h, log.segHeaders i = some h ∧ place i ≠ .free ∧
      segData settings i ≤ p ∧ p + extent p ≤ segData settings i + h.offset ∧
      segData settings i + h.offset ≤ segData settings i + settings.segsize := by
  obtain ⟨i, h, hh, hplace, hlo, hhi⟩ := hinv.inside p hp
  have hbound := (hinv.counts i h hh hplace).bound
  have hsize := hinv.size_le hh
  exact ⟨i, h, hh, hplace, hlo, hhi, by omega⟩

/-- An item lies in the allocated part of its segment. -/
theorem end_le (hinv : LogInv settings log allocators chains place free extent live)
    (hh : log.segHeaders i = some h) (hp : extent p ≠ 0)
    (hhi : p < segData settings i + settings.segsize) :
    p + extent p ≤ segData settings i + h.offset := by
  obtain ⟨k, h', hh', _, hlo', hhi', hend⟩ := hinv.inside_segment hp
  by_cases hik : i = k
  · subst hik
    rw [hh] at hh'
    rw [Option.some.inj hh']
    exact hhi'
  · rcases segData_apart settings hik with hapart | hapart
    · omega
    · omega

/-- The segment of an item. -/
theorem segmentFromPart_isSome (hinv : LogInv settings log allocators chains place free extent live)
    (hp : extent p ≠ 0) : ∃ i h, segmentFromPart settings log p = some (i, h) ∧
      log.segHeaders i = some h ∧ place i ≠ .free ∧ segData settings i ≤ p ∧
      p < segData settings i + settings.segsize := by
  obtain ⟨i, h, hh, hplace, hlo, hhi, hend⟩ := hinv.inside_segment hp
  have hhi' : p < segData settings i + settings.segsize := by omega
  refine ⟨i, h, ?_, hh, hplace, hlo, hhi'⟩
  rw [segmentFromPart_eq hlo hhi' (hinv.index i h hh).1, hh]
  rfl

theorem live_le (hinv : LogInv settings log allocators chains place free extent live) (p : ℕ) :
    live p ≤ extent p := by
  rcases hinv.live p with heq | hzero
  · omega
  · omega

theorem liveBytes_le (hinv : LogInv settings log allocators chains place free extent live)
    (i : ℕ) : liveBytes settings live i ≤ liveBytes settings extent i :=
  Finset.sum_le_sum fun _ _ => hinv.live_le _

/-- A segment that is counted as freed entirely has no live items. -/
theorem liveBytes_eq_zero (hinv : LogInv settings log allocators chains place free extent live)
    (hh : log.segHeaders i = some h) (hplace : place i ≠ .free) (hfreed : h.freed = h.size) :
    liveBytes settings live i = 0 := by
  have hcounts := hinv.counts i h hh hplace
  have hsum := hcounts.freed
  have hbound := hcounts.bound
  omega

/-- The current segment of an allocator. -/
theorem cur_header (hinv : LogInv settings log allocators chains place free extent live) {w : ℕ}
    {ia : ItemAllocator} (hw : allocators w = some ia) :
    place ia.cur = .chain w ∧ ∃ h, log.segHeaders ia.cur = some h := by
  have howned := hinv.owned w ia hw
  have hplace := (howned.mem_iff ia.cur).mp howned.cur_mem
  refine ⟨hplace, Option.ne_none_iff_exists'.mp fun hnone => ?_⟩
  rw [(hinv.placed ia.cur).mpr hnone] at hplace
  cases hplace

/-! ## Changing a header -/

/-- More of a segment is used up, or it is used again. -/
theorem setHeader (hinv : LogInv settings log allocators chains place free extent live)
    (hh : log.segHeaders i = some h) (hplace : place i ≠ .free) (hsize : h'.size = h.size)
    (hnext : h'.next = h.next ∨ place i = .hand)
    (hoffset : h.offset ≤ h'.offset ∨ liveBytes settings extent i = 0)
    (hcounts : Counted settings extent live i h') :
    LogInv settings (log.setHeader i h') allocators chains place free extent live := by
  have hcases : ∀ k g, (log.setHeader i h').segHeaders k = some g →
      (k = i ∧ g = h') ∨ (k ≠ i ∧ log.segHeaders k = some g) := by
    intro k g hg
    rcases eq_or_ne k i with rfl | hne
    · rw [segHeaders_setHeader_self] at hg
      exact .inl ⟨rfl, (Option.some.inj hg).symm⟩
    · rw [segHeaders_setHeader_of_ne log h' hne] at hg
      exact .inr ⟨hne, hg⟩
  -- a segment in hand is in no list
  have hlinks : ∀ k, place k ≠ .hand →
      (log.setHeader i h').nextFree (some k) = log.nextFree (some k) := by
    intro k hk
    rcases hnext with hnext | hhand
    · exact nextFree_setHeader hh hnext (some k)
    · refine nextFree_setHeader_of_ne log h' ?_
      rintro rfl
      exact hk hhand
  refine { hinv with
    index := fun k g hg => ?_, size := fun k g hg => ?_, placed := fun k => ?_,
    counts := fun k g hg hk => ?_, inside := fun p hp => ?_,
    freeLinks := hinv.freeLinks.congr fun node hnode => ?_,
    owned := fun w ia hw => (hinv.owned w ia hw).congr (fun _ => ⟨Iff.rfl, Iff.rfl⟩)
      fun k hk => hlinks k ?_ }
  · rcases hcases k g hg with ⟨rfl, rfl⟩ | ⟨_, hg⟩
    · exact hinv.index k h hh
    · exact hinv.index k g hg
  · rcases hcases k g hg with ⟨rfl, rfl⟩ | ⟨_, hg⟩
    · rw [hsize]
      exact hinv.size k h hh
    · exact hinv.size k g hg
  · rw [hinv.placed k]
    rcases eq_or_ne k i with rfl | hne
    · rw [segHeaders_setHeader_self, hh]
      exact ⟨nofun, nofun⟩
    · rw [segHeaders_setHeader_of_ne log h' hne]
  · rcases hcases k g hg with ⟨rfl, rfl⟩ | ⟨_, hg⟩
    · exact hcounts
    · exact hinv.counts k g hg hk
  · obtain ⟨k, g, hg, hk, hlo, hhi, hend⟩ := hinv.inside_segment hp
    rcases eq_or_ne k i with rfl | hne
    · rw [hh] at hg
      obtain rfl := Option.some.inj hg
      refine ⟨k, h', segHeaders_setHeader_self .., hk, hlo, ?_⟩
      rcases hoffset with hle | hzero
      · omega
      · have hlive := extent_le_liveBytes extent hlo (show p < _ by omega)
        omega
    · exact ⟨k, g, (segHeaders_setHeader_of_ne log h' hne).trans hg, hk, hlo, hhi⟩
  · obtain ⟨k, hk, rfl⟩ := List.mem_map.mp hnode
    refine hlinks k ?_
    rw [(hinv.mem_free k).mp hk]
    nofun
  · rw [((hinv.owned w ia hw).mem_iff k).mp hk]
    nofun

/-! ## Changing the items -/

/-- Where an item can be, with or without the bytes of another one. -/
theorem liveBytes_update (extent : ℕ → ℕ) (size : ℕ) (hlo : segData settings i ≤ p)
    (hhi : p < segData settings i + settings.segsize) (hk : k ≠ i) :
    liveBytes settings (Function.update extent p size) k = liveBytes settings extent k := by
  refine liveBytes_update_other ?_ size
  rcases segData_apart settings hk with hapart | hapart
  · omega
  · omega

/-- An item is placed behind the others of its segment. -/
theorem place_item (hinv : LogInv settings log allocators chains place free extent live)
    (hh : log.segHeaders i = some h) (hplace : place i ≠ .free) {total : ℕ}
    (htotal : h.offset + total ≤ h.size) (hpos : 0 < total) :
    LogInv settings (log.setHeader i { h with offset := h.offset + total }) allocators chains place
      free (Function.update extent (segData settings i + h.offset) total)
      (Function.update live (segData settings i + h.offset) total) := by
  have hsize := hinv.size_le hh
  have hold := hinv.counts i h hh hplace
  have hfull : liveBytes settings extent i = h.offset := by
    by_contra hne
    have hretired := hold.tail hne
    omega
  have hlo : segData settings i ≤ segData settings i + h.offset := Nat.le_add_right ..
  have hhi : segData settings i + h.offset < segData settings i + settings.segsize := by omega
  have hzero : extent (segData settings i + h.offset) = 0 := by
    by_contra hne
    have hend := hinv.end_le hh hne hhi
    omega
  have hzeroLive : live (segData settings i + h.offset) = 0 := by
    have hle := hinv.live_le (segData settings i + h.offset)
    omega
  have hbytes := liveBytes_update_self extent hlo hhi total
  have hbytesLive := liveBytes_update_self live hlo hhi total
  have hfreed := hold.freed
  have hother : ∀ k, k ≠ i → ∀ f : ℕ → ℕ, liveBytes settings
      (Function.update f (segData settings i + h.offset) total) k = liveBytes settings f k :=
    fun k hk f => liveBytes_update f total hlo hhi hk
  have hcases : ∀ k g, (log.setHeader i { h with offset := h.offset + total }).segHeaders k =
      some g → (k = i ∧ g = { h with offset := h.offset + total }) ∨
        (k ≠ i ∧ log.segHeaders k = some g) := by
    intro k g hg
    rcases eq_or_ne k i with rfl | hne
    · rw [segHeaders_setHeader_self] at hg
      exact .inl ⟨rfl, (Option.some.inj hg).symm⟩
    · rw [segHeaders_setHeader_of_ne _ _ hne] at hg
      exact .inr ⟨hne, hg⟩
  have hnext : ∀ node, (log.setHeader i { h with offset := h.offset + total }).nextFree node =
      log.nextFree node := nextFree_setHeader hh rfl
  refine { hinv with
    index := fun k g hg => ?_, size := fun k g hg => ?_, placed := fun k => ?_,
    counts := fun k g hg hk => ?_, recycled := fun k hk => ?_, live := fun p => ?_,
    inside := fun p hp => ?_,
    freeLinks := hinv.freeLinks.congr fun node _ => hnext node,
    owned := fun w ia hw => (hinv.owned w ia hw).congr (fun _ => ⟨Iff.rfl, Iff.rfl⟩)
      fun k _ => hnext (some k) }
  · rcases hcases k g hg with ⟨rfl, rfl⟩ | ⟨_, hg⟩
    · exact hinv.index k h hh
    · exact hinv.index k g hg
  · rcases hcases k g hg with ⟨rfl, rfl⟩ | ⟨_, hg⟩
    · exact hinv.size k h hh
    · exact hinv.size k g hg
  · rw [hinv.placed k]
    rcases eq_or_ne k i with rfl | hne
    · rw [segHeaders_setHeader_self, hh]
      exact ⟨nofun, nofun⟩
    · rw [segHeaders_setHeader_of_ne _ _ hne]
  · rcases hcases k g hg with ⟨rfl, rfl⟩ | ⟨hne, hg⟩
    · refine ⟨?_, ?_, fun hne => ?_, htotal⟩
      · dsimp only
        omega
      · dsimp only
        omega
      · dsimp only at hne
        omega
    · have hkept := hinv.counts k g hg hk
      refine ⟨?_, ?_, ?_, hkept.bound⟩
      · rw [hother k hne]
        exact hkept.freed
      · rw [hother k hne]
        exact hkept.items
      · rw [hother k hne]
        exact hkept.tail
  · have hne : k ≠ i := by
      rintro rfl
      exact hplace hk
    rw [hother k hne]
    exact hinv.recycled k hk
  · rcases eq_or_ne p (segData settings i + h.offset) with rfl | hne
    · rw [Function.update_self, Function.update_self]
      exact .inl rfl
    · rw [Function.update_of_ne hne, Function.update_of_ne hne]
      exact hinv.live p
  · rcases eq_or_ne p (segData settings i + h.offset) with rfl | hne
    · rw [Function.update_self]
      refine ⟨i, _, segHeaders_setHeader_self .., hplace, hlo, ?_⟩
      dsimp only
      omega
    · rw [Function.update_of_ne hne] at hp ⊢
      obtain ⟨k, g, hg, hk, hlo', hhi'⟩ := hinv.inside p hp
      rcases eq_or_ne k i with rfl | hki
      · rw [hh] at hg
        obtain rfl := Option.some.inj hg
        refine ⟨k, _, segHeaders_setHeader_self .., hk, hlo', ?_⟩
        dsimp only
        omega
      · exact ⟨k, g, (segHeaders_setHeader_of_ne _ _ hki).trans hg, hk, hlo', hhi'⟩

/-- The place behind the others of a segment belongs to no other item. -/
theorem room (hinv : LogInv settings log allocators chains place free extent live)
    (hh : log.segHeaders i = some h) {total : ℕ} (htotal : h.offset + total ≤ h.size)
    (hne : segData settings i + h.offset ≠ 0) :
    Laid.Room extent (segData settings i + h.offset) total := by
  have hsize := hinv.size_le hh
  have hbound := segData_bound (hinv.index i h hh).1
  refine ⟨hne, by omega, fun q hq => ?_⟩
  obtain ⟨k, h', hh', _, hlo, hhi, hend⟩ := hinv.inside_segment hq
  by_cases hik : k = i
  · subst hik
    rw [hh] at hh'
    rw [← Option.some.inj hh'] at hhi
    exact .inr hhi
  · rcases segData_apart settings hik with hapart | hapart
    · omega
    · omega

/-- An item is freed with all its bytes. -/
theorem remove (hinv : LogInv settings log allocators chains place free extent live)
    (hp : live p ≠ 0) {total : ℕ} (htotal : total = live p) :
    ∃ log', iallocFree settings log p total = some log' ∧
      LogInv settings log' allocators chains place free extent (Function.update live p 0) := by
  have hextent : live p = extent p := (hinv.live p).resolve_right hp
  obtain ⟨i, h, hpart, hh, hplace, hlo, hhi⟩ := hinv.segmentFromPart_isSome (hextent ▸ hp)
  refine ⟨log.setHeader i (segmentItemFree h total), ?_, ?_⟩
  · rw [iallocFree, hpart]
    rfl
  have hold := hinv.counts i h hh hplace
  have hlt := hinv.size_lt hh
  have hlive := extent_le_liveBytes live hlo hhi
  have hbytes := liveBytes_update_self live hlo hhi 0
  have hsum := hold.freed
  have hbound := hold.bound
  have hfreed : (h.freed + total) % 2 ^ 32 = h.freed + total := Nat.mod_eq_of_lt (by omega)
  have hcounts : Counted settings extent (Function.update live p 0) i (segmentItemFree h total) := by
    refine ⟨?_, hold.items, hold.tail, hold.bound⟩
    change (h.freed + total) % 2 ^ 32 + _ = h.offset
    rw [hfreed]
    omega
  have hcases : ∀ k g, (log.setHeader i (segmentItemFree h total)).segHeaders k = some g →
      (k = i ∧ g = segmentItemFree h total) ∨ (k ≠ i ∧ log.segHeaders k = some g) := by
    intro k g hg
    rcases eq_or_ne k i with rfl | hne
    · rw [segHeaders_setHeader_self] at hg
      exact .inl ⟨rfl, (Option.some.inj hg).symm⟩
    · rw [segHeaders_setHeader_of_ne _ _ hne] at hg
      exact .inr ⟨hne, hg⟩
  have hnext : ∀ node, (log.setHeader i (segmentItemFree h total)).nextFree node =
      log.nextFree node := nextFree_setHeader hh rfl
  refine { hinv with
    index := fun k g hg => ?_, size := fun k g hg => ?_, placed := fun k => ?_,
    counts := fun k g hg hk => ?_, live := fun q => ?_,
    inside := fun q hq => ?_,
    freeLinks := hinv.freeLinks.congr fun node _ => hnext node,
    owned := fun w ia hw => (hinv.owned w ia hw).congr (fun _ => ⟨Iff.rfl, Iff.rfl⟩)
      fun k _ => hnext (some k) }
  · rcases hcases k g hg with ⟨rfl, rfl⟩ | ⟨_, hg⟩
    · exact hinv.index k h hh
    · exact hinv.index k g hg
  · rcases hcases k g hg with ⟨rfl, rfl⟩ | ⟨_, hg⟩
    · exact hinv.size k h hh
    · exact hinv.size k g hg
  · rw [hinv.placed k]
    rcases eq_or_ne k i with rfl | hne
    · rw [segHeaders_setHeader_self, hh]
      exact ⟨nofun, nofun⟩
    · rw [segHeaders_setHeader_of_ne _ _ hne]
  · rcases hcases k g hg with ⟨rfl, rfl⟩ | ⟨hne, hg⟩
    · exact hcounts
    · have hkept := hinv.counts k g hg hk
      refine ⟨?_, hkept.items, hkept.tail, hkept.bound⟩
      rw [liveBytes_update live 0 hlo hhi hne]
      exact hkept.freed
  · rcases eq_or_ne q p with rfl | hne
    · rw [Function.update_self]
      exact .inr rfl
    · rw [Function.update_of_ne hne]
      exact hinv.live q
  · obtain ⟨k, g, hg, hk, hlo', hhi'⟩ := hinv.inside q hq
    rcases eq_or_ne k i with rfl | hki
    · rw [hh] at hg
      obtain rfl := Option.some.inj hg
      exact ⟨k, _, segHeaders_setHeader_self .., hk, hlo', hhi'⟩
    · exact ⟨k, g, (segHeaders_setHeader_of_ne _ _ hki).trans hg, hk, hlo', hhi'⟩

/-! ## Allocating a segment -/

/-- The segments of the allocators after another segment has been taken in hand. -/
theorem owned_hand (hinv : LogInv settings log allocators chains place free extent live)
    (hplace : place i = .free ∨ place i = .unallocated) {log' : Log}
    (hnext : ∀ k, k ≠ i → log'.nextFree (some k) = log.nextFree (some k)) (w : ℕ)
    (ia : ItemAllocator) (hw : allocators w = some ia) :
    Owned log' (Function.update place i .hand) (chains w) w ia := by
  have howned := hinv.owned w ia hw
  refine howned.congr (fun k => ?_) fun k hk => hnext k ?_
  · rcases eq_or_ne k i with rfl | hne
    · rw [Function.update_self]
      rcases hplace with hfree | hun
      · rw [hfree]
        exact ⟨⟨nofun, nofun⟩, nofun, nofun⟩
      · rw [hun]
        exact ⟨⟨nofun, nofun⟩, nofun, nofun⟩
    · rw [Function.update_of_ne hne]
      exact ⟨Iff.rfl, Iff.rfl⟩
  · rintro rfl
    rw [(howned.mem_iff k).mp hk] at hplace
    rcases hplace with hplace | hplace
    · cases hplace
    · cases hplace

theorem unowned_hand (hinv : LogInv settings log allocators chains place free extent live) (i w : ℕ)
    (hw : allocators w = none) (k : ℕ) : Function.update place i .hand k ≠ .chain w ∧
      Function.update place i .hand k ≠ .reserved w := by
  rcases eq_or_ne k i with rfl | hne
  · rw [Function.update_self]
    exact ⟨nofun, nofun⟩
  · rw [Function.update_of_ne hne]
    exact hinv.unowned w hw k

/-- A segment without items of which nothing has been allocated. -/
theorem counted_init {size : ℕ} (hinv : LogInv settings log allocators chains place free extent live)
    (hzero : liveBytes settings extent i = 0) (hh : h.offset = 0 ∧ h.freed = 0 ∧ h.size = size) :
    Counted settings extent live i h := by
  obtain ⟨hoffset, hfreed, _⟩ := hh
  have hle := hinv.liveBytes_le i
  refine ⟨?_, ?_, fun hne => ?_, ?_⟩
  · omega
  · omega
  · omega
  · omega

/-- A segment from the list of free ones. -/
theorem pop (hinv : LogInv settings log allocators chains place free extent live)
    (hi : log.freeSegments = some i) (hh : log.segHeaders i = some h) :
    place i = .free ∧ ∃ free', LogInv settings ({ log with freeSegments := h.next }.setHeader i h.init)
      allocators chains (Function.update place i .hand) free' extent live := by
  cases free with
  | nil =>
      have hnone := hinv.freeLinks
      rw [hi] at hnone
      exact absurd hnone (Option.some_ne_none i)
  | cons first free =>
      obtain ⟨hfirst, _, hchain⟩ := hinv.freeLinks
      rw [hi] at hfirst
      obtain rfl := Option.some.inj hfirst
      obtain ⟨hnot, hnodup⟩ := List.nodup_cons.mp hinv.freeNodup
      have hplace : place i = .free := (hinv.mem_free i).mp List.mem_cons_self
      have hzero := hinv.recycled i hplace
      have hcases : ∀ k g, ({ log with freeSegments := h.next }.setHeader i h.init).segHeaders k =
          some g → (k = i ∧ g = h.init) ∨ (k ≠ i ∧ log.segHeaders k = some g) := by
        intro k g hg
        rcases eq_or_ne k i with rfl | hne
        · rw [segHeaders_setHeader_self] at hg
          exact .inl ⟨rfl, (Option.some.inj hg).symm⟩
        · rw [segHeaders_setHeader_of_ne _ _ hne] at hg
          exact .inr ⟨hne, hg⟩
      have hkept : ∀ k, k ≠ i → ({ log with freeSegments := h.next }.setHeader i
          h.init).segHeaders k = log.segHeaders k :=
        fun k hne => segHeaders_setHeader_of_ne _ _ hne
      have hnext : ∀ k, ({ log with freeSegments := h.next }.setHeader i h.init).nextFree (some k) =
          log.nextFree (some k) := by
        intro k
        rcases eq_or_ne k i with rfl | hne
        · rw [nextFree_setHeader_self, nextFree_eq hh]
          rfl
        · exact nextFree_setHeader_of_ne _ _ hne
      refine ⟨hplace, free, fun k g hg => ?_, fun k g hg => ?_, fun k => ?_, fun k g hg hk => ?_,
        fun k hk => ?_, hinv.live, fun p hp => ?_, ?_, hnodup, fun k => ?_,
        hinv.owned_hand (.inl hplace) fun k _ => hnext k, fun w hw => hinv.unowned_hand i w hw⟩
      · rcases hcases k g hg with ⟨rfl, rfl⟩ | ⟨_, hg⟩
        · exact hinv.index k h hh
        · exact hinv.index k g hg
      · rcases hcases k g hg with ⟨rfl, rfl⟩ | ⟨_, hg⟩
        · exact hinv.size k h hh
        · exact hinv.size k g hg
      · rcases eq_or_ne k i with rfl | hne
        · rw [Function.update_self, segHeaders_setHeader_self]
          exact ⟨nofun, nofun⟩
        · rw [Function.update_of_ne hne, hkept k hne]
          exact hinv.placed k
      · rcases hcases k g hg with ⟨rfl, rfl⟩ | ⟨hne, hg⟩
        · exact hinv.counted_init hzero ⟨rfl, rfl, rfl⟩
        · rw [Function.update_of_ne hne] at hk
          exact hinv.counts k g hg hk
      · rcases eq_or_ne k i with rfl | hne
        · exact hzero
        · rw [Function.update_of_ne hne] at hk
          exact hinv.recycled k hk
      · obtain ⟨k, g, hg, hk, hrest⟩ := hinv.inside p hp
        have hne : k ≠ i := by
          rintro rfl
          exact hk hplace
        refine ⟨k, g, (hkept k hne).trans hg, ?_, hrest⟩
        rw [Function.update_of_ne hne]
        exact hk
      · rw [nextFree_eq hh] at hchain
        refine IsChain.congr hchain fun node hnode => ?_
        obtain ⟨k, _, rfl⟩ := List.mem_map.mp hnode
        exact hnext k
      · rcases eq_or_ne k i with rfl | hne
        · rw [Function.update_self]
          exact ⟨fun hmem => absurd hmem hnot, nofun⟩
        · rw [Function.update_of_ne hne, ← hinv.mem_free k, List.mem_cons]
          exact ⟨.inr, fun hmem => hmem.resolve_left hne⟩

/-- A segment that has not been used before. -/
theorem install (hinv : LogInv settings log allocators chains place free extent live)
    (hi : log.segAlloced < settings.segmaxnum) :
    place log.segAlloced = .unallocated ∧
      LogInv settings ({ log with segAlloced := log.segAlloced + 1 }.setHeader log.segAlloced
        ⟨none, 0, 0, settings.segsize % 2 ^ 32, false⟩) allocators chains
        (Function.update place log.segAlloced .hand) free extent live := by
  have hnone : log.segHeaders log.segAlloced = none := by
    by_contra hne
    obtain ⟨h, hh⟩ := Option.ne_none_iff_exists'.mp hne
    exact absurd (hinv.index _ h hh).2 (Nat.lt_irrefl _)
  have hplace := (hinv.placed _).mpr hnone
  refine ⟨hplace, ?_⟩
  generalize hlog : { log with segAlloced := log.segAlloced + 1 }.setHeader log.segAlloced
    ⟨none, 0, 0, settings.segsize % 2 ^ 32, false⟩ = log'
  have hself : log'.segHeaders log.segAlloced =
      some ⟨none, 0, 0, settings.segsize % 2 ^ 32, false⟩ := by
    rw [← hlog, segHeaders_setHeader_self]
  have hother : ∀ k, k ≠ log.segAlloced → log'.segHeaders k = log.segHeaders k := by
    intro k hk
    rw [← hlog, segHeaders_setHeader_of_ne _ _ hk]
  have hfreeSegments : log'.freeSegments = log.freeSegments := by rw [← hlog]; rfl
  have halloced : log'.segAlloced = log.segAlloced + 1 := by rw [← hlog]; rfl
  have hnext : ∀ k, k ≠ log.segAlloced → log'.nextFree (some k) = log.nextFree (some k) := by
    intro k hk
    rw [← hlog, nextFree_setHeader_of_ne _ _ hk]
    rfl
  clear hlog
  have hne : ∀ k h, log.segHeaders k = some h → k ≠ log.segAlloced :=
    fun k h hh => Nat.ne_of_lt (hinv.index k h hh).2
  have hzero : liveBytes settings extent log.segAlloced = 0 := by
    refine Finset.sum_eq_zero fun x hx => ?_
    by_contra hlive
    obtain ⟨k, h, hh, _, hlo, hhi, hend⟩ := hinv.inside_segment hlive
    have hlt := Finset.mem_range.mp hx
    rcases segData_apart settings (hne k h hh) with hapart | hapart
    · omega
    · omega
  have hnot : log.segAlloced ∉ free := by
    intro hmem
    rw [hinv.mem_free, hplace] at hmem
    cases hmem
  refine ⟨fun k h hh => ?_, fun k h hh => ?_, fun k => ?_, fun k h hh hk => ?_, fun k hk => ?_,
    hinv.live, fun p hp => ?_, ?_, hinv.freeNodup, fun k => ?_, hinv.owned_hand (.inr hplace) hnext,
    fun w hw => hinv.unowned_hand _ w hw⟩
  · rcases eq_or_ne k log.segAlloced with rfl | hk
    · omega
    · rw [hother k hk] at hh
      have hindex := hinv.index k h hh
      omega
  · rcases eq_or_ne k log.segAlloced with rfl | hk
    · rw [hself] at hh
      rw [← Option.some.inj hh]
    · rw [hother k hk] at hh
      exact hinv.size k h hh
  · rcases eq_or_ne k log.segAlloced with rfl | hk
    · rw [Function.update_self, hself]
      exact ⟨nofun, nofun⟩
    · rw [Function.update_of_ne hk, hother k hk]
      exact hinv.placed k
  · rcases eq_or_ne k log.segAlloced with rfl | hkNe
    · rw [hself] at hh
      obtain rfl := Option.some.inj hh
      exact hinv.counted_init hzero ⟨rfl, rfl, rfl⟩
    · rw [hother k hkNe] at hh
      rw [Function.update_of_ne hkNe] at hk
      exact hinv.counts k h hh hk
  · rcases eq_or_ne k log.segAlloced with rfl | hkNe
    · exact hzero
    · rw [Function.update_of_ne hkNe] at hk
      exact hinv.recycled k hk
  · obtain ⟨k, h, hh, hk, hrest⟩ := hinv.inside p hp
    have hkNe := hne k h hh
    refine ⟨k, h, (hother k hkNe).trans hh, ?_, hrest⟩
    rw [Function.update_of_ne hkNe]
    exact hk
  · rw [hfreeSegments]
    refine hinv.freeLinks.congr fun node hnode => ?_
    obtain ⟨k, hk, rfl⟩ := List.mem_map.mp hnode
    refine hnext k ?_
    rintro rfl
    exact hnot hk
  · rcases eq_or_ne k log.segAlloced with rfl | hkNe
    · rw [Function.update_self]
      exact ⟨fun hmem => absurd hmem hnot, nofun⟩
    · rw [Function.update_of_ne hkNe]
      exact hinv.mem_free k

/-- `segment_alloc` takes a segment without items in hand, or returns `NULL`. -/
theorem segmentAlloc (hinv : LogInv settings log allocators chains place free extent live)
    {mapped : Bool} {log' : Log} {result : Option ℕ}
    (halloc : segmentAlloc settings log mapped = (log', result)) :
    (∀ k, result ≠ some k → log'.segHeaders k = log.segHeaders k) ∧
      ((result = none ∧ LogInv settings log' allocators chains place free extent live) ∨
        ∃ i free', result = some i ∧ (place i = .free ∨ place i = .unallocated) ∧
          LogInv settings log' allocators chains (Function.update place i .hand) free' extent
            live) := by
  unfold Flexkvs.segmentAlloc at halloc
  split at halloc
  · rename_i i h hfirst
    obtain ⟨k, hk, hmap⟩ := Option.bind_eq_some_iff.mp hfirst
    obtain ⟨g, hg, hpair⟩ := Option.map_eq_some_iff.mp hmap
    obtain ⟨rfl, rfl⟩ := Prod.mk.inj hpair
    obtain ⟨rfl, rfl⟩ := Prod.mk.inj halloc
    obtain ⟨hplace, free', hlog⟩ := hinv.pop hk hg
    refine ⟨fun l hl => ?_, .inr ⟨k, free', rfl, .inl hplace, hlog⟩⟩
    exact segHeaders_setHeader_of_ne _ _ fun heq => hl (congrArg some heq.symm)
  · split at halloc
    · obtain ⟨rfl, rfl⟩ := Prod.mk.inj halloc
      exact ⟨fun _ _ => rfl, .inl ⟨rfl, hinv⟩⟩
    · rename_i hroom
      obtain ⟨hplace, hlog⟩ := hinv.install (Nat.lt_of_not_le hroom)
      dsimp only at halloc
      split at halloc
      · obtain ⟨rfl, rfl⟩ := Prod.mk.inj halloc
        refine ⟨fun l hl => ?_, .inr ⟨_, free, rfl, .inr hplace, hlog⟩⟩
        exact segHeaders_setHeader_of_ne _ _ fun heq => hl (congrArg some heq.symm)
      · -- the segment is lost
        obtain ⟨rfl, rfl⟩ := Prod.mk.inj halloc
        refine ⟨fun _ _ => rfl, .inl ⟨rfl, { hinv with
          index := fun i h hh => ?_
          freeLinks := hinv.freeLinks.congr fun _ _ => rfl
          owned := fun w ia hw => (hinv.owned w ia hw).congr (fun _ => ⟨Iff.rfl, Iff.rfl⟩)
            fun _ _ => rfl }⟩⟩
        have hindex := hinv.index i h hh
        dsimp only
        omega

/-! ## Allocating an item -/

/-- What an allocation in a segment comes to: an item behind the others, or a
segment without room. -/
inductive ItemAllocated (settings : Settings) (m : Memory) (extent live : ℕ → ℕ) (i : ℕ)
    (h : SegmentHeader) (total : ℕ) : Memory × SegmentHeader × Option ℕ → Prop
  | placed (hroom : h.offset + total ≤ h.size) :
      ItemAllocated settings m extent live i h total
        (setRefcount m (segData settings i + h.offset) 1, { h with offset := h.offset + total },
          some (segData settings i + h.offset))
  | full (m' : Memory) (h' : SegmentHeader) (hsize : h'.size = h.size) (hnext : h'.next = h.next)
      (hoffset : h.offset ≤ h'.offset) (hcounts : Counted settings extent live i h')
      (hagree : ∀ q, extent q ≠ 0 → Memory.AgreeOn m m' q (q + extent q)) :
      ItemAllocated settings m extent live i h total (m', h', none)

/-- The filler of a retired tail is apart from the items. -/
theorem agree_filler (hinv : LogInv settings log allocators chains place free extent live)
    (hh : log.segHeaders i = some h) {p : ℕ} (hp : extent p ≠ 0)
    (havail : h.offset + sizeofItem ≤ h.size) (m : Memory) (keylen vallen : ℕ) :
    Memory.AgreeOn m
      (setVallen (setKeylen (setRefcount m (segData settings i + h.offset) 0)
        (segData settings i + h.offset) keylen) (segData settings i + h.offset) vallen)
      p (p + extent p) := by
  have hsize := hinv.size_le hh
  have hheader : sizeofItem = 24 := rfl
  obtain ⟨k, h', hh', _, hlo, hhi, hend⟩ := hinv.inside_segment hp
  have hapart : p + extent p ≤ segData settings i + h.offset ∨
      segData settings i + h.offset + sizeofItem ≤ p := by
    by_cases hik : k = i
    · subst hik
      rw [hh] at hh'
      rw [← Option.some.inj hh'] at hhi
      exact .inl hhi
    · rcases segData_apart settings hik with hapart | hapart
      · omega
      · omega
  exact ((Memory.agreeOn_store (by omega)).trans (Memory.agreeOn_store (by omega))).trans
    (Memory.agreeOn_store (by omega))

theorem segmentItemAlloc (hinv : LogInv settings log allocators chains place free extent live)
    (hh : log.segHeaders i = some h) (hplace : place i ≠ .free) (m : Memory) (total : ℕ) :
    ItemAllocated settings m extent live i h total (segmentItemAlloc settings m i h total) := by
  have hcounts := hinv.counts i h hh hplace
  have hbound := hcounts.bound
  have hsum := hcounts.freed
  have hitems := hcounts.items
  have hlt := hinv.size_lt hh
  have havail : h.avail = h.size - h.offset := by
    unfold SegmentHeader.avail
    omega
  unfold Flexkvs.segmentItemAlloc
  dsimp only
  rw [havail]
  split
  · exact .full m h rfl rfl le_rfl hcounts fun q _ => Memory.AgreeOn.refl m _ _
  · split
    · refine .full _ _ rfl rfl ?_ ⟨?_, ?_, fun _ => ?_, ?_⟩ fun q hq => ?_
      · dsimp only [segmentItemFree]
        omega
      · dsimp only [segmentItemFree]
        omega
      · dsimp only [segmentItemFree]
        omega
      · dsimp only [segmentItemFree]
        omega
      · dsimp only [segmentItemFree]
        omega
      · split
        · exact hinv.agree_filler hh hq (by omega) m _ _
        · exact Memory.AgreeOn.refl m _ _
    · have hmod : (h.offset + total) % 2 ^ 32 = h.offset + total := Nat.mod_eq_of_lt (by omega)
      rw [hmod]
      exact .placed (by omega)

theorem allocated_of_ne {it total : ℕ} (hit : it ≠ 0) :
    allocated extent it total = Function.update extent it total := if_neg hit

/-- What an allocation does to memory: it has taken a reference on the new item,
and left all others alone. -/
structure Fetched (m m' : Memory) (extent : ℕ → ℕ) (it total : ℕ) : Prop where
  others : ∀ q, extent q ≠ 0 → Memory.AgreeOn m m' q (q + extent q)
  item : it ≠ 0 → Laid.Room extent it total ∧ ∃ middle, m' = setRefcount middle it 1 ∧
    ∀ q, extent q ≠ 0 → Memory.AgreeOn m middle q (q + extent q)

/-- A reference on an item in a place of its own. -/
theorem fetched_setRefcount {m middle : Memory} {total it : ℕ}
    (hagree : ∀ q, extent q ≠ 0 → Memory.AgreeOn m middle q (q + extent q))
    (hroom : Laid.Room extent it total) (hsize : sizeofItem ≤ total) :
    Fetched m (setRefcount middle it 1) extent it total := by
  refine ⟨fun q hq => (hagree q hq).trans (agreeOn_setRefcount ?_),
    fun _ => ⟨hroom, middle, rfl, hagree⟩⟩
  have hapart := hroom.apart q hq
  unfold sizeofItem at hsize
  omega

/-- An allocation in a segment that is in service. -/
theorem segmentItemAlloc_cases
    (hinv : LogInv settings log allocators chains place free extent live)
    (hh : log.segHeaders i = some h) (hplace : place i ≠ .free) (m : Memory) {total : ℕ}
    (hsize : sizeofItem ≤ total) {m' : Memory} {h' : SegmentHeader} {result : Option ℕ}
    (halloc : Flexkvs.segmentItemAlloc settings m i h total = (m', h', result))
    (hne : result ≠ some 0 ∨ settings.segBase ≠ 0) :
    h'.next = h.next ∧ LogInv settings (log.setHeader i h') allocators chains place free
        (allocated extent (result.getD 0) total) (allocated live (result.getD 0) total) ∧
      Fetched m m' extent (result.getD 0) total := by
  have hheader : sizeofItem = 24 := rfl
  have hcases := hinv.segmentItemAlloc hh hplace m total
  rw [halloc] at hcases
  cases hcases with
  | placed hroom =>
      have haddress : segData settings i + h.offset ≠ 0 := by
        rcases hne with hne | hbase
        · exact fun hzero => hne (congrArg some hzero)
        · unfold segData
          omega
      rw [Option.getD_some, allocated, allocated, if_neg haddress, if_neg haddress]
      exact ⟨rfl, hinv.place_item hh hplace hroom (by omega),
        fetched_setRefcount (fun q _ => Memory.AgreeOn.refl m _ _)
          (hinv.room hh hroom haddress) hsize⟩
  | full _ _ hsizeEq hnext hoffset hcounts hagree =>
      refine ⟨hnext, ?_, hagree, fun hzero => absurd rfl hzero⟩
      exact hinv.setHeader hh hplace hsizeEq (.inl hnext) (.inl hoffset) hcounts

/-! ## Going on with another segment -/

/-- The allocator `w` has linked the segment `i` behind its current one and goes
on with it. -/
theorem append (hinv : LogInv settings log allocators chains place free extent live) {w : ℕ}
    {ia : ItemAllocator} {reserved : Option ℕ} {old : SegmentHeader}
    (hw : allocators w = some ia) (hold : log.segHeaders ia.cur = some old)
    (hh : log.segHeaders i = some h)
    (hfrom : place i = .hand ∧ reserved = ia.reserved ∨
      place i = .reserved w ∧ reserved = none) :
    LogInv settings ((log.setHeader ia.cur { old with next := some i, inactive := true }).setHeader i
        { h with next := none }) (Function.update allocators w (some ⟨reserved, i⟩))
      (Function.update chains w (chains w ++ [i])) (Function.update place i (.chain w)) free extent
      live := by
  have howned := hinv.owned w ia hw
  have hcurPlace := (hinv.cur_header hw).1
  have hiFree : place i ≠ .free := by
    rcases hfrom with ⟨hplace, _⟩ | ⟨hplace, _⟩
    · rw [hplace]; nofun
    · rw [hplace]; nofun
  have hiChain : ∀ v, place i ≠ .chain v := by
    intro v
    rcases hfrom with ⟨hplace, _⟩ | ⟨hplace, _⟩
    · rw [hplace]; nofun
    · rw [hplace]; nofun
  have hne : i ≠ ia.cur := by
    rintro rfl
    exact hiChain w hcurPlace
  obtain ⟨log', hlog'⟩ : ∃ log', log' = (log.setHeader ia.cur
    { old with next := some i, inactive := true }).setHeader i { h with next := none } := ⟨_, rfl⟩
  have hself : log'.nextFree (some i) = none := by
    rw [hlog', nextFree_setHeader_self]
  have hcur : log'.nextFree (some ia.cur) = some i := by
    rw [hlog', nextFree_setHeader_of_ne _ _ hne.symm, nextFree_setHeader_self]
  have hnext : ∀ k, k ≠ i → k ≠ ia.cur → log'.nextFree (some k) = log.nextFree (some k) := by
    intro k hi hk
    rw [hlog', nextFree_setHeader_of_ne _ _ hi, nextFree_setHeader_of_ne _ _ hk]
  have hsame : SameCounts log log' := by
    have hretired : SameCounts log
      (log.setHeader ia.cur { old with next := some i, inactive := true }) := .setHeader hold rfl
    rw [hlog']
    refine hretired.trans (.setHeader (h := h) ?_ rfl)
    exact (segHeaders_setHeader_of_ne _ _ hne).trans hh
  have hfreeSegments : log'.freeSegments = log.freeSegments := by rw [hlog']; rfl
  have halloced : log'.segAlloced = log.segAlloced := by rw [hlog']; rfl
  rw [← hlog']
  clear hlog'
  have hplaceFree : ∀ k, Function.update place i (.chain w) k = .free ↔ place k = .free := by
    intro k
    rcases eq_or_ne k i with rfl | hki
    · rw [Function.update_self]
      exact ⟨nofun, fun hk => absurd hk hiFree⟩
    · rw [Function.update_of_ne hki]
  refine ⟨fun k g hg => ?_, fun k g hg => ?_, fun k => ?_, fun k g hg hk => ?_, fun k hk => ?_,
    hinv.live, fun p hp => ?_, ?_, hinv.freeNodup, fun k => ?_, fun v ja hv => ?_,
    fun v hv k => ?_⟩
  · obtain ⟨g', hg', _⟩ := hsame.header hg
    rw [halloced]
    exact hinv.index k g' hg'
  · obtain ⟨g', hg', _, _, hsize⟩ := hsame.header hg
    rw [hsize]
    exact hinv.size k g' hg'
  · rw [hsame.eq_none_iff k, ← hinv.placed k]
    rcases eq_or_ne k i with rfl | hki
    · rw [Function.update_self, hinv.placed k, hh]
      exact ⟨nofun, nofun⟩
    · rw [Function.update_of_ne hki]
  · obtain ⟨g', hg', hoffset, hfreed, hsize⟩ := hsame.header hg
    have hcounts := hinv.counts k g' hg' fun hfree => hk ((hplaceFree k).mpr hfree)
    exact hcounts.congr hoffset hfreed hsize rfl
  · exact hinv.recycled k ((hplaceFree k).mp hk)
  · obtain ⟨k, g, hg, hk, hlo, hhi⟩ := hinv.inside p hp
    obtain ⟨g', hg', hoffset, _⟩ := hsame.symm.header hg
    refine ⟨k, g', hg', fun hfree => hk ((hplaceFree k).mp hfree), hlo, ?_⟩
    rw [← hoffset]
    exact hhi
  · rw [hfreeSegments]
    refine hinv.freeLinks.congr fun node hnode => ?_
    obtain ⟨k, hk, rfl⟩ := List.mem_map.mp hnode
    have hkFree := (hinv.mem_free k).mp hk
    refine hnext k ?_ ?_
    · rintro rfl
      exact hiFree hkFree
    · rintro rfl
      rw [hcurPlace] at hkFree
      cases hkFree
  · rw [hinv.mem_free k, hplaceFree k]
  · rcases eq_or_ne v w with rfl | hvw
    · rw [Function.update_self] at hv ⊢
      obtain rfl := Option.some.inj hv
      exact howned.goOn hfrom hcur hself hnext
    · rw [Function.update_of_ne hvw] at hv ⊢
      have hvOwned := hinv.owned v ja hv
      refine hvOwned.other hvw (hiChain v) ?_ fun k hk => hnext k ?_ ?_
      · rcases hfrom with ⟨hplace, _⟩ | ⟨hplace, _⟩
        · rw [hplace]
          nofun
        · rw [hplace]
          exact fun heq => hvw (Place.reserved.inj heq).symm
      · rintro rfl
        exact hiChain v ((hvOwned.mem_iff k).mp hk)
      · rintro rfl
        rw [(hvOwned.mem_iff _).mp hk] at hcurPlace
        exact hvw (Place.chain.inj hcurPlace)
  · rcases eq_or_ne v w with rfl | hvw
    · rw [Function.update_self] at hv
      cases hv
    · rw [Function.update_of_ne hvw] at hv
      rcases eq_or_ne k i with rfl | hki
      · rw [Function.update_self]
        exact ⟨fun heq => hvw (Place.chain.inj heq).symm, nofun⟩
      · rw [Function.update_of_ne hki]
        exact hinv.unowned v hv k

/-- The segment with which an allocation goes on.  It was in no chain before, and
the headers in the chains stay what they are. -/
theorem nextSegment (hinv : LogInv settings log allocators chains place free extent live) {w : ℕ}
    {ia : ItemAllocator} (hw : allocators w = some ia) {cleanup mapped : Bool} {log' : Log}
    {result : Option ItemAllocator}
    (hnext : nextSegment settings log ia cleanup mapped = (log', result)) :
    (∀ k v, place k = .chain v → log'.segHeaders k = log.segHeaders k) ∧
      ((result = none ∧ LogInv settings log' allocators chains place free extent live) ∨
        ∃ next place' free', result = some next ∧
          LogInv settings log' allocators chains place' free' extent live ∧
          (place' next.cur = .hand ∧ next.reserved = ia.reserved ∨
            place' next.cur = .reserved w ∧ next.reserved = none) ∧
          (∀ v, place next.cur ≠ .chain v) ∧ ∀ k, k ≠ next.cur → place' k = place k) := by
  unfold Flexkvs.nextSegment at hnext
  split at hnext
  · rename_i log₁ i halloc
    obtain ⟨rfl, rfl⟩ := Prod.mk.inj hnext
    obtain ⟨hkept, ⟨hnone, _⟩ | ⟨k, free', hsome, hplace, hlog⟩⟩ := hinv.segmentAlloc halloc
    · cases hnone
    · obtain rfl := Option.some.inj hsome
      have hoff : ∀ v, place i ≠ .chain v := by
        intro v hchain
        rw [hchain] at hplace
        rcases hplace with heq | heq
        · cases heq
        · cases heq
      refine ⟨fun k v hk => hkept k ?_, .inr ⟨_, _, free', rfl, hlog,
        .inl ⟨Function.update_self .., rfl⟩, hoff, fun k hk => Function.update_of_ne hk ..⟩⟩
      rintro ⟨⟩
      exact hoff v hk
  · rename_i log₁ halloc
    obtain ⟨rfl, rfl⟩ := Prod.mk.inj hnext
    obtain ⟨hkept, ⟨_, hlog⟩ | ⟨_, _, hsome, _⟩⟩ := hinv.segmentAlloc halloc
    · refine ⟨fun k _ _ => hkept k nofun, ?_⟩
      cases cleanup with
      | false => exact .inl ⟨rfl, hlog⟩
      | true =>
          rw [if_pos rfl]
          cases hreserved : ia.reserved with
          | none => exact .inl ⟨rfl, hlog⟩
          | some i =>
              have hplace := ((hinv.owned w ia hw).reserved i).mp hreserved
              refine .inr ⟨_, place, free, rfl, hlog, .inr ⟨hplace, rfl⟩, fun v hchain => ?_,
                fun _ _ => rfl⟩
              rw [hplace] at hchain
              cases hchain
    · cases hsome

/-- A segment that is in some place has a header. -/
theorem header_of_place (hinv : LogInv settings log allocators chains place free extent live)
    (hplace : place i ≠ .unallocated) : ∃ h, log.segHeaders i = some h :=
  Option.ne_none_iff_exists'.mp fun hnone => hplace ((hinv.placed i).mpr hnone)

/-- `ialloc_alloc` returns the place of a new item, apart from the others, or
`NULL`.  The oldest segments stay what they are, as do all retired ones. -/
theorem iallocAlloc (hinv : LogInv settings log allocators chains place free extent live) {w : ℕ}
    {ia : ItemAllocator} (hw : allocators w = some ia) (m : Memory) {total : ℕ}
    (hsize : sizeofItem ≤ total) (htotal : total < settings.segsize) (cleanup mapped : Bool) :
    ∃ m' log' ia' it, iallocAlloc settings m log ia total cleanup mapped =
        some (m', log', ia', it) ∧
      (it ≠ 0 ∨ settings.segBase ≠ 0 → ∃ chain' place' free',
        LogInv settings log' (Function.update allocators w (some ia'))
          (Function.update chains w chain') place' free' (allocated extent it total)
          (allocated live it total) ∧
        Fetched m m' extent it total ∧ chain'.head? = (chains w).head? ∧
        (∀ k, place' k = place k ∨ place' k = .chain w) ∧
        ∀ k v, place k = .chain v → k ≠ ia.cur →
          place' k = .chain v ∧ k ≠ ia'.cur ∧ log'.segHeaders k = log.segHeaders k) := by
  obtain ⟨hcurPlace, old, hold⟩ := hinv.cur_header hw
  have hcurFree : place ia.cur ≠ .free := by
    rw [hcurPlace]
    nofun
  have hsame : Function.update allocators w (some ia) = allocators := by
    rw [← hw, Function.update_eq_self]
  unfold Flexkvs.iallocAlloc
  rw [if_pos htotal]
  split
  · -- only cleanup may allocate
    refine ⟨m, log, ia, 0, rfl, fun _ => ⟨chains w, place, free, ?_,
      ⟨fun q _ => Memory.AgreeOn.refl m _ _, fun hzero => absurd rfl hzero⟩, rfl,
      fun _ => .inl rfl, fun k v hk hne => ⟨hk, hne, rfl⟩⟩⟩
    rw [hsame, Function.update_eq_self]
    exact hinv
  rw [hold, Option.bind_some]
  split
  · rename_i middle h it hfirst
    refine ⟨middle, _, ia, it, rfl, fun hne => ?_⟩
    obtain ⟨_, hlog, hfetched⟩ := hinv.segmentItemAlloc_cases hold hcurFree m hsize hfirst
      (hne.imp_left fun hit heq => hit (Option.some.inj heq))
    refine ⟨chains w, place, free, ?_, hfetched, rfl, fun _ => .inl rfl,
      fun k v hk hneCur => ⟨hk, hneCur, segHeaders_setHeader_of_ne _ _ hneCur⟩⟩
    rw [hsame, Function.update_eq_self]
    exact hlog
  · rename_i middle h hfirst
    obtain ⟨hnextEq, hretired, hfetched⟩ := hinv.segmentItemAlloc_cases hold hcurFree m hsize hfirst
      (.inl nofun)
    have hcurHeader : (log.setHeader ia.cur h).segHeaders ia.cur = some h :=
      segHeaders_setHeader_self ..
    split
    · rename_i log₁ hwent
      obtain ⟨hheaders, ⟨_, hlog⟩ | ⟨_, _, _, hsome, _⟩⟩ := hretired.nextSegment hw hwent
      · refine ⟨middle, log₁, ia, 0, rfl, fun _ => ⟨chains w, place, free, ?_, hfetched, rfl,
          fun _ => .inl rfl, fun k v hk hne => ⟨hk, hne, ?_⟩⟩⟩
        · rw [hsame, Function.update_eq_self]
          exact hlog
        · rw [hheaders k v hk, segHeaders_setHeader_of_ne _ _ hne]
      · cases hsome
    · rename_i log₁ next hwent
      obtain ⟨hheaders, ⟨hnone, _⟩ | ⟨_, place', free', hsome, hlog, hfrom, hoff, hothers⟩⟩ :=
        hretired.nextSegment hw hwent
      · cases hnone
      obtain rfl := Option.some.inj hsome
      obtain ⟨g, hg⟩ := hlog.header_of_place (i := next.cur) (by
        rcases hfrom with ⟨hplace, _⟩ | ⟨hplace, _⟩
        · rw [hplace]; nofun
        · rw [hplace]; nofun)
      have hhCur : log₁.segHeaders ia.cur = some h := (hheaders _ w hcurPlace).trans hcurHeader
      have happended := hlog.append hw hhCur hg hfrom
      have hneCur : next.cur ≠ ia.cur := by
        rintro heq
        have hplaceCur := (hlog.cur_header hw).1
        rw [← heq] at hplaceCur
        rcases hfrom with ⟨hplace, _⟩ | ⟨hplace, _⟩
        · rw [hplaceCur] at hplace
          cases hplace
        · rw [hplaceCur] at hplace
          cases hplace
      extract_lets log₂
      have hgNext : log₂.segHeaders next.cur = some g :=
        (segHeaders_setHeader_of_ne _ _ hneCur).trans hg
      rw [hgNext, Option.bind_some]
      split
      rename_i m' h' result hlast
      refine ⟨m', _, next, result.getD 0, rfl, fun hne => ?_⟩
      obtain ⟨_, hfinal, hfetchedLast⟩ := happended.segmentItemAlloc_cases
        (segHeaders_setHeader_self ..) (by rw [Function.update_self]; nofun) middle hsize hlast
        (hne.imp_left fun hit heq => hit (by rw [heq]; rfl))
      rw [setHeader_setHeader] at hfinal
      refine ⟨_, _, free', hfinal, ⟨fun q hq => (hfetched.others q hq).trans
        (hfetchedLast.others q hq), fun hit => ?_⟩, ?_, fun k => ?_, fun k v hk hneCurK => ?_⟩
      · obtain ⟨hroom, middle', hm', hagree⟩ := hfetchedLast.item hit
        exact ⟨hroom, middle', hm', fun q hq => (hfetched.others q hq).trans (hagree q hq)⟩
      · obtain ⟨older, holder⟩ := (hlog.owned w ia hw).last
        rw [holder]
        cases older with
        | nil => rfl
        | cons first older => rfl
      · rcases eq_or_ne k next.cur with rfl | hk
        · exact .inr (Function.update_self ..)
        · rw [Function.update_of_ne hk]
          exact .inl (hothers k hk)
      · have hneNext : k ≠ next.cur := by
          rintro rfl
          exact hoff v hk
        refine ⟨?_, hneNext, ?_⟩
        · rw [Function.update_of_ne hneNext, hothers k hneNext, hk]
        · rw [segHeaders_setHeader_of_ne _ _ hneNext, segHeaders_setHeader_of_ne _ _ hneCurK,
            hheaders k v hk, segHeaders_setHeader_of_ne _ _ hneCurK]

end LogInv

end ArmsTiering.Flexkvs
