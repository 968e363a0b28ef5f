import ArmsTiering.Flexkvs.Cleaning

/-!
# Walking a retired segment

The cleaner finds the items of a segment by their own lengths.  What is left of a
retired segment is filled with the header of an item that nobody refers to, whose
length has 16 bits.  A segment is walked to its end exactly if that is enough.
-/

namespace ArmsTiering.Flexkvs

section

variable (settings : Settings)

/-! ## The walk -/

/-- The scan loop of `ialloc_maintenance`, over as many calls as it takes: the
offsets of the headers that it reads, with the reference counts there, and the
offset at which it ends. -/
def scanFrom (data size : ℕ) : ℕ → Memory → ℕ → List (ℕ × ℕ) × ℕ
  | 0, _, off => ([], off)
  | fuel + 1, m, off =>
      if off < size then
        if size - off < sizeofItem then ([], size)
        else
          let it := data + off
          let result := itemTryref m it
          let rest := scanFrom data size fuel result.1 (off + itemTotalsz result.1 it)
          ((off, itemRefcount m it) :: rest.1, rest.2)
      else ([], off)

/-- The scan of the segment `i`; every round passes at least one byte. -/
def scanSegment (m : Memory) (i : ℕ) (h : SegmentHeader) : List (ℕ × ℕ) × ℕ :=
  scanFrom (segData settings i) h.size (h.size + 1) m 0

/-- The offsets of items one after the other. -/
def itemOffsets : ℕ → List ℕ → List ℕ
  | _, [] => []
  | start, total :: totals => start :: itemOffsets (start + total) totals

/-! ## Runs -/

/-- Allocators on one log, and the sizes of the items in each segment. -/
structure WalkRun where
  mem : Memory
  log : Log
  allocators : ℕ → Option ItemAllocator
  items : ℕ → List ℕ

inductive WalkAction
  | init (w : ℕ) (mapped mapped' : Bool)
  /-- an item is allocated, and filled in if there is one -/
  | alloc (w : ℕ) (hv : UInt32) (key value : List UInt8) (cleanup mapped : Bool)

namespace WalkRun

def initial (mem : Memory) : WalkRun where
  mem := mem
  log := .initial
  allocators := fun _ => none
  items := fun _ => []

def step (t : WalkRun) : WalkAction → Option WalkRun
  | .init w mapped mapped' =>
      if t.allocators w = none then
        (iallocInitAllocator settings t.log mapped mapped').map fun (log, a) =>
          { t with log := log, allocators := Function.update t.allocators w (some a.ia) }
      else none
  | .alloc w hv key value cleanup mapped =>
      (t.allocators w).bind fun ia =>
        if key.length < 65536 ∧ value.length < 2 ^ 32 then
          let total := sizeofItem + value.length + key.length
          (iallocAlloc settings t.mem t.log ia total cleanup mapped).map fun (m, log, ia, it) =>
            let t := { t with log := log, allocators := Function.update t.allocators w (some ia) }
            if it = 0 then { t with mem := m }
            else { t with
              mem := fillItem m it hv.toNat key value
              items := Function.update t.items ia.cur (t.items ia.cur ++ [total]) }
        else none

/-- The scan visits the items of the segment `i` in order and then at most one
header, to which nobody refers, and ends where the segment does. -/
def Walks (t : WalkRun) (i : ℕ) (h : SegmentHeader) : Prop :=
  ∃ visits fillers, scanSegment settings t.mem i h = (visits ++ fillers, h.size) ∧
    visits.map Prod.fst = itemOffsets 0 (t.items i) ∧
    (fillers = [] ∨ ∃ off, fillers = [(off, 0)])

/-- What the items leave of a segment fits into a filler. -/
def TailFits (t : WalkRun) (i : ℕ) (h : SegmentHeader) : Prop :=
  h.size - (t.items i).sum < sizeofItem + 2 ^ 16

end WalkRun

end

/-! ## The headers in a segment -/

variable {settings : Settings} {m m' : Memory} {data size start : ℕ} {totals : List ℕ}

/-- Items of the given sizes lie one after the other. -/
def HeadersAt (m : Memory) (data : ℕ) : ℕ → List ℕ → Prop
  | _, [] => True
  | start, total :: totals =>
      sizeofItem ≤ total ∧ itemTotalsz m (data + start) = total ∧
        HeadersAt m data (start + total) totals

/-- The unused tail of a segment holds a filler if it holds a header. -/
def FillerAt (m : Memory) (p tail : ℕ) : Prop :=
  sizeofItem ≤ tail → itemRefcount m p = 0 ∧ itemKeylen m p = (tail - sizeofItem) % 65536 ∧
    itemVallen m p = 0

theorem itemTotalsz_of_agree {it : ℕ} (hvallen : Memory.AgreeOn m m' (it + 12) (it + 16))
    (hkeylen : Memory.AgreeOn m m' (it + 18) (it + 20)) :
    itemTotalsz m' it = itemTotalsz m it := by
  have hv : itemVallen m' it = itemVallen m it := hvallen.load_eq le_rfl le_rfl
  have hk : itemKeylen m' it = itemKeylen m it := hkeylen.load_eq le_rfl le_rfl
  rw [itemTotalsz, itemTotalsz, hv, hk]

theorem HeadersAt.of_agree (hheaders : HeadersAt m data start totals)
    (hagree : Memory.AgreeOn m m' (data + start) (data + (start + totals.sum))) :
    HeadersAt m' data start totals := by
  induction totals generalizing start with
  | nil => trivial
  | cons total totals ih =>
      obtain ⟨hsize, htotal, hrest⟩ := hheaders
      have hheader : sizeofItem = 24 := rfl
      rw [List.sum_cons] at hagree
      refine ⟨hsize, ?_, ih hrest (hagree.mono (by omega) (by omega))⟩
      rw [itemTotalsz_of_agree (hagree.mono (by omega) (by omega))
        (hagree.mono (by omega) (by omega)), htotal]

theorem HeadersAt.snoc (hheaders : HeadersAt m data start totals) {total : ℕ}
    (hsize : sizeofItem ≤ total) (htotal : itemTotalsz m (data + (start + totals.sum)) = total) :
    HeadersAt m data start (totals ++ [total]) := by
  induction totals generalizing start with
  | nil => exact ⟨hsize, htotal, trivial⟩
  | cons first totals ih =>
      obtain ⟨hsizeFirst, hfirst, hrest⟩ := hheaders
      refine ⟨hsizeFirst, hfirst, ih hrest ?_⟩
      rw [List.sum_cons, ← Nat.add_assoc start] at htotal
      exact htotal

theorem FillerAt.of_agree {p tail : ℕ} (hfiller : FillerAt m p tail)
    (hagree : Memory.AgreeOn m m' p (p + tail)) : FillerAt m' p tail := by
  intro hsize
  have hheader : sizeofItem = 24 := rfl
  obtain ⟨hrefcount, hkeylen, hvallen⟩ := hfiller hsize
  refine ⟨?_, ?_, ?_⟩
  · exact (itemRefcount_of_agree (hagree.mono (by omega) (by omega))).trans hrefcount
  · exact (hagree.load_eq (by omega) (by omega)).trans hkeylen
  · exact (hagree.load_eq (by omega) (by omega)).trans hvallen

theorem agreeOn_filler {p lo hi keylen vallen : ℕ} (hapart : hi ≤ p ∨ p + sizeofItem ≤ lo) :
    Memory.AgreeOn m (setVallen (setKeylen (setRefcount m p 0) p keylen) p vallen) lo hi := by
  unfold sizeofItem at hapart
  exact ((Memory.agreeOn_store (by omega)).trans (Memory.agreeOn_store (by omega))).trans
    (Memory.agreeOn_store (by omega))

/-- What `segment_item_alloc` writes at the end of a segment. -/
theorem fillerAt_filler (m : Memory) (p tail : ℕ) :
    FillerAt (setVallen (setKeylen (setRefcount m p 0) p (tail - sizeofItem)) p 0) p tail := by
  have hvallen : Memory.AgreeOn (setKeylen (setRefcount m p 0) p (tail - sizeofItem))
      (setVallen (setKeylen (setRefcount m p 0) p (tail - sizeofItem)) p 0) (p + 16) (p + 20) :=
    Memory.agreeOn_store (.inr (by omega))
  have hkeylen : Memory.AgreeOn (setRefcount m p 0)
      (setKeylen (setRefcount m p 0) p (tail - sizeofItem)) (p + 16) (p + 18) :=
    Memory.agreeOn_store (.inl le_rfl)
  refine fun _ => ⟨?_, ?_, Memory.load_store _ (p + 12) 4 0⟩
  · rw [itemRefcount_of_agree (hvallen.mono le_rfl (by omega)), itemRefcount_of_agree hkeylen]
    exact itemRefcount_setRefcount m p 0
  · refine (hvallen.load_eq (by omega) (by omega)).trans ?_
    exact Memory.load_store (setRefcount m p 0) (p + 18) 2 (tail - sizeofItem)

/-! ## The walk over items and a filler -/

/-- Taking a reference leaves everything but the reference count alone. -/
theorem agreeOn_itemTryref {it lo hi : ℕ} (hapart : hi ≤ it + 16 ∨ it + 18 ≤ lo) :
    Memory.AgreeOn m (itemTryref m it).1 lo hi := by
  unfold itemTryref
  split
  · exact Memory.AgreeOn.refl m lo hi
  · exact agreeOn_setRefcount hapart

theorem itemTotalsz_itemTryref (m : Memory) (it : ℕ) :
    itemTotalsz (itemTryref m it).1 it = itemTotalsz m it :=
  itemTotalsz_of_agree (agreeOn_itemTryref (.inl (by omega))) (agreeOn_itemTryref (.inr (by omega)))

theorem scanFrom_succ (data : ℕ) (fuel : ℕ) (m : Memory) (hroom : start + sizeofItem ≤ size) :
    scanFrom data size (fuel + 1) m start =
      let rest := scanFrom data size fuel (itemTryref m (data + start)).1
        (start + itemTotalsz m (data + start))
      ((start, itemRefcount m (data + start)) :: rest.1, rest.2) := by
  have hheader : sizeofItem = 24 := rfl
  rw [scanFrom, if_pos (by omega), if_neg (by omega)]
  dsimp only
  rw [itemTotalsz_itemTryref]

theorem scanFrom_short (data fuel : ℕ) (m : Memory) (hle : start ≤ size)
    (hshort : size < start + sizeofItem) :
    scanFrom data size (fuel + 1) m start = ([], size) := by
  rw [scanFrom]
  split
  · rw [if_pos (by omega)]
  · rw [show start = size by omega]

/-- The scan passes the items and goes on behind them, where memory is as it
was. -/
theorem scanFrom_items (size fuel : ℕ) (hheaders : HeadersAt m data start totals)
    (hroom : start + totals.sum ≤ size) :
    ∃ visits middle, visits.map Prod.fst = itemOffsets start totals ∧
      Memory.AgreeOn m middle (data + (start + totals.sum)) (data + size) ∧
      scanFrom data size (fuel + totals.length) m start =
        (visits ++ (scanFrom data size fuel middle (start + totals.sum)).1,
          (scanFrom data size fuel middle (start + totals.sum)).2) := by
  induction totals generalizing m start with
  | nil => exact ⟨[], m, rfl, Memory.AgreeOn.refl m _ _, rfl⟩
  | cons total totals ih =>
      obtain ⟨hsize, htotal, hrest⟩ := hheaders
      have hheader : sizeofItem = 24 := rfl
      rw [List.sum_cons, ← Nat.add_assoc start] at hroom ⊢
      have hbehind : Memory.AgreeOn m (itemTryref m (data + start)).1 (data + (start + total))
          (data + size) := agreeOn_itemTryref (.inr (by omega))
      obtain ⟨visits, middle, hoffsets, hagree, hscan⟩ :=
        ih (hrest.of_agree (hbehind.mono le_rfl (by omega))) hroom
      refine ⟨(start, itemRefcount m (data + start)) :: visits, middle, ?_,
        (hbehind.mono (by omega) le_rfl).trans hagree, ?_⟩
      · rw [List.map_cons, hoffsets]
        rfl
      · rw [List.length_cons, ← Nat.add_assoc, scanFrom_succ data _ m (by omega), htotal, hscan]
        rfl

theorem HeadersAt.length_le (hheaders : HeadersAt m data start totals) :
    sizeofItem * totals.length ≤ totals.sum := by
  induction totals generalizing start with
  | nil => exact Nat.zero_le _
  | cons total totals ih =>
      obtain ⟨hsize, _, hrest⟩ := hheaders
      have hle := ih hrest
      rw [List.length_cons, List.sum_cons, Nat.mul_succ]
      omega

/-- A filler whose length has been cut ends far before the segment. -/
theorem filler_short {tail : ℕ} (hlarge : sizeofItem + 2 ^ 16 ≤ tail) :
    sizeofItem + (tail - sizeofItem) % 65536 + sizeofItem ≤ tail := by
  unfold sizeofItem at *
  omega

/-- The items and a tail that fits into its filler make up a segment that is walked
to its end, and no other tail does. -/
theorem scanFrom_end (fuel : ℕ) {middle : Memory} (hle : start ≤ size)
    (hfiller : FillerAt middle (data + start) (size - start)) :
    (size - start < sizeofItem + 2 ^ 16 → ∃ fillers,
      scanFrom data size (fuel + 2) middle start = (fillers, size) ∧
        (fillers = [] ∨ ∃ off, fillers = [(off, 0)])) ∧
    (sizeofItem + 2 ^ 16 ≤ size - start →
      2 ≤ (scanFrom data size (fuel + 2) middle start).1.length) := by
  have hheader : sizeofItem = 24 := rfl
  rcases Nat.lt_or_ge (size - start) sizeofItem with hshort | hlong
  · refine ⟨fun _ => ⟨[], scanFrom_short data _ middle hle (by omega), .inl rfl⟩, fun hlarge => ?_⟩
    exact absurd hlarge (by omega)
  · obtain ⟨hrefcount, hkeylen, hvallen⟩ := hfiller hlong
    have htotal : itemTotalsz middle (data + start) =
        sizeofItem + (size - start - sizeofItem) % 65536 := by
      rw [itemTotalsz, hvallen, hkeylen, Nat.add_zero]
    rw [scanFrom_succ data _ middle (by omega), htotal, hrefcount]
    constructor
    · intro hfits
      rw [Nat.mod_eq_of_lt (show size - start - sizeofItem < 65536 by omega),
        show start + (sizeofItem + (size - start - sizeofItem)) = size by omega,
        scanFrom_short data _ _ le_rfl (by omega)]
      exact ⟨_, rfl, .inr ⟨start, rfl⟩⟩
    · intro hlarge
      have hbehind := filler_short hlarge
      rw [scanFrom_succ data _ _ (by omega)]
      exact Nat.le_add_left 2 _

/-! ## One segment -/

/-- The items of a segment lie one after the other, and there is nothing else in
it but, if it is retired, a tail with its filler. -/
structure SegmentLaid (settings : Settings) (m : Memory) (i : ℕ) (h : SegmentHeader)
    (totals : List ℕ) : Prop where
  size_le : h.size ≤ settings.segsize
  size_lt : h.size < 2 ^ 32
  headers : HeadersAt m (segData settings i) 0 totals
  room : totals.sum ≤ h.size
  offset : h.offset = totals.sum ∨
    h.offset = h.size ∧ FillerAt m (segData settings i + totals.sum) (h.size - totals.sum)
  retired : h.inactive = true →
    h.offset = h.size ∧ FillerAt m (segData settings i + totals.sum) (h.size - totals.sum)

/-- Memory outside the segment `i` is unchanged. -/
def Outside (settings : Settings) (m m' : Memory) (i : ℕ) : Prop :=
  ∀ lo hi, hi ≤ segData settings i ∨ segData settings i + settings.segsize ≤ lo →
    Memory.AgreeOn m m' lo hi

variable {i k : ℕ} {h h' : SegmentHeader}

theorem SegmentLaid.of_agree (hlaid : SegmentLaid settings m i h totals)
    (hagree : Memory.AgreeOn m m' (segData settings i) (segData settings i + settings.segsize)) :
    SegmentLaid settings m' i h totals := by
  obtain ⟨hle, hlt, hheaders, hroom, hoffset, hretired⟩ := hlaid
  have hfiller : FillerAt m (segData settings i + totals.sum) (h.size - totals.sum) →
      FillerAt m' (segData settings i + totals.sum) (h.size - totals.sum) :=
    fun hfiller => hfiller.of_agree (hagree.mono (by omega) (by omega))
  refine ⟨hle, hlt, hheaders.of_agree (hagree.mono (by omega) (by omega)), hroom, ?_, ?_⟩
  · exact hoffset.imp_right fun ⟨hfull, hold⟩ => ⟨hfull, hfiller hold⟩
  · exact fun hinactive => ⟨(hretired hinactive).1, hfiller (hretired hinactive).2⟩

/-- A segment with items is walked to its end exactly if its tail fits into a
filler. -/
theorem SegmentLaid.scan_iff (hlaid : SegmentLaid settings m i h totals)
    (hinactive : h.inactive = true) :
    (∃ visits fillers, scanSegment settings m i h = (visits ++ fillers, h.size) ∧
      visits.map Prod.fst = itemOffsets 0 totals ∧
      (fillers = [] ∨ ∃ off, fillers = [(off, 0)])) ↔ h.size - totals.sum < sizeofItem + 2 ^ 16 := by
  have hheader : sizeofItem = 24 := rfl
  have hlength : 24 * totals.length ≤ totals.sum := hlaid.headers.length_le
  have hroom := hlaid.room
  have hstart : 0 + totals.sum = totals.sum := Nat.zero_add _
  obtain ⟨_, hfiller⟩ := hlaid.retired hinactive
  rcases Nat.lt_or_ge (h.size - totals.sum) sizeofItem with hshort | hlong
  · -- the scan stops behind the items
    refine ⟨fun _ => hshort.trans_le (Nat.le_add_right _ _), fun _ => ?_⟩
    obtain ⟨visits, middle, hoffsets, _, hscan⟩ :=
      scanFrom_items h.size (h.size - totals.length + 1) hlaid.headers (by omega)
    rw [show h.size - totals.length + 1 + totals.length = h.size + 1 by omega, hstart,
      scanFrom_short _ _ middle hroom (by omega)] at hscan
    exact ⟨visits, [], hscan, hoffsets, .inl rfl⟩
  · obtain ⟨visits, middle, hoffsets, hagree, hscan⟩ :=
      scanFrom_items h.size (h.size - 1 - totals.length + 2) hlaid.headers (by omega)
    rw [show h.size - 1 - totals.length + 2 + totals.length = h.size + 1 by omega,
      hstart] at hscan
    rw [hstart] at hagree
    have hend := scanFrom_end (h.size - 1 - totals.length) hroom
      (hfiller.of_agree (hagree.mono le_rfl (by omega)))
    constructor
    · rintro ⟨visits', fillers, hwalk, hoffsets', hfillers⟩
      by_contra hlarge
      have hmore := hend.2 (Nat.le_of_not_lt hlarge)
      have hfew : fillers.length ≤ 1 := by
        rcases hfillers with rfl | ⟨off, rfl⟩
        · exact Nat.zero_le 1
        · exact le_rfl
      have hsame : visits.length = visits'.length := by
        rw [← visits.length_map Prod.fst, hoffsets, ← hoffsets', List.length_map]
      have hvisits := congrArg (fun result => result.1.length) (hscan.symm.trans hwalk)
      dsimp only at hvisits
      rw [List.length_append, List.length_append] at hvisits
      omega
    · intro hfits
      obtain ⟨fillers, hfillers, hone⟩ := hend.1 hfits
      rw [hfillers] at hscan
      exact ⟨visits, fillers, hscan, hoffsets, hone⟩

/-- The header of an item that has been filled in. -/
theorem itemTotalsz_fillItem (m : Memory) (it : ℕ) (hv : UInt32) {key value : List UInt8}
    (hkey : key.length < 65536) (hvalue : value.length < 2 ^ 32) :
    itemTotalsz (fillItem m it hv.toNat key value) it = sizeofItem + value.length + key.length := by
  rw [itemTotalsz_eq, contentAt_fillItem m it hv.toNat hv.toNat_lt hkey hvalue]

/-- An allocation in a segment, and the item filled in, or the tail of a segment
without room. -/
theorem SegmentLaid.segmentItemAlloc (hlaid : SegmentLaid settings m i h totals) {total : ℕ}
    (hsize : sizeofItem ≤ total) {result : Option ℕ}
    (halloc : segmentItemAlloc settings m i h total = (m', h', result)) :
    Outside settings m m' i ∧
      ((result = none ∧ SegmentLaid settings m' i { h' with inactive := true } totals) ∨
        (result = some (segData settings i + totals.sum) ∧
          h' = { h with offset := totals.sum + total } ∧ totals.sum + total ≤ h.size ∧
          m' = setRefcount m (segData settings i + totals.sum) 1 ∧ h.inactive = false)) := by
  have hheader : sizeofItem = 24 := rfl
  obtain ⟨hle, hlt, hheaders, hroom, hoffset, hretired⟩ := hlaid
  have hbound : h.offset ≤ h.size := by
    rcases hoffset with heq | ⟨heq, _⟩
    · omega
    · omega
  have havail : h.avail = h.size - h.offset := by
    unfold SegmentHeader.avail
    omega
  unfold Flexkvs.segmentItemAlloc at halloc
  dsimp only at halloc
  rw [havail] at halloc
  split at halloc
  · rename_i hfull
    obtain ⟨rfl, hpair⟩ := Prod.mk.inj halloc
    obtain ⟨rfl, rfl⟩ := Prod.mk.inj hpair
    have hclosed : h.offset = h.size ∧
        FillerAt m (segData settings i + totals.sum) (h.size - totals.sum) := by
      rcases hoffset with heq | hclosed
      · exact ⟨by omega, fun htail => absurd htail (by omega)⟩
      · exact hclosed
    exact ⟨fun lo hi _ => Memory.AgreeOn.refl m lo hi, .inl ⟨rfl, hle, hlt, hheaders, hroom,
      .inr hclosed, fun _ => hclosed⟩⟩
  · rename_i hsome
    have hopen : h.offset = totals.sum := by
      rcases hoffset with heq | ⟨heq, _⟩
      · exact heq
      · omega
    have hactive : h.inactive = false := by
      by_contra hinactive
      have := (hretired (Bool.not_eq_false _ ▸ hinactive)).1
      omega
    split at halloc
    · obtain ⟨rfl, hpair⟩ := Prod.mk.inj halloc
      obtain ⟨rfl, rfl⟩ := Prod.mk.inj hpair
      rw [hopen]
      have hend : (totals.sum + (h.size - totals.sum)) % 2 ^ 32 = h.size := by
        rw [Nat.add_sub_cancel' hroom, Nat.mod_eq_of_lt hlt]
      rw [hend]
      split
      · rename_i hlong
        have hfiller := fillerAt_filler m (segData settings i + totals.sum) (h.size - totals.sum)
        exact ⟨fun lo hi hapart => agreeOn_filler (by omega), .inl ⟨rfl, hle, hlt,
          hheaders.of_agree (agreeOn_filler (.inl (by omega))), hroom, .inr ⟨rfl, hfiller⟩,
          fun _ => ⟨rfl, hfiller⟩⟩⟩
      · rename_i hshort
        have hfiller : FillerAt m (segData settings i + totals.sum) (h.size - totals.sum) :=
          fun htail => absurd htail (by omega)
        exact ⟨fun lo hi _ => Memory.AgreeOn.refl m lo hi, .inl ⟨rfl, hle, hlt, hheaders, hroom,
          .inr ⟨rfl, hfiller⟩, fun _ => ⟨rfl, hfiller⟩⟩⟩
    · obtain ⟨rfl, hpair⟩ := Prod.mk.inj halloc
      obtain ⟨rfl, rfl⟩ := Prod.mk.inj hpair
      rw [hopen, Nat.mod_eq_of_lt (by omega)]
      refine ⟨fun lo hi hapart => agreeOn_setRefcount (by omega), .inr ⟨rfl, rfl, by omega, rfl,
        hactive⟩⟩

/-- A new item behind the others is filled in. -/
theorem SegmentLaid.filled (hlaid : SegmentLaid settings m i h totals) (hv : UInt32)
    {key value : List UInt8} (hkey : key.length < 65536) (hvalue : value.length < 2 ^ 32)
    (hroom : totals.sum + (sizeofItem + value.length + key.length) ≤ h.size)
    (hactive : h.inactive = false) :
    Outside settings m (fillItem (setRefcount m (segData settings i + totals.sum) 1)
        (segData settings i + totals.sum) hv.toNat key value) i ∧
      SegmentLaid settings (fillItem (setRefcount m (segData settings i + totals.sum) 1)
        (segData settings i + totals.sum) hv.toNat key value) i
        { h with offset := totals.sum + (sizeofItem + value.length + key.length) }
        (totals ++ [sizeofItem + value.length + key.length]) := by
  have hheader : sizeofItem = 24 := rfl
  have hle := hlaid.size_le
  have hkept : ∀ lo hi, hi ≤ segData settings i + totals.sum ∨
      segData settings i + totals.sum + (sizeofItem + value.length + key.length) ≤ lo →
      Memory.AgreeOn m (fillItem (setRefcount m (segData settings i + totals.sum) 1)
        (segData settings i + totals.sum) hv.toNat key value) lo hi := by
    intro lo hi hapart
    exact (agreeOn_setRefcount (by omega)).trans (agreeOn_fillItem hv.toNat hkey (by omega))
  have hsum : (totals ++ [sizeofItem + value.length + key.length]).sum =
      totals.sum + (sizeofItem + value.length + key.length) := by
    rw [List.sum_append, List.sum_singleton]
  refine ⟨fun lo hi hapart => hkept lo hi (by omega), hle, hlaid.size_lt, ?_, ?_, .inl hsum.symm,
    fun hinactive => ?_⟩
  · refine HeadersAt.snoc (hlaid.headers.of_agree (hkept _ _ (.inl (by omega)))) (by omega) ?_
    rw [Nat.zero_add]
    exact itemTotalsz_fillItem _ _ hv hkey hvalue
  · rw [hsum]
    exact hroom
  · rw [hactive] at hinactive
    cases hinactive

/-- What is laid out does not depend on the links. -/
theorem SegmentLaid.reheader (hlaid : SegmentLaid settings m i h totals) (hsize : h'.size = h.size)
    (hoffset : h'.offset = h.offset) (hinactive : h'.inactive = true → h.inactive = true) :
    SegmentLaid settings m i h' totals := by
  obtain ⟨hle, hlt, hheaders, hroom, hcases, hretired⟩ := hlaid
  refine ⟨hsize ▸ hle, hsize ▸ hlt, hheaders, hsize ▸ hroom, ?_, fun hyes => ?_⟩
  · rw [hoffset, hsize]
    exact hcases
  · rw [hoffset, hsize]
    exact hretired (hinactive hyes)

/-- An empty segment. -/
theorem segmentLaid_init (settings : Settings) (m : Memory) (i : ℕ) (next : Option ℕ) :
    SegmentLaid settings m i ⟨next, 0, 0, settings.segsize % 2 ^ 32, false⟩ [] :=
  ⟨Nat.mod_le _ _, Nat.mod_lt _ (Nat.two_pow_pos 32), trivial, Nat.zero_le _, .inl rfl, nofun⟩

/-! ## The invariant of a run -/

namespace WalkRun

variable {t next : WalkRun} {log' : Log} {w : ℕ}

structure WalkInv (settings : Settings) (t : WalkRun) : Prop where
  free : t.log.freeSegments = none
  index : ∀ i h, t.log.segHeaders i = some h → i < t.log.segAlloced
  fresh : ∀ i, t.log.segHeaders i = none → t.items i = []
  laid : ∀ i h, t.log.segHeaders i = some h → SegmentLaid settings t.mem i h (t.items i)
  cur : ∀ w ia, t.allocators w = some ia → ∃ h, t.log.segHeaders ia.cur = some h
  reserved : ∀ w ia n, t.allocators w = some ia → ia.reserved = some n → t.items n = [] ∧
    (∃ h, t.log.segHeaders n = some h) ∧ ∀ v ja, t.allocators v = some ja →
      n ≠ ja.cur ∧ (v ≠ w → ja.reserved ≠ some n)

theorem walkInv_initial (settings : Settings) (mem : Memory) : WalkInv settings (initial mem) :=
  ⟨rfl, nofun, fun _ _ => rfl, nofun, nofun, nofun⟩

/-- One segment changes that nobody has reserved. -/
theorem WalkInv.rewrite (hinv : WalkInv settings t) (hh : t.log.segHeaders i = some h)
    (hlaid : SegmentLaid settings m' i h' totals) (houtside : Outside settings t.mem m' i)
    (hreserved : totals = t.items i ∨
      ∀ w ia, t.allocators w = some ia → ia.reserved ≠ some i) :
    WalkInv settings { t with
      mem := m', log := t.log.setHeader i h', items := Function.update t.items i totals } := by
  have hsome : ∀ k, (∃ g, t.log.segHeaders k = some g) →
      ∃ g, (t.log.setHeader i h').segHeaders k = some g := by
    rintro k ⟨g, hg⟩
    rcases eq_or_ne k i with rfl | hne
    · exact ⟨h', segHeaders_setHeader_self ..⟩
    · exact ⟨g, (segHeaders_setHeader_of_ne _ _ hne).trans hg⟩
  refine ⟨hinv.free, fun k g hg => ?_, fun k hk => ?_, fun k g hg => ?_,
    fun v ja hv => hsome _ (hinv.cur v ja hv), fun v ja n hv hn => ?_⟩
  · rcases eq_or_ne k i with rfl | hne
    · exact hinv.index k h hh
    · exact hinv.index k g ((segHeaders_setHeader_of_ne _ _ hne).symm.trans hg)
  · rcases eq_or_ne k i with rfl | hne
    · have hself := segHeaders_setHeader_self t.log k h'
      cases hself.symm.trans hk
    · dsimp only
      rw [Function.update_of_ne hne]
      exact hinv.fresh k ((segHeaders_setHeader_of_ne _ _ hne).symm.trans hk)
  · dsimp only
    rcases eq_or_ne k i with rfl | hne
    · rw [Function.update_self]
      obtain rfl := Option.some.inj ((segHeaders_setHeader_self t.log k h').symm.trans hg)
      exact hlaid
    · rw [Function.update_of_ne hne]
      refine (hinv.laid k g ((segHeaders_setHeader_of_ne _ _ hne).symm.trans hg)).of_agree
        (houtside _ _ ?_)
      rcases segData_apart settings hne with hapart | hapart
      · exact .inl hapart
      · exact .inr hapart
  · obtain ⟨hempty, hheader, hothers⟩ := hinv.reserved v ja n hv hn
    refine ⟨?_, hsome n hheader, hothers⟩
    dsimp only
    rcases eq_or_ne n i with rfl | hne
    · rw [Function.update_self]
      rcases hreserved with hsame | hnone
      · exact hsame.trans hempty
      · exact absurd hn (hnone v ja hv)
    · rw [Function.update_of_ne hne]
      exact hempty

/-- `segment_alloc` takes a segment that has not been in use. -/
theorem WalkInv.segmentAlloc (hinv : WalkInv settings t) {mapped : Bool} {result : Option ℕ}
    (halloc : segmentAlloc settings t.log mapped = (log', result)) :
    WalkInv settings { t with log := log' } ∧
      (∀ k g, t.log.segHeaders k = some g → log'.segHeaders k = some g) ∧
      ∀ n, result = some n → t.log.segHeaders n = none ∧
        log'.segHeaders n = some ⟨none, 0, 0, settings.segsize % 2 ^ 32, false⟩ := by
  unfold Flexkvs.segmentAlloc at halloc
  rw [hinv.free] at halloc
  dsimp only [Option.bind_none] at halloc
  split at halloc
  · obtain ⟨rfl, rfl⟩ := Prod.mk.inj halloc
    exact ⟨hinv, fun _ _ hg => hg, nofun⟩
  · split at halloc
    · obtain ⟨rfl, rfl⟩ := Prod.mk.inj halloc
      have hnone : t.log.segHeaders t.log.segAlloced = none := by
        by_contra hsome
        obtain ⟨g, hg⟩ := Option.ne_none_iff_exists'.mp hsome
        exact absurd (hinv.index _ g hg) (Nat.lt_irrefl _)
      have hkept : ∀ k g, t.log.segHeaders k = some g →
          Function.update t.log.segHeaders t.log.segAlloced
            (some (⟨none, 0, 0, settings.segsize % 2 ^ 32, false⟩ : SegmentHeader)) k = some g := by
        intro k g hg
        rw [Function.update_of_ne (Nat.ne_of_lt (hinv.index k g hg))]
        exact hg
      refine ⟨⟨rfl, fun k g hg => ?_, fun k hk => ?_, fun k g hg => ?_, fun v ja hv => ?_,
        fun v ja n hv hn => ?_⟩, hkept, ?_⟩
      · change Function.update t.log.segHeaders t.log.segAlloced _ k = some g at hg
        rcases eq_or_ne k t.log.segAlloced with rfl | hne
        · exact Nat.lt_succ_self _
        · rw [Function.update_of_ne hne] at hg
          exact (hinv.index k g hg).trans (Nat.lt_succ_self _)
      · change Function.update t.log.segHeaders t.log.segAlloced _ k = none at hk
        rcases eq_or_ne k t.log.segAlloced with rfl | hne
        · rw [Function.update_self] at hk
          cases hk
        · rw [Function.update_of_ne hne] at hk
          exact hinv.fresh k hk
      · change Function.update t.log.segHeaders t.log.segAlloced _ k = some g at hg
        rcases eq_or_ne k t.log.segAlloced with rfl | hne
        · rw [Function.update_self] at hg
          obtain rfl := Option.some.inj hg
          dsimp only
          rw [hinv.fresh _ hnone]
          exact segmentLaid_init settings _ _ none
        · rw [Function.update_of_ne hne] at hg
          exact hinv.laid k g hg
      · obtain ⟨g, hg⟩ := hinv.cur v ja hv
        exact ⟨g, hkept _ g hg⟩
      · obtain ⟨hempty, ⟨g, hg⟩, hothers⟩ := hinv.reserved v ja n hv hn
        exact ⟨hempty, ⟨g, hkept n g hg⟩, hothers⟩
      · rintro n ⟨⟩
        exact ⟨hnone, Function.update_self ..⟩
    · obtain ⟨rfl, rfl⟩ := Prod.mk.inj halloc
      refine ⟨⟨rfl, fun k g hg => ?_, hinv.fresh, hinv.laid, hinv.cur, hinv.reserved⟩,
        fun _ _ hg => hg, nofun⟩
      exact (hinv.index k g hg).trans (Nat.lt_succ_self _)

/-- An allocator goes on with a segment that is its own. -/
theorem WalkInv.setAllocator (hinv : WalkInv settings t) {ia : ItemAllocator}
    (hcur : ∃ h, t.log.segHeaders ia.cur = some h)
    (hcurFree : ∀ v ja, v ≠ w → t.allocators v = some ja → ja.reserved ≠ some ia.cur)
    (hreserved : ∀ n, ia.reserved = some n → n ≠ ia.cur ∧ t.items n = [] ∧
      (∃ h, t.log.segHeaders n = some h) ∧ ∀ v ja, v ≠ w → t.allocators v = some ja →
        n ≠ ja.cur ∧ ja.reserved ≠ some n) :
    WalkInv settings { t with allocators := Function.update t.allocators w (some ia) } := by
  refine ⟨hinv.free, hinv.index, hinv.fresh, hinv.laid, fun v ja hv => ?_, fun v ja n hv hn => ?_⟩
  · dsimp only at hv
    rcases eq_or_ne v w with rfl | hne
    · rw [Function.update_self] at hv
      obtain rfl := Option.some.inj hv
      exact hcur
    · rw [Function.update_of_ne hne] at hv
      exact hinv.cur v ja hv
  · dsimp only at hv ⊢
    rcases eq_or_ne v w with rfl | hne
    · rw [Function.update_self] at hv
      obtain rfl := Option.some.inj hv
      obtain ⟨hneCur, hempty, hheader, hothers⟩ := hreserved n hn
      refine ⟨hempty, hheader, fun u ka hu => ?_⟩
      rcases eq_or_ne u v with rfl | hneU
      · rw [Function.update_self] at hu
        obtain rfl := Option.some.inj hu
        exact ⟨hneCur, fun hself => absurd rfl hself⟩
      · rw [Function.update_of_ne hneU] at hu
        obtain ⟨hneOther, hnotOther⟩ := hothers u ka hneU hu
        exact ⟨hneOther, fun _ => hnotOther⟩
    · rw [Function.update_of_ne hne] at hv
      obtain ⟨hempty, hheader, hothers⟩ := hinv.reserved v ja n hv hn
      refine ⟨hempty, hheader, fun u ka hu => ?_⟩
      rcases eq_or_ne u w with rfl | hneU
      · rw [Function.update_self] at hu
        obtain rfl := Option.some.inj hu
        refine ⟨?_, fun _ hboth => ?_⟩
        · rintro rfl
          exact hcurFree v ja hne hv hn
        · exact (hreserved n hboth).2.2.2 v ja hne hv |>.2 hn
      · rw [Function.update_of_ne hneU] at hu
        exact hothers u ka hu

/-- A segment that nobody has can be nobody's current or reserved one. -/
theorem WalkInv.unused (hinv : WalkInv settings t) (hnone : t.log.segHeaders i = none) {v : ℕ}
    {ja : ItemAllocator} (hv : t.allocators v = some ja) :
    i ≠ ja.cur ∧ ja.reserved ≠ some i := by
  constructor
  · rintro rfl
    obtain ⟨g, hg⟩ := hinv.cur v ja hv
    cases hnone.symm.trans hg
  · intro hreserved
    obtain ⟨_, ⟨g, hg⟩, _⟩ := hinv.reserved v ja i hv hreserved
    cases hnone.symm.trans hg

/-- The header of a segment is assigned again, without a change to what is laid
out. -/
theorem WalkInv.relink (hinv : WalkInv settings t) (hh : t.log.segHeaders i = some h)
    (h' : SegmentHeader) (hlaid : SegmentLaid settings t.mem i h' (t.items i)) :
    WalkInv settings { t with log := t.log.setHeader i h' } := by
  have hrewritten := hinv.rewrite hh hlaid (fun lo hi _ => Memory.AgreeOn.refl _ lo hi) (.inl rfl)
  rwa [Function.update_eq_self] at hrewritten

theorem WalkInv.takeSegment (hinv : WalkInv settings t) {mapped : Bool}
    (htake : takeSegment settings t.log mapped = some (log', i)) :
    WalkInv settings { t with log := log' } ∧ t.log.segHeaders i = none ∧
      (∃ g, log'.segHeaders i = some g) ∧
      ∀ k g, t.log.segHeaders k = some g → log'.segHeaders k = some g := by
  unfold Flexkvs.takeSegment at htake
  split at htake
  · rename_i log₁ n halloc
    obtain ⟨h, hh, hpair⟩ := Option.map_eq_some_iff.mp htake
    obtain ⟨rfl, rfl⟩ := Prod.mk.inj hpair
    obtain ⟨hinv₁, hkept, hnew⟩ := hinv.segmentAlloc halloc
    obtain ⟨hnone, _⟩ := hnew n rfl
    have hlaid : SegmentLaid settings t.mem n { h with next := none } (t.items n) :=
      (hinv₁.laid n h hh).reheader rfl rfl id
    refine ⟨WalkInv.relink hinv₁ hh _ hlaid, hnone, ⟨_, segHeaders_setHeader_self ..⟩, fun k g hg => ?_⟩
    have hne : k ≠ n := by
      rintro rfl
      cases hnone.symm.trans hg
    exact (segHeaders_setHeader_of_ne _ _ hne).trans (hkept k g hg)
  · cases htake

theorem WalkInv.init (hinv : WalkInv settings t) {mapped mapped' : Bool}
    (hstep : step settings t (.init w mapped mapped') = some next) : WalkInv settings next := by
  dsimp only [step] at hstep
  split at hstep
  · obtain ⟨⟨log', a⟩, hinit, rfl⟩ := Option.map_eq_some_iff.mp hstep
    obtain ⟨⟨log₁, cur⟩, hcur, hrest⟩ := Option.bind_eq_some_iff.mp hinit
    obtain ⟨⟨log₂, reserved⟩, hreserved, hpair⟩ := Option.map_eq_some_iff.mp hrest
    obtain ⟨rfl, rfl⟩ := Prod.mk.inj hpair
    obtain ⟨hinv₁, hcurNone, ⟨g, hg⟩, hkept₁⟩ := hinv.takeSegment hcur
    obtain ⟨hinv₂, hresNone, hresSome, hkept₂⟩ := WalkInv.takeSegment hinv₁ hreserved
    refine WalkInv.setAllocator hinv₂ ⟨g, hkept₂ cur g hg⟩
      (fun v ja _ hv => (hinv.unused hcurNone hv).2) ?_
    rintro _ ⟨⟩
    refine ⟨?_, hinv₁.fresh reserved hresNone, hresSome,
      fun v ja _ hv => WalkInv.unused hinv₁ hresNone hv⟩
    rintro rfl
    cases hresNone.symm.trans hg
  · cases hstep

/-- The segment with which an allocation goes on, linked behind the current one. -/
theorem WalkInv.nextSegment (hinv : WalkInv settings t) {ia : ItemAllocator}
    (hw : t.allocators w = some ia) (hh : t.log.segHeaders ia.cur = some h)
    (hretired : SegmentLaid settings t.mem ia.cur { h with inactive := true } (t.items ia.cur))
    {cleanup mapped : Bool} {result : Option ItemAllocator}
    (hnext : nextSegment settings t.log ia cleanup mapped = (log', result)) :
    (result = none ∧ WalkInv settings { t with log := log' }) ∨
      ∃ ia', result = some ia' ∧ ia'.cur ≠ ia.cur ∧ WalkInv settings { t with
        log := log'.setHeader ia.cur { h with next := some ia'.cur, inactive := true }
        allocators := Function.update t.allocators w (some ia') } := by
  unfold Flexkvs.nextSegment at hnext
  split at hnext
  · rename_i log₁ n halloc
    obtain ⟨rfl, rfl⟩ := Prod.mk.inj hnext
    obtain ⟨hinv₁, hkept, hnew⟩ := hinv.segmentAlloc halloc
    obtain ⟨hnone, hsome⟩ := hnew n rfl
    have hne := (hinv.unused hnone hw).1
    refine .inr ⟨_, rfl, hne, ?_⟩
    have hlinked := WalkInv.relink hinv₁ (hkept _ h hh)
      { h with next := some n, inactive := true } (hretired.reheader rfl rfl fun _ => rfl)
    refine WalkInv.setAllocator hlinked ⟨_, (segHeaders_setHeader_of_ne _ _ hne).trans hsome⟩
      (fun v ja _ hv => (hinv.unused hnone hv).2) fun k hk => ?_
    obtain ⟨hempty, hheader, hothers⟩ := hlinked.reserved w ia k hw hk
    refine ⟨?_, hempty, hheader, fun v ja hv hja => ?_⟩
    · rintro rfl
      exact (hinv.unused hnone hw).2 hk
    · exact ⟨(hothers v ja hja).1, (hothers v ja hja).2 hv⟩
  · rename_i log₁ halloc
    obtain ⟨rfl, rfl⟩ := Prod.mk.inj hnext
    obtain ⟨hinv₁, hkept, _⟩ := hinv.segmentAlloc halloc
    cases cleanup with
    | false => exact .inl ⟨rfl, hinv₁⟩
    | true =>
        rw [if_pos rfl]
        cases hreserved : ia.reserved with
        | none => exact .inl ⟨rfl, hinv₁⟩
        | some n =>
            obtain ⟨_, ⟨g, hg⟩, hothers⟩ := hinv.reserved w ia n hw hreserved
            have hne := (hothers w ia hw).1
            refine .inr ⟨_, rfl, hne, ?_⟩
            have hlinked := WalkInv.relink hinv₁ (hkept _ h hh)
              { h with next := some n, inactive := true } (hretired.reheader rfl rfl fun _ => rfl)
            exact WalkInv.setAllocator hlinked
              ⟨g, (segHeaders_setHeader_of_ne _ _ hne).trans (hkept n g hg)⟩
              (fun v ja hv hja => (hothers v ja hja).2 hv) nofun

/-- An item is allocated in the current segment and filled in, or the segment is
full. -/
theorem WalkInv.allocItem (hinv : WalkInv settings t) {ia : ItemAllocator}
    (hw : t.allocators w = some ia) (hh : t.log.segHeaders ia.cur = some h) (hv : UInt32)
    {key value : List UInt8} (hkey : key.length < 65536) (hvalue : value.length < 2 ^ 32)
    {result : Option ℕ}
    (halloc : segmentItemAlloc settings t.mem ia.cur h (sizeofItem + value.length + key.length) =
      (m', h', result)) :
    (result = none ∧ SegmentLaid settings m' ia.cur { h' with inactive := true } (t.items ia.cur) ∧
        WalkInv settings { t with mem := m', log := t.log.setHeader ia.cur h' }) ∨
      ∃ it, result = some it ∧ settings.segBase ≤ it ∧ WalkInv settings { t with
        mem := fillItem m' it hv.toNat key value
        log := t.log.setHeader ia.cur h'
        items := Function.update t.items ia.cur
          (t.items ia.cur ++ [sizeofItem + value.length + key.length]) } := by
  have hlaid := hinv.laid ia.cur h hh
  obtain ⟨houtside, ⟨rfl, hretired⟩ | ⟨rfl, rfl, hroom, rfl, hactive⟩⟩ :=
    hlaid.segmentItemAlloc (Nat.le_add_right_of_le (Nat.le_add_right _ _)) halloc
  · refine .inl ⟨rfl, hretired, ?_⟩
    have hfull : SegmentLaid settings m' ia.cur h' (t.items ia.cur) :=
      hretired.reheader rfl rfl fun _ => rfl
    have hrewritten := hinv.rewrite hh hfull houtside (.inl rfl)
    rwa [Function.update_eq_self] at hrewritten
  · obtain ⟨houtside, hfilled⟩ := hlaid.filled hv hkey hvalue hroom hactive
    have hbase : settings.segBase ≤ segData settings ia.cur + (t.items ia.cur).sum := by
      unfold segData
      omega
    refine .inr ⟨_, rfl, hbase, hinv.rewrite hh hfilled houtside
      (.inr fun v ja hja hreserved => ?_)⟩
    exact ((hinv.reserved v ja ia.cur hja hreserved).2.2 w ia hw).1 rfl

theorem WalkInv.alloc (hbase : settings.segBase ≠ 0) (hinv : WalkInv settings t) {hv : UInt32}
    {key value : List UInt8} {cleanup mapped : Bool}
    (hstep : step settings t (.alloc w hv key value cleanup mapped) = some next) :
    WalkInv settings next := by
  obtain ⟨ia, hw, hstep⟩ := Option.bind_eq_some_iff.mp hstep
  have hsame : Function.update t.allocators w (some ia) = t.allocators := by
    rw [← hw, Function.update_eq_self]
  split at hstep
  · rename_i hlengths
    obtain ⟨hkey, hvalue⟩ := hlengths
    obtain ⟨⟨m', log', ia', it⟩, halloc, rfl⟩ := Option.map_eq_some_iff.mp hstep
    unfold iallocAlloc at halloc
    split at halloc
    · split at halloc
      · -- only cleanup may allocate
        cases halloc
        dsimp only
        rw [if_pos rfl, hsame]
        exact hinv
      · obtain ⟨old, hold, halloc⟩ := Option.bind_eq_some_iff.mp halloc
        split at halloc
        · rename_i middle h result hfirst
          rcases hinv.allocItem hw hold hv hkey hvalue hfirst with
            ⟨hnone, _⟩ | ⟨it', hsome, hle, hplaced⟩
          · cases hnone
          · obtain rfl := Option.some.inj hsome
            cases halloc
            have hit : it ≠ 0 := by omega
            dsimp only
            rw [if_neg hit, hsame]
            exact hplaced
        · rename_i middle h hfirst
          rcases hinv.allocItem hw hold hv hkey hvalue hfirst with
            ⟨_, hretired, hfull⟩ | ⟨it', hsome, _⟩
          swap
          · cases hsome
          have hh : (t.log.setHeader ia.cur h).segHeaders ia.cur = some h :=
            segHeaders_setHeader_self ..
          split at halloc
          · rename_i log₁ hwent
            rcases WalkInv.nextSegment hfull hw hh hretired hwent with
              ⟨_, hafter⟩ | ⟨_, hsome, _⟩
            · cases halloc
              dsimp only
              rw [if_pos rfl, hsame]
              exact hafter
            · cases hsome
          · rename_i log₁ next' hwent
            rcases WalkInv.nextSegment hfull hw hh hretired hwent with
              ⟨hnone, _⟩ | ⟨ia₁, hsome, hne, hafter⟩
            · cases hnone
            obtain rfl := Option.some.inj hsome
            obtain ⟨g, hg, halloc⟩ := Option.bind_eq_some_iff.mp halloc
            split at halloc
            rename_i m₂ h₂ result hlast
            cases halloc
            have hnow := WalkInv.relink hafter hg { g with next := none }
              ((hafter.laid _ g hg).reheader rfl rfl id)
            rcases WalkInv.allocItem hnow (Function.update_self ..)
              (segHeaders_setHeader_self ..) hv hkey hvalue hlast with
              ⟨rfl, _, hfinal⟩ | ⟨it', rfl, hle, hfinal⟩
            · rw [setHeader_setHeader] at hfinal
              exact hfinal
            · have hit : it' ≠ 0 := by omega
              rw [setHeader_setHeader] at hfinal
              dsimp only
              rw [Option.getD_some, if_neg hit]
              exact hfinal
    · cases halloc
  · cases hstep

theorem WalkInv.step (hbase : settings.segBase ≠ 0) {action : WalkAction}
    (hinv : WalkInv settings t) (hstep : WalkRun.step settings t action = some next) :
    WalkInv settings next := by
  cases action with
  | init w mapped mapped' => exact hinv.init hstep
  | alloc w hv key value cleanup mapped => exact hinv.alloc hbase hstep

/-- After any allocations the scan of a retired segment visits its items and ends
where the segment does, exactly if the tail that the items leave fits into a
filler. -/
theorem walks_iff (settings : Settings) (hbase : settings.segBase ≠ 0) (mem : Memory)
    (actions : List WalkAction) :
    Transition.Along (step settings)
      (fun t => ∀ i h, t.log.segHeaders i = some h → h.inactive = true →
        (t.Walks settings i h ↔ t.TailFits i h)) (initial mem) actions :=
  Transition.along_of_step (WalkInv settings)
    (fun _ hinv i h hh hinactive => (hinv.laid i h hh).scan_iff hinactive)
    (fun _ _ _ hinv hstep => WalkInv.step hbase hinv hstep) (walkInv_initial settings mem)

/-- Segments of 256 bytes. -/
def shortSettings : Settings := ⟨4096, 256, 4, by decide⟩

/-- Two items, the second of which does not fit behind the first. -/
def twoSegmentActions : List WalkAction :=
  [.init 0 true true, .alloc 0 0 [] (List.replicate 176 0) false true,
    .alloc 0 0 [] (List.replicate 76 0) false true]

theorem walks_iff_twoSegmentActions :
    Transition.Along (step shortSettings)
      (fun t => ∀ i h, t.log.segHeaders i = some h → h.inactive = true →
        (t.Walks shortSettings i h ↔ t.TailFits i h)) (initial fun _ => 0) twoSegmentActions :=
  walks_iff shortSettings (by decide) _ twoSegmentActions

/-- Segments of a tenth of a megabyte. -/
def longSettings : Settings := ⟨4096, 102400, 4, by decide⟩

/-- A small item, and one that does not fit behind it. -/
def longTailActions : List WalkAction :=
  [.init 0 true true, .alloc 0 0 [] [0] false true,
    .alloc 0 0 [] (List.replicate 102375 0) false true]

/-- The filler of the long tail is cut, and the scan reads another header. -/
theorem not_walks :
    ∃ t i h, Transition.run (step longSettings) (initial fun _ => 0) longTailActions = some t ∧
      t.log.segHeaders i = some h ∧ h.inactive = true ∧ ¬t.Walks longSettings i h := by
  have hlength : (List.replicate 102375 (0 : UInt8)).length = 102375 := List.length_replicate
  have hrun : (Transition.run (step longSettings) (initial fun _ => 0) longTailActions).map
      (fun t => (t.log.segHeaders 0, t.items 0)) =
      some (some ⟨some 2, 102400, 102375, 102400, true⟩, [25]) := by
    simp only [longTailActions, Transition.run, step, hlength]
    decide +kernel
  obtain ⟨t, ht, hstate⟩ := Option.map_eq_some_iff.mp hrun
  obtain ⟨hh, hitems⟩ := Prod.mk.inj hstate
  have hinv := Transition.run_preserves (WalkInv longSettings)
    (fun _ _ _ hinv hstep => WalkInv.step (by decide) hinv hstep) (walkInv_initial _ _) ht
  refine ⟨t, 0, _, ht, hh, rfl, fun hwalks => ?_⟩
  have hfits := ((hinv.laid 0 _ hh).scan_iff rfl).mp hwalks
  rw [hitems] at hfits
  exact absurd hfits (by decide)

end WalkRun

end ArmsTiering.Flexkvs
