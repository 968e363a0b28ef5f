import ArmsTiering.Flexkvs.Layout

/-!
# The log

Items are allocated one after the other in segments of the log.  A segment that
has no room for an item is retired and the next one is taken.  The bytes of freed
items are only counted.
-/

namespace ArmsTiering.Flexkvs

/-- The mapping of the log, which lies in the address space, and the settings
that the allocator uses. -/
structure Settings where
  segBase : ℕ
  segsize : ℕ
  segmaxnum : ℕ
  bound : segBase + segsize * segmaxnum ≤ 2 ^ 64

/-- `struct segment_header`; `data` is given by the index in `seg_headers`, and
segments are named by that index. -/
structure SegmentHeader where
  next : Option ℕ
  offset : ℕ
  freed : ℕ
  size : ℕ
  /-- `SF_INACTIVE` in `flags` -/
  inactive : Bool
  deriving DecidableEq

/-- The global variables of the allocator. -/
structure Log where
  freeSegments : Option ℕ
  segHeaders : ℕ → Option SegmentHeader
  segAlloced : ℕ

def Log.initial : Log where
  freeSegments := none
  segHeaders := fun _ => none
  segAlloced := 0

/-- The part of `struct item_allocator` that allocations use. -/
structure ItemAllocator where
  reserved : Option ℕ
  cur : ℕ
  deriving DecidableEq

/-- The assignments behind `init_h`. -/
def SegmentHeader.init (h : SegmentHeader) : SegmentHeader :=
  { h with offset := 0, freed := 0, inactive := false }

def Log.setHeader (log : Log) (i : ℕ) (h : SegmentHeader) : Log :=
  { log with segHeaders := Function.update log.segHeaders i (some h) }

section

variable (settings : Settings)

/-- `data` of the segment `i` -/
def segData (i : ℕ) : ℕ := settings.segBase + settings.segsize * i

/-- `segment_alloc`; `mapped` is the outcome of `mprotect` and `malloc`. -/
def segmentAlloc (log : Log) (mapped : Bool) : Log × Option ℕ :=
  match log.freeSegments.bind fun i => (log.segHeaders i).map fun h => (i, h) with
  | some (i, h) => ({ log with freeSegments := h.next }.setHeader i h.init, some i)
  | none =>
      if settings.segmaxnum ≤ log.segAlloced then (log, none)
      else
        let next := { log with segAlloced := log.segAlloced + 1 }
        if mapped then
          (next.setHeader log.segAlloced ⟨none, 0, 0, settings.segsize % 2 ^ 32, false⟩,
            some log.segAlloced)
        else (next, none)

/-- `segment_from_part`, with the header; undefined where its assertion fails or
there is no header. -/
def segmentFromPart (log : Log) (data : ℕ) : Option (ℕ × SegmentHeader) :=
  let i := (data - settings.segBase) / settings.segsize
  if i < settings.segmaxnum then (log.segHeaders i).map fun h => (i, h) else none

/-- `segment_item_free` -/
def segmentItemFree (h : SegmentHeader) (total : ℕ) : SegmentHeader :=
  { h with freed := (h.freed + total) % 2 ^ 32 }

/-- `ialloc_free` -/
def iallocFree (log : Log) (it total : ℕ) : Option Log :=
  (segmentFromPart settings log it).map fun part =>
    log.setHeader part.1 (segmentItemFree part.2 total)

/-- The bytes that are left in a segment. -/
def SegmentHeader.avail (h : SegmentHeader) : ℕ := (h.size + 2 ^ 32 - h.offset) % 2 ^ 32

/-- `segment_item_alloc` on the segment `i`.  A retired tail is filled with an
item that nobody refers to. -/
def segmentItemAlloc (m : Memory) (i : ℕ) (h : SegmentHeader) (total : ℕ) :
    Memory × SegmentHeader × Option ℕ :=
  let it := segData settings i + h.offset
  if h.avail = 0 then (m, h, none)
  else if h.avail < total then
    let m := if sizeofItem ≤ h.avail then
        setVallen (setKeylen (setRefcount m it 0) it (h.avail - sizeofItem)) it 0
      else m
    (m, { segmentItemFree h h.avail with offset := (h.offset + h.avail) % 2 ^ 32 }, none)
  else (setRefcount m it 1, { h with offset := (h.offset + total) % 2 ^ 32 }, some it)

/-- The segment with which `ialloc_alloc` goes on: a new one, or the reserved one
for cleanup. -/
def nextSegment (log : Log) (ia : ItemAllocator) (cleanup mapped : Bool) :
    Log × Option ItemAllocator :=
  match segmentAlloc settings log mapped with
  | (log, some i) => (log, some { ia with cur := i })
  | (log, none) =>
      (log, if cleanup then ia.reserved.map fun i => { reserved := none, cur := i } else none)

/-- `ialloc_alloc`: the memory, the log, the allocator, and the item or `NULL`.
It is undefined where the assertion fails or a header is missing. -/
def iallocAlloc (m : Memory) (log : Log) (ia : ItemAllocator) (total : ℕ) (cleanup mapped : Bool) :
    Option (Memory × Log × ItemAllocator × ℕ) :=
  if total < settings.segsize then
    if ia.reserved = none ∧ cleanup = false then some (m, log, ia, 0)
    else
      (log.segHeaders ia.cur).bind fun old =>
        match segmentItemAlloc settings m ia.cur old total with
        | (m, old, some it) => some (m, log.setHeader ia.cur old, ia, it)
        | (m, old, none) =>
            match nextSegment settings (log.setHeader ia.cur old) ia cleanup mapped with
            | (log, none) => some (m, log, ia, 0)
            | (log, some next) =>
                let log := log.setHeader ia.cur { old with next := some next.cur, inactive := true }
                (log.segHeaders next.cur).bind fun h =>
                  match segmentItemAlloc settings m next.cur { h with next := none } total with
                  | (m, h, it) => some (m, log.setHeader next.cur h, next, it.getD 0)
  else none

end

end ArmsTiering.Flexkvs
