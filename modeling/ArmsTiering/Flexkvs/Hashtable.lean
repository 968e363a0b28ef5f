import ArmsTiering.Flexkvs.Log

/-!
# The hash table

A bucket has five slots, each with an item and its hash.  Items that find no
free slot are chained behind the item of the last slot.  Both operations run
under the lock of their bucket, and so are single steps.
-/

namespace ArmsTiering.Flexkvs

def bucketNitems : ℕ := 5

/-- `TABLESZ(HASHTABLE_POWER)` -/
def nbuckets : ℕ := 2 ^ 31

structure HashBucket where
  items : Fin bucketNitems → ℕ
  hashes : Fin bucketNitems → ℕ

/-- The state of the server: the memory of the log, the table and the allocator. -/
structure Store where
  mem : Memory
  buckets : ℕ → HashBucket
  log : Log

def HashBucket.empty : HashBucket where
  items := fun _ => 0
  hashes := fun _ => 0

/-- The store after start-up, with arbitrary bytes in the log. -/
def Store.initial (mem : Memory) : Store where
  mem := mem
  buckets := fun _ => .empty
  log := .initial

/-- `BUCKET_NITEMS - 1` -/
def lastSlot : Fin bucketNitems := ⟨bucketNitems - 1, by decide⟩

/-! ## Reference counts -/

/-- `item_ref`; undefined where its assertion fails. -/
def itemRef (m : Memory) (it : ℕ) : Option Memory :=
  let old := (itemRefcount m it + 1) % 65536
  if old = 1 then none else some (setRefcount m it old)

/-- `item_unref`; undefined where its assertion fails. -/
def itemUnref (settings : Settings) (s : Store) (it : ℕ) : Option Store :=
  if itemRefcount s.mem it = 0 then none
  else
    let c := itemRefcount s.mem it - 1
    let s := { s with mem := setRefcount s.mem it c }
    if c = 0 then
      (iallocFree settings s.log it (itemTotalsz s.mem it)).map fun log => { s with log := log }
    else some s

/-! ## Lookups -/

section

variable (m : Memory)

/-- `item_key_matches` -/
def itemKeyMatches (it : ℕ) (key : List UInt8) : Bool :=
  key.length = itemKeylen m it ∧ m.read (itemKey it) key.length = key

/-- `item_hkey_matches` -/
def itemHkeyMatches (it : ℕ) (key : List UInt8) (hv : ℕ) : Bool :=
  itemHv m it = hv ∧ itemKeyMatches m it key

/-- The slot in which the first loop of both operations finds the key. -/
def findSlot (b : HashBucket) (key : List UInt8) (hv : ℕ) : Option (Fin bucketNitems) :=
  (List.finRange bucketNitems).find? fun i =>
    b.items i ≠ 0 ∧ b.hashes i = hv ∧ itemKeyMatches m (b.items i) key

/-- The loop along the chain.  It ends with the item, or `NULL`, and the item
before it; a chain with more items than there are addresses never ends. -/
def findChain (key : List UInt8) (hv : ℕ) : ℕ → ℕ → ℕ → Option (ℕ × ℕ)
  | 0, _, _ => none
  | fuel + 1, prev, it =>
      if it ≠ 0 ∧ itemHkeyMatches m it key hv = false then
        findChain key hv fuel it (itemNext m it)
      else some (prev, it)

/-- The search behind the last slot. -/
def searchChain (b : HashBucket) (key : List UInt8) (hv : ℕ) : Option (ℕ × ℕ) :=
  findChain m key hv (2 ^ 64) (b.items lastSlot) (itemNext m (b.items lastSlot))

end

/-- The result of `hasht_get`, with a reference taken. -/
def Store.refFound (s : Store) (it : ℕ) : Option (Store × ℕ) :=
  if it ≠ 0 then (itemRef s.mem it).map fun m => ({ s with mem := m }, it) else some (s, 0)

def hashtGet (s : Store) (key : List UInt8) (hv : ℕ) : Option (Store × ℕ) :=
  let b := s.buckets (hv % nbuckets)
  match findSlot s.mem b key hv with
  | some i => s.refFound (b.items i)
  | none =>
      if b.items lastSlot ≠ 0 then
        (searchChain s.mem b key hv).bind fun found => s.refFound found.2
      else s.refFound (b.items lastSlot)

/-! ## Insertion -/

def Store.setBucket (s : Store) (hv : ℕ) (b : HashBucket) : Store :=
  { s with buckets := Function.update s.buckets (hv % nbuckets) b }

/-- The slot for a new item: the last one that is free, otherwise the last one. -/
def freeSlot (b : HashBucket) : Fin bucketNitems :=
  ((List.finRange bucketNitems).reverse.find? fun i => b.items i = 0).getD lastSlot

/-- Replacing the item of a slot. -/
def replaceSlot (settings : Settings) (s : Store) (nit hv : ℕ) (i : Fin bucketNitems) :
    Option Store :=
  let b := s.buckets (hv % nbuckets)
  let it := b.items i
  (itemRef s.mem nit).bind fun m =>
    let m := setNext m nit (itemNext m it)
    itemUnref settings
      ({ s with mem := m }.setBucket hv { b with items := Function.update b.items i nit }) it

/-- Sticking a new item in a slot. -/
def insertSlot (s : Store) (nit hv : ℕ) : Store :=
  let b := s.buckets (hv % nbuckets)
  let di := freeSlot b
  { s with mem := setNext s.mem nit (b.items di) }.setBucket hv
    ⟨Function.update b.items di nit, Function.update b.hashes di hv⟩

/-- `hasht_put`; undefined where an assertion fails. -/
def hashtPut (settings : Settings) (s : Store) (nit cas : ℕ) : Option Store :=
  let hv := itemHv s.mem nit
  let key := s.mem.read (itemKey nit) (itemKeylen s.mem nit)
  let b := s.buckets (hv % nbuckets)
  match findSlot s.mem b key hv with
  | some i =>
      if cas ≠ 0 ∧ cas ≠ b.items i then some s
      else if nit = b.items i then none
      else replaceSlot settings s nit hv i
  | none =>
      if cas ≠ 0 then some s
      else
        (itemRef s.mem nit).bind fun m =>
          let s := { s with mem := m }
          if b.items lastSlot ≠ 0 then
            (searchChain m b key hv).bind fun (prev, it) =>
              if it ≠ 0 then
                let m := setNext m nit (itemNext m it)
                itemUnref settings { s with mem := setNext m prev nit } it
              else some (insertSlot s nit hv)
          else some (insertSlot s nit hv)

end ArmsTiering.Flexkvs
