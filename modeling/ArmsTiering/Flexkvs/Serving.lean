import ArmsTiering.Flexkvs.Recycling
import ArmsTiering.Flexkvs.Request
import ArmsTiering.Flexkvs.Table

/-!
# Serving requests one after another

Runs of requests, each of which is handled to completion before the next.  A SET
of a stored key rewrites its item in place, and a DELETE counts the item as freed
but leaves it in the table.
-/

namespace ArmsTiering.Flexkvs

/-- What the history says about a key that has been stored. -/
structure Entry where
  /-- the item that was allocated for the key -/
  it : ℕ
  /-- the length of the value that it was allocated for -/
  room : ℕ
  /-- the value of the last SET -/
  value : List UInt8
  /-- a DELETE has been answered with success since -/
  deleted : Bool
  deriving DecidableEq

/-- The last response, and what had been stored for its key. -/
structure Answer where
  command : Command
  before : Option Entry
  response : Response
  deriving DecidableEq

/-- A request as it lies in the receive buffer of a connection; the counters of
the connection have 16 bits. -/
structure Arrival where
  worker : ℕ
  connection : ℕ
  rx : Memory
  rxLen : UInt16
  rxOff : UInt16
  txLen : UInt16
  /-- the outcome of `mprotect` and `malloc` -/
  mapped : Bool

inductive ServingAction
  | start (w : ℕ) (mapped mapped' : Bool)
  | request (r : Arrival)

/-- The server with the history of its requests. -/
structure Serving where
  store : Store
  allocators : ℕ → Option ItemAllocator
  connections : ℕ → Connection
  entries : List UInt8 → Option Entry
  /-- the sizes of the items of stored keys -/
  live : ℕ → ℕ
  answer : Option Answer
  /-- an assertion has failed, `NULL` is used, or no response is sent -/
  failed : Bool

namespace Arrival

def header (r : Arrival) : RequestHeader := requestHeader r.rx r.rxOff.toNat

def key (r : Arrival) (command : Command) : List UInt8 :=
  (command.key r.rxOff.toNat r.header).read r.rx

def value (r : Arrival) (command : Command) : List UInt8 :=
  (command.value r.rxOff.toNat r.header).read r.rx

/-- A complete request whose parts have the lengths that they should have. -/
def WellFormed (r : Arrival) (command : Command) : Prop :=
  connReqIscomp r.rx r.rxLen.toNat r.rxOff.toNat = true ∧
    match command with
    | .get | .delete => r.header.keylen ≤ r.header.bodylen
    | .set => r.header.extlen = 8 ∧ r.header.keylen + r.header.extlen ≤ r.header.bodylen

instance (r : Arrival) (command : Command) : Decidable (r.WellFormed command) := by
  unfold WellFormed
  cases command <;> infer_instance

end Arrival

section

variable (settings : Settings) (hash : List UInt8 → UInt32)

/-- A request is handled to completion: if its response has to wait, the transmit
buffer is sent first. -/
def handle (s : Store) (ia : ItemAllocator) (rx : Memory) (c : Connection) (mapped : Bool) :
    Option (Store × ItemAllocator × Connection × ProcessOutcome) :=
  (connReqProcess settings hash s ia rx c mapped).bind fun (s, ia, c, outcome) =>
    match outcome with
    | .waiting => connReqProcess settings hash s ia rx { c with txLen := 0 } mapped
    | outcome => some (s, ia, c, outcome)

end

namespace Serving

def initial (mem : Memory) : Serving where
  store := .initial mem
  allocators := fun _ => none
  connections := fun _ => ⟨0, 0, 0, false⟩
  entries := fun _ => none
  live := fun _ => 0
  answer := none
  failed := false

/-- The entries after a request with the given response. -/
def entriesAfter (entries : List UInt8 → Option Entry) (command : Command)
    (key value : List UInt8) (it : ℕ) (response : Response) : List UInt8 → Option Entry :=
  match command with
  | .get => entries
  | .set => Function.update entries key (some (match entries key with
      | none => ⟨it, value.length, value, false⟩
      | some e => { e with value := value, deleted := false }))
  | .delete =>
      if response.status = statusSuccess then
        Function.update entries key ((entries key).map fun e => { e with deleted := true })
      else entries

/-- The live items after a request: that of a SET holds a stored key, that of a
DELETE no longer does. -/
def liveAfter (live : ℕ → ℕ) (before : Option Entry) (command : Command) (key value : List UInt8)
    (it : ℕ) (response : Response) : ℕ → ℕ :=
  match command with
  | .get => live
  | .set => Function.update live it
      (sizeofItem + key.length + (before.map Entry.room).getD value.length)
  | .delete => if response.status = statusSuccess then Function.update live it 0 else live

/-- The state after a request. -/
def answered (t : Serving) (r : Arrival) (command : Command) (store : Store) (ia : ItemAllocator)
    (c : Connection) (response : Response) : Serving where
  store := store
  allocators := Function.update t.allocators r.worker (some ia)
  connections := Function.update t.connections r.connection c
  entries := entriesAfter t.entries command (r.key command) (r.value command) c.it response
  live := liveAfter t.live (t.entries (r.key command)) command (r.key command) (r.value command)
    c.it response
  answer := some ⟨command, t.entries (r.key command), response⟩
  failed := false

/-- The connection when the request is handled. -/
def connection (t : Serving) (r : Arrival) : Connection :=
  { t.connections r.connection with rxOff := r.rxOff.toNat, txLen := r.txLen.toNat }

def step (settings : Settings) (hash : List UInt8 → UInt32) (t : Serving) :
    ServingAction → Option Serving
  | .start w mapped mapped' =>
      if t.failed = false ∧ t.allocators w = none then
        (iallocInitAllocator settings t.store.log mapped mapped').map fun (log, a) =>
          { t with
            store := { t.store with log := log }
            allocators := Function.update t.allocators w (some a.ia)
            answer := none }
      else none
  | .request r =>
      r.header.command.bind fun command =>
        (t.allocators r.worker).bind fun ia =>
          if t.failed = false ∧ r.WellFormed command then
            match handle settings hash t.store ia r.rx (t.connection r) r.mapped with
            | some (store, ia, c, .answered response) =>
                some (t.answered r command store ia c response)
            | _ => some { t with answer := none, failed := true }
          else none

/-- A GET is answered with the value of the last SET of its key, and every stored
item holds its key and value. -/
structure ServesMap (hash : List UInt8 → UInt32) (t : Serving) : Prop where
  running : t.failed = false
  answered : ∀ answer, t.answer = some answer → answer.command = .get →
    match answer.before with
    | none => answer.response.status = statusEnoent
    | some e => answer.response.status = statusSuccess ∧
        answer.response.body = [0, 0, 0, 0] ++ e.value ∧
        answer.response.bodylen = 4 + e.value.length
  stored : ∀ key e, t.entries key = some e →
    contentAt t.store.mem e.it = ⟨(hash key).toNat, e.value.length, key.length, key, e.value⟩

/-- A deleted key is not found, a stored one can be deleted, and everything that
has been allocated of a segment is either counted as freed, once, or holds a
stored key. -/
structure DeletionFinal (settings : Settings) (t : Serving) : Prop where
  running : t.failed = false
  gone : ∀ answer e, t.answer = some answer → answer.before = some e → e.deleted = true →
    answer.command ≠ .set → answer.response.status = statusEnoent
  deleted : ∀ answer e, t.answer = some answer → answer.before = some e → e.deleted = false →
    answer.command = .delete → answer.response.status = statusSuccess
  counted : ∀ i h, t.store.log.segHeaders i = some h →
    h.freed + liveBytes settings t.live i = h.offset

/-- The allocation that a SET of a new key makes succeeds. -/
def AllocSucceeds (settings : Settings) (t : Serving) (ia : ItemAllocator) (total : ℕ)
    (mapped : Bool) : Prop :=
  (iallocAlloc settings t.store.mem t.store.log ia total false mapped).any (fun result =>
    result.2.2.2 ≠ 0) = true

instance (settings : Settings) (t : Serving) (ia : ItemAllocator) (total : ℕ) (mapped : Bool) :
    Decidable (t.AllocSucceeds settings ia total mapped) :=
  inferInstanceAs (Decidable (_ = true))

/-- The request does not name a deleted key; a SET has an item that is long enough
for its value; a DELETE finds the item as it was allocated, and not at the start
of a page. -/
def Harmless (settings : Settings) (t : Serving) : ServingAction → Prop
  | .start _ _ _ => True
  | .request r => ∀ command ∈ r.header.command, ∀ ia ∈ t.allocators r.worker,
      match t.entries (r.key command) with
      | none => command = .set → t.AllocSucceeds settings ia
          (sizeofItem + (r.key command).length + (r.value command).length) r.mapped
      | some e => e.deleted = false ∧ (command = .set → (r.value command).length ≤ e.room) ∧
          (command = .delete → e.value.length = e.room ∧ e.it % 4096 ≠ 0)

instance (settings : Settings) (t : Serving) (action : ServingAction) :
    Decidable (t.Harmless settings action) := by
  cases action with
  | start w mapped mapped' => exact isTrue trivial
  | request r =>
      have hmatch : ∀ command ia, Decidable (match t.entries (r.key command) with
          | none => command = .set → t.AllocSucceeds settings ia
              (sizeofItem + (r.key command).length + (r.value command).length) r.mapped
          | some e => e.deleted = false ∧ (command = .set → (r.value command).length ≤ e.room) ∧
              (command = .delete → e.value.length = e.room ∧ e.it % 4096 ≠ 0)) := by
        intro command ia
        cases t.entries (r.key command) <;> infer_instance
      unfold Harmless
      infer_instance

/-- The request is a GET or a SET; a SET has an item that is long enough for its
value. -/
def Fitting (settings : Settings) (t : Serving) : ServingAction → Prop
  | .start _ _ _ => True
  | .request r => ∀ command ∈ r.header.command, ∀ ia ∈ t.allocators r.worker,
      command ≠ .delete ∧ match t.entries (r.key command) with
      | none => command = .set → t.AllocSucceeds settings ia
          (sizeofItem + (r.key command).length + (r.value command).length) r.mapped
      | some e => command = .set → (r.value command).length ≤ e.room

instance (settings : Settings) (t : Serving) (action : ServingAction) :
    Decidable (t.Fitting settings action) := by
  cases action with
  | start w mapped mapped' => exact isTrue trivial
  | request r =>
      have hmatch : ∀ command ia, Decidable (command ≠ .delete ∧
          match t.entries (r.key command) with
          | none => command = .set → t.AllocSucceeds settings ia
              (sizeofItem + (r.key command).length + (r.value command).length) r.mapped
          | some e => command = .set → (r.value command).length ≤ e.room) := by
        intro command ia
        cases t.entries (r.key command) <;> infer_instance
      unfold Fitting
      infer_instance

end Serving

/-! ## The invariant of the store -/

/-- The item of a stored key. -/
structure StoredAt (hash : List UInt8 → UInt32) (m : Memory) (extent live : ℕ → ℕ)
    (key : List UInt8) (e : Entry) : Prop where
  size : extent e.it = sizeofItem + key.length + e.room
  content : contentAt m e.it = ⟨(hash key).toNat, e.value.length, key.length, key, e.value⟩
  refcount : itemRefcount m e.it = if e.deleted then 2 else 1
  live : live e.it = if e.deleted then 0 else extent e.it
  short : key.length < 65536 ∧ e.value.length < 65536

/-- The table links the items of the stored keys, and no segment is recycled. -/
structure Stored (settings : Settings) (hash : List UInt8 → UInt32) (s : Store)
    (allocators : ℕ → Option ItemAllocator) (entries : List UInt8 → Option Entry)
    (extent live : ℕ → ℕ) (chains segments : ℕ → List ℕ) (place : ℕ → Place) : Prop where
  laid : Laid s.mem extent
  table : TableInv hash s extent chains
  log : LogInv settings s.log allocators segments place [] extent live
  linked : ∀ p, s.Linked chains p ↔ ∃ key e, entries key = some e ∧ e.it = p
  entry : ∀ key e, entries key = some e → StoredAt hash s.mem extent live key e

namespace Stored

variable {settings : Settings} {hash : List UInt8 → UInt32} {s : Store}
  {allocators : ℕ → Option ItemAllocator} {entries : List UInt8 → Option Entry}
  {extent live : ℕ → ℕ} {chains segments : ℕ → List ℕ} {place : ℕ → Place}
  {key key' value : List UInt8} {e e' : Entry}

theorem extent_ne_zero
    (hstored : Stored settings hash s allocators entries extent live chains segments place)
    (he : entries key = some e) : extent e.it ≠ 0 := by
  have hsize := (hstored.entry key e he).size
  have hheader : sizeofItem = 24 := rfl
  omega

/-- Stored keys have items of their own. -/
theorem it_ne
    (hstored : Stored settings hash s allocators entries extent live chains segments place)
    (he : entries key = some e) (he' : entries key' = some e') (hne : key' ≠ key) :
    e'.it ≠ e.it := by
  intro heq
  have hcontent := (hstored.entry key e he).content
  have hcontent' := (hstored.entry key' e' he').content
  rw [heq, hcontent] at hcontent'
  exact hne (congrArg Content.key hcontent').symm

/-- A lookup finds the item of a stored key. -/
theorem hashtGet_stored
    (hstored : Stored settings hash s allocators entries extent live chains segments place)
    (he : entries key = some e) :
    hashtGet s key (hash key).toNat = some
      ({ s with mem := setRefcount s.mem e.it (itemRefcount s.mem e.it + 1) }, e.it) := by
  have hentry := hstored.entry key e he
  have hrefcount := hentry.refcount
  have hkey : (contentAt s.mem e.it).key = key := by rw [hentry.content]
  have hlinked : s.Linked chains e.it := (hstored.linked e.it).mpr ⟨key, e, he, rfl⟩
  rcases hstored.table.hashtGet_cases hstored.laid key with ⟨p, hp, hpKey, hget⟩ | ⟨hnone, _⟩
  · obtain rfl := hstored.table.eq_of_key hp hlinked (hpKey.trans hkey.symm)
    have hne := hstored.laid.ne_zero (hstored.extent_ne_zero he)
    rw [hget, Store.refFound, if_pos hne, itemRef_eq]
    · rfl
    · rw [hrefcount]
      split <;> decide
    · rw [hrefcount]
      split <;> decide
  · exact absurd hkey (hnone e.it hlinked)

/-- A lookup of a key that is not stored finds nothing. -/
theorem hashtGet_missing
    (hstored : Stored settings hash s allocators entries extent live chains segments place)
    (he : entries key = none) : hashtGet s key (hash key).toNat = some (s, 0) := by
  rcases hstored.table.hashtGet_cases hstored.laid key with ⟨p, hp, hpKey, _⟩ | ⟨_, hget⟩
  · obtain ⟨key', e, he', rfl⟩ := (hstored.linked p).mp hp
    rw [(hstored.entry key' e he').content] at hpKey
    obtain rfl : key' = key := hpKey
    rw [he] at he'
    cases he'
  · exact hget

/-- Dropping the reference of a lookup. -/
theorem itemUnref_found {m : Memory} {log : Log} {buckets : ℕ → HashBucket} {it : ℕ}
    (hrefcount : itemRefcount m it = 2) :
    itemUnref settings ⟨m, buckets, log⟩ it = some ⟨setRefcount m it 1, buckets, log⟩ := by
  rw [itemUnref_eq]
  · dsimp only
    rw [hrefcount]
    rfl
  · dsimp only
    omega
  · intro hone
    dsimp only at hone
    omega

/-! ## A SET of a stored key -/

/-- The memory after a SET of a stored key. -/
def rewritten (m : Memory) (it hv : ℕ) (key value : List UInt8) : Memory :=
  setRefcount (fillItem (setRefcount m it 2) it hv key value) it 1

theorem agree_rewritten (hlaid : Laid s.mem extent) {it q hv : ℕ} (hkey : key.length < 65536)
    (hit : extent it ≠ 0) (hq : extent q ≠ 0) (hne : q ≠ it)
    (hfits : sizeofItem + value.length + key.length ≤ extent it) :
    Memory.AgreeOn s.mem (rewritten s.mem it hv key value) q (q + extent q) := by
  have hheader : sizeofItem = 24 := rfl
  refine hlaid.agree_of_write hit hq hne fun lo hi hapart => ?_
  exact ((agreeOn_setRefcount (by omega)).trans (agreeOn_fillItem hv hkey (by omega))).trans
    (agreeOn_setRefcount (by omega))

theorem beginSet_stored
    (hstored : Stored settings hash s allocators entries extent live chains segments place)
    (he : entries key = some e) (hdeleted : e.deleted = false) (value : List UInt8)
    (ia : ItemAllocator) (mapped : Bool) :
    beginSet settings hash s ia key value mapped = some
      ({ s with mem := rewritten s.mem e.it (hash key).toNat key value }, ia, e.it) := by
  have hentry := hstored.entry key e he
  have hne := hstored.laid.ne_zero (hstored.extent_ne_zero he)
  have hrefcount : itemRefcount s.mem e.it = 1 := by
    rw [hentry.refcount, hdeleted]
    rfl
  have hfilled : itemRefcount (fillItem (setRefcount s.mem e.it 2) e.it (hash key).toNat key value)
      e.it = 2 := by
    rw [itemRefcount_fillItem _ _ _ hentry.short.1, itemRefcount_setRefcount]
  rw [beginSet, hstored.hashtGet_stored he, Option.bind_some, hrefcount]
  simp only [if_neg hne, Option.bind_some]
  rw [itemUnref_found hfilled, Option.map_some]
  rfl

/-- A SET of a stored key keeps the invariant if its value fits. -/
theorem set_stored
    (hstored : Stored settings hash s allocators entries extent live chains segments place)
    (he : entries key = some e) (hdeleted : e.deleted = false) (hfits : value.length ≤ e.room)
    (hshort : value.length < 65536) :
    Stored settings hash { s with mem := rewritten s.mem e.it (hash key).toNat key value }
      allocators (Function.update entries key (some { e with value := value })) extent live chains
      segments place := by
  have hentry := hstored.entry key e he
  have hextent := hstored.extent_ne_zero he
  have hkey := hentry.short.1
  have hroom : sizeofItem + value.length + key.length ≤ extent e.it := by
    rw [hentry.size]
    omega
  have hothers : ∀ q, extent q ≠ 0 → q ≠ e.it → Memory.AgreeOn s.mem
      (rewritten s.mem e.it (hash key).toNat key value) q (q + extent q) :=
    fun q hq hne => agree_rewritten hstored.laid hkey hextent hq hne hroom
  have hcontent : contentAt (rewritten s.mem e.it (hash key).toNat key value) e.it =
      ⟨(hash key).toNat, value.length, key.length, key, value⟩ := by
    rw [rewritten, contentAt_setRefcount]
    exact contentAt_fillItem _ _ _ (hash key).toNat_lt hkey (by omega)
  have hnext : itemNext (rewritten s.mem e.it (hash key).toNat key value) e.it =
      itemNext s.mem e.it := by
    rw [rewritten, itemNext_setRefcount, itemNext_fillItem _ _ _ hkey, itemNext_setRefcount]
  have hlaid : Laid (rewritten s.mem e.it (hash key).toNat key value) extent := by
    refine hstored.laid.rewrite hothers ?_
    rw [itemTotalsz_eq, hcontent]
    exact hroom
  refine ⟨hlaid, hstored.table.rewrite hstored.laid hothers hnext ?_, hstored.log, fun p => ?_,
    fun key' e' he' => ?_⟩
  · rw [hcontent, hentry.content]
    exact ⟨rfl, rfl⟩
  · have hsame : Store.Linked
        { s with mem := rewritten s.mem e.it (hash key).toNat key value } chains p ↔
        s.Linked chains p := Iff.rfl
    rw [hsame, hstored.linked]
    constructor
    · rintro ⟨key', e', he', rfl⟩
      rcases eq_or_ne key' key with rfl | hne
      · rw [he] at he'
        obtain rfl := Option.some.inj he'
        exact ⟨key', _, Function.update_self .., rfl⟩
      · exact ⟨key', e', (Function.update_of_ne hne ..).trans he', rfl⟩
    · rintro ⟨key', e', he', rfl⟩
      rcases eq_or_ne key' key with rfl | hne
      · rw [Function.update_self] at he'
        obtain rfl := Option.some.inj he'
        exact ⟨key', e, he, rfl⟩
      · rw [Function.update_of_ne hne] at he'
        exact ⟨key', e', he', rfl⟩
  · rcases eq_or_ne key' key with rfl | hne
    · rw [Function.update_self] at he'
      obtain rfl := Option.some.inj he'
      refine ⟨hentry.size, hcontent, ?_, hentry.live, hkey, hshort⟩
      change itemRefcount (rewritten _ _ _ _ _) e.it = if e.deleted then 2 else 1
      rw [hdeleted, rewritten, itemRefcount_setRefcount]
      rfl
    · rw [Function.update_of_ne hne] at he'
      have hentry' := hstored.entry key' e' he'
      have hextent' := hstored.extent_ne_zero he'
      have hagree := hothers e'.it hextent' (hstored.it_ne he he' hne)
      refine ⟨hentry'.size, ?_, ?_, hentry'.live, hentry'.short⟩
      · rw [hstored.laid.contentAt_of_agree hextent' hagree]
        exact hentry'.content
      · rw [hstored.laid.itemRefcount_of_agree hextent' hagree]
        exact hentry'.refcount

/-! ## A SET of a new key -/

theorem lt_of_iallocAlloc {m : Memory} {log : Log} {ia : ItemAllocator} {total : ℕ}
    {cleanup mapped : Bool} {result : Memory × Log × ItemAllocator × ℕ}
    (halloc : iallocAlloc settings m log ia total cleanup mapped = some result) :
    total < settings.segsize := by
  by_contra hle
  unfold iallocAlloc at halloc
  rw [if_neg hle] at halloc
  cases halloc

/-- An item has been allocated, apart from the others. -/
theorem alloc_spec
    (hstored : Stored settings hash s allocators entries extent live chains segments place)
    {w it total : ℕ} {ia ia' : ItemAllocator} {m' : Memory} {log' : Log} {mapped : Bool}
    (hw : allocators w = some ia) (hsize : sizeofItem ≤ total) (hit : it ≠ 0)
    (halloc : iallocAlloc settings s.mem s.log ia total false mapped = some (m', log', ia', it)) :
    ∃ segments' place' middle, LogInv settings log' (Function.update allocators w (some ia'))
        segments' place' [] (Function.update extent it total) (Function.update live it total) ∧
      Laid.Room extent it total ∧ m' = setRefcount middle it 1 ∧
      ∀ q, extent q ≠ 0 → Memory.AgreeOn s.mem middle q (q + extent q) := by
  obtain ⟨m₁, log₁, ia₁, it₁, halloc₁, hspec⟩ := hstored.log.iallocAlloc hw s.mem hsize
    (lt_of_iallocAlloc halloc) false mapped
  rw [halloc] at halloc₁
  obtain ⟨rfl, rfl, rfl, rfl⟩ := Option.some.inj halloc₁
  obtain ⟨chain, place', free', hlog, hfetched, _, hplace, _⟩ := hspec (.inl hit)
  obtain ⟨hroom, middle, hm, hagree⟩ := hfetched.item hit
  have hnone : free' = [] := by
    refine List.eq_nil_iff_forall_not_mem.mpr fun k hk => ?_
    have hfree := (hlog.mem_free k).mp hk
    rcases hplace k with heq | heq
    · rw [heq] at hfree
      exact List.not_mem_nil ((hstored.log.mem_free k).mpr hfree)
    · rw [heq] at hfree
      cases hfree
  rw [hnone, LogInv.allocated_of_ne hit, LogInv.allocated_of_ne hit] at hlog
  exact ⟨_, place', middle, hlog, hroom, hm, hagree⟩

/-- The store after a new item has been put into the table. -/
structure Inserted (hash : List UInt8 → UInt32) (s s' : Store) (extent extent' : ℕ → ℕ)
    (chains chains' : ℕ → List ℕ) (it : ℕ) (key value : List UInt8) : Prop where
  laid : Laid s'.mem extent'
  table : TableInv hash s' extent' chains'
  linked : ∀ p, s'.Linked chains' p ↔ p = it ∨ s.Linked chains p
  refcount : itemRefcount s'.mem it = 2
  content : contentAt s'.mem it = ⟨(hash key).toNat, value.length, key.length, key, value⟩
  others : ∀ q, extent q ≠ 0 → extent' q = extent q ∧ contentAt s'.mem q = contentAt s.mem q ∧
    itemRefcount s'.mem q = itemRefcount s.mem q

/-- A new item for a key that is not stored is put into the table. -/
theorem put_new (settings : Settings) (hlaid : Laid s.mem extent)
    (htable : TableInv hash s extent chains)
    (hnew : ∀ p, s.Linked chains p → (contentAt s.mem p).key ≠ key) {it : ℕ} {middle : Memory}
    (hkey : key.length < 65536) (hvalue : value.length < 65536)
    (hroom : Laid.Room extent it (sizeofItem + value.length + key.length))
    (hagree : ∀ q, extent q ≠ 0 → Memory.AgreeOn s.mem middle q (q + extent q)) (log' : Log) :
    ∃ s' chains', hashtPut settings { s with
        mem := Laid.newItem middle it (hash key).toNat key value, log := log' } it 0 = some s' ∧
      s'.log = log' ∧
      Inserted hash s s' extent
        (Function.update extent it (sizeofItem + value.length + key.length)) chains chains' it key
        value := by
  have hheader : sizeofItem = 24 := rfl
  have hhv : (hash key).toNat < 2 ^ 32 := (hash key).toNat_lt
  have hzero := hroom.extent_eq_zero (by omega)
  have hagreeNew : ∀ q, extent q ≠ 0 → Memory.AgreeOn middle
      (Laid.newItem middle it (hash key).toNat key value) q (q + extent q) :=
    fun q hq => hroom.agree_newItem hkey hq
  -- the filler of a retired tail does not matter
  have hmiddleLaid : Laid middle extent :=
    hlaid.of_contents fun q hq => hlaid.contentAt_of_agree hq (hagree q hq)
  have hmiddleTable : TableInv hash { s with mem := middle } extent chains :=
    htable.extend hlaid (fun _ hp => hp) hagree
  have hlaidNew := hmiddleLaid.extend_newItem hhv hkey (by omega) hroom
  have hfresh := hmiddleTable.fresh_newItem hkey (by omega) hroom log'
  have hcontent := Laid.contentAt_newItem (m := middle) (p := it) hhv hkey
    (show value.length < 2 ^ 32 by omega)
  have hrefcount : itemRefcount (Laid.newItem middle it (hash key).toNat key value) it = 1 :=
    Laid.itemRefcount_newItem hkey
  have hkept : ∀ q, extent q ≠ 0 →
      contentAt (Laid.newItem middle it (hash key).toNat key value) q = contentAt s.mem q ∧
      itemRefcount (Laid.newItem middle it (hash key).toNat key value) q = itemRefcount s.mem q :=
    fun q hq => ⟨hlaid.contentAt_of_agree hq ((hagree q hq).trans (hagreeNew q hq)),
      hlaid.itemRefcount_of_agree hq ((hagree q hq).trans (hagreeNew q hq))⟩
  have hextent : ∀ q, extent q ≠ 0 →
      Function.update extent it (sizeofItem + value.length + key.length) q = extent q := by
    intro q hq
    refine Function.update_of_ne ?_ ..
    rintro rfl
    exact hq hzero
  have hitLive : Function.update extent it (sizeofItem + value.length + key.length) it ≠ 0 := by
    rw [Function.update_self]
    omega
  have hlive : ∀ q, extent q ≠ 0 →
      Function.update extent it (sizeofItem + value.length + key.length) q ≠ 0 := by
    intro q hq
    rw [hextent q hq]
    exact hq
  have htableNew : TableInv hash { s with
      mem := Laid.newItem middle it (hash key).toNat key value, log := log' }
      (Function.update extent it (sizeofItem + value.length + key.length)) chains :=
    hmiddleTable.extend hmiddleLaid hlive hagreeNew
  generalize Function.update extent it (sizeofItem + value.length + key.length) = extent' at *
  generalize Laid.newItem middle it (hash key).toNat key value = m at *
  cases hashtPut_cases settings htableNew hlaidNew hfresh 0 with
  | kept hcas => exact absurd rfl hcas
  | replaced p _ _ hp hpKey =>
      refine absurd ?_ (hnew p hp)
      have hpLive := htable.live hp
      rw [← (hkept p hpLive).1]
      exact hpKey.trans (congrArg Content.key hcontent)
  | inserted s' chains' _ _ hput htable' heffect hlinked =>
      refine ⟨s', chains', hput, heffect.log, heffect.laid, htable', hlinked, ?_, ?_, fun q hq => ?_⟩
      · rw [heffect.refcounts it hitLive, if_pos rfl]
        exact congrArg (· + 1) hrefcount
      · exact (heffect.contents it hitLive).trans hcontent
      · have hqLive : extent' q ≠ 0 := by rwa [hextent q hq]
        have hqit : q ≠ it := by
          rintro rfl
          exact hq hzero
        refine ⟨hextent q hq, (heffect.contents q hqLive).trans (hkept q hq).1, ?_⟩
        rw [heffect.refcounts q hqLive, if_neg hqit]
        exact (hkept q hq).2

/-- The items of stored keys, and that of a new key. -/
theorem linked_insert (P : ℕ → Prop) (new : Entry)
    (hlinked : ∀ p, P p ↔ ∃ key e, entries key = some e ∧ e.it = p) (he : entries key = none)
    (p : ℕ) : p = new.it ∨ P p ↔
      ∃ key' e, Function.update entries key (some new) key' = some e ∧ e.it = p := by
  rw [hlinked]
  constructor
  · rintro (rfl | ⟨key', e', he', rfl⟩)
    · exact ⟨key, _, Function.update_self .., rfl⟩
    · refine ⟨key', e', ?_, rfl⟩
      rw [Function.update_of_ne]
      · exact he'
      · rintro rfl
        rw [he] at he'
        cases he'
  · rintro ⟨key', e', he', rfl⟩
    rcases eq_or_ne key' key with rfl | hne
    · rw [Function.update_self] at he'
      obtain rfl := Option.some.inj he'
      exact .inl rfl
    · rw [Function.update_of_ne hne] at he'
      exact .inr ⟨key', e', he', rfl⟩

/-- A SET of a new key stores it. -/
theorem set_missing
    (hstored : Stored settings hash s allocators entries extent live chains segments place)
    {w it : ℕ} {ia ia' : ItemAllocator} {m' : Memory} {log' : Log} {mapped : Bool}
    (hw : allocators w = some ia) (he : entries key = none) (hkey : key.length < 65536)
    (hvalue : value.length < 65536) (hit : it ≠ 0)
    (halloc : iallocAlloc settings s.mem s.log ia (sizeofItem + key.length + value.length) false
      mapped = some (m', log', ia', it)) :
    ∃ s' extent' chains' segments' place',
      beginSet settings hash s ia key value mapped = some (s', ia', it) ∧
      Stored settings hash s' (Function.update allocators w (some ia'))
        (Function.update entries key (some ⟨it, value.length, value, false⟩)) extent'
        (Function.update live it (sizeofItem + key.length + value.length)) chains' segments'
        place' := by
  have hheader : sizeofItem = 24 := rfl
  have htotal : sizeofItem + key.length + value.length = sizeofItem + value.length + key.length := by
    omega
  obtain ⟨segments', place', middle, hlog, hroom, rfl, hagree⟩ :=
    hstored.alloc_spec hw (by omega) hit halloc
  have hzero := hroom.extent_eq_zero (by omega)
  have hnew : ∀ p, s.Linked chains p → (contentAt s.mem p).key ≠ key := by
    rintro p hp rfl
    obtain ⟨key', e', he', rfl⟩ := (hstored.linked p).mp hp
    rw [(hstored.entry key' e' he').content, he'] at he
    cases he
  have hother : ∀ key' e', entries key' = some e' → e'.it ≠ it := by
    rintro key' e' he' rfl
    exact hstored.extent_ne_zero he' hzero
  obtain ⟨s', chains', hput, hlogEq, hinserted⟩ := put_new settings hstored.laid hstored.table hnew
    hkey hvalue (htotal ▸ hroom) hagree log'
  rw [htotal] at hlog ⊢
  have hsize : Function.update extent it (sizeofItem + value.length + key.length) it =
      sizeofItem + value.length + key.length := Function.update_self ..
  have hbegin : beginSet settings hash s ia key value mapped =
      some ({ s' with mem := setRefcount s'.mem it 1 }, ia', it) := by
    rw [beginSet, hstored.hashtGet_missing he, Option.bind_some]
    simp only [if_pos, setNew, halloc, Option.bind_some, if_neg hit]
    change ((hashtPut settings { s with
      mem := Laid.newItem middle it (hash key).toNat key value, log := log' } it 0).map
        fun s => (s, ia', it)).bind _ = _
    rw [hput, Option.map_some, Option.bind_some]
    dsimp only
    rw [itemUnref_found hinserted.refcount]
    rfl
  have hlive : Function.update live it (sizeofItem + value.length + key.length) it =
      sizeofItem + value.length + key.length := Function.update_self ..
  have hliveOther : ∀ q, q ≠ it →
      Function.update live it (sizeofItem + value.length + key.length) q = live q :=
    fun q hq => Function.update_of_ne hq ..
  generalize Function.update extent it (sizeofItem + value.length + key.length) = extent' at *
  generalize Function.update live it (sizeofItem + value.length + key.length) = live' at *
  have hitLive : extent' it ≠ 0 := by omega
  refine ⟨_, extent', chains', segments', place', hbegin, hinserted.laid.setRefcount hitLive 1,
    hinserted.table.setRefcount hinserted.laid hitLive 1 s'.log, ?_,
    fun p => (hinserted.linked p).trans (linked_insert (s.Linked chains)
      ⟨it, value.length, value, false⟩ hstored.linked he p),
    fun key' e' he' => ?_⟩
  · rw [← hlogEq] at hlog
    exact hlog
  · rcases eq_or_ne key' key with rfl | hne
    · rw [Function.update_self] at he'
      obtain rfl := Option.some.inj he'
      refine ⟨?_, ?_, ?_, ?_, hkey, hvalue⟩
      · dsimp only
        omega
      · exact (contentAt_setRefcount s'.mem it 1).trans hinserted.content
      · exact itemRefcount_setRefcount s'.mem it 1
      · exact hlive.trans hsize.symm
    · rw [Function.update_of_ne hne] at he'
      have hentry := hstored.entry key' e' he'
      obtain ⟨hextentEq, hcontent, hrefcount⟩ :=
        hinserted.others e'.it (hstored.extent_ne_zero he')
      have hne' := hother key' e' he'
      have hlive' : extent' e'.it ≠ 0 := by
        rw [hextentEq]
        exact hstored.extent_ne_zero he'
      refine ⟨hextentEq.trans hentry.size, ?_, ?_, ?_, hentry.short⟩
      · exact (hinserted.laid.contentAt_setRefcount hitLive hlive' 1).trans
          (hcontent.trans hentry.content)
      · have hset := hinserted.laid.itemRefcount_setRefcount hitLive hlive' 1
        rw [if_neg hne'] at hset
        exact hset.trans (hrefcount.trans hentry.refcount)
      · rw [hliveOther e'.it hne', hextentEq]
        exact hentry.live

/-! ## A DELETE -/

/-- `madvise` fails where an item does not start a page. -/
theorem madviseDontneed_eq {m : Memory} {it length : ℕ} (hpage : it % 4096 ≠ 0) :
    madviseDontneed m it length = m := by
  funext x
  exact if_neg fun hall => hpage hall.1

/-- A DELETE of a stored key frees its item, which stays linked and keeps the
reference of the lookup. -/
theorem delete_stored
    (hstored : Stored settings hash s allocators entries extent live chains segments place)
    (he : entries key = some e) (hdeleted : e.deleted = false) (hfull : e.value.length = e.room)
    (hpage : e.it % 4096 ≠ 0) :
    ∃ s', beginDelete settings hash s key = some (s', e.it, true) ∧
      Stored settings hash s' allocators
        (Function.update entries key (some { e with deleted := true })) extent
        (Function.update live e.it 0) chains segments place := by
  have hentry := hstored.entry key e he
  have hextent := hstored.extent_ne_zero he
  have hne := hstored.laid.ne_zero hextent
  have hrefcount : itemRefcount s.mem e.it = 1 := by
    rw [hentry.refcount, hdeleted]
    rfl
  have hlive : live e.it = extent e.it := by
    rw [hentry.live, hdeleted]
    rfl
  have hcontent : contentAt (setRefcount s.mem e.it 2) e.it =
      ⟨(hash key).toNat, e.value.length, key.length, key, e.value⟩ :=
    (contentAt_setRefcount s.mem e.it 2).trans hentry.content
  have htotal : itemTotalsz (setRefcount s.mem e.it 2) e.it = live e.it := by
    rw [itemTotalsz_eq, hcontent, hlive, hentry.size, ← hfull]
    dsimp only
    omega
  obtain ⟨log', hfree, hlog⟩ := hstored.log.remove (hlive ▸ hextent) rfl
  refine ⟨{ s with mem := setRefcount s.mem e.it 2, log := log' }, ?_,
    hstored.laid.setRefcount hextent 2, hstored.table.setRefcount hstored.laid hextent 2 log', hlog,
    fun p => ?_, fun key' e' he' => ?_⟩
  · rw [beginDelete, hstored.hashtGet_stored he, Option.bind_some, hrefcount]
    dsimp only
    rw [if_neg hne, iallocFreeDontNeed, htotal, hfree, madviseDontneed_eq hpage]
    rfl
  · have hsame : Store.Linked { s with mem := setRefcount s.mem e.it 2, log := log' } chains p ↔
        s.Linked chains p := Iff.rfl
    rw [hsame, hstored.linked]
    constructor
    · rintro ⟨key', e', he', rfl⟩
      rcases eq_or_ne key' key with rfl | hkey
      · rw [he] at he'
        obtain rfl := Option.some.inj he'
        exact ⟨key', _, Function.update_self .., rfl⟩
      · exact ⟨key', e', (Function.update_of_ne hkey ..).trans he', rfl⟩
    · rintro ⟨key', e', he', rfl⟩
      rcases eq_or_ne key' key with rfl | hkey
      · rw [Function.update_self] at he'
        obtain rfl := Option.some.inj he'
        exact ⟨key', e, he, rfl⟩
      · rw [Function.update_of_ne hkey] at he'
        exact ⟨key', e', he', rfl⟩
  · rcases eq_or_ne key' key with rfl | hkey
    · rw [Function.update_self] at he'
      obtain rfl := Option.some.inj he'
      refine ⟨hentry.size, hcontent, itemRefcount_setRefcount s.mem e.it 2, ?_, hentry.short⟩
      dsimp only
      rw [Function.update_self]
      rfl
    · rw [Function.update_of_ne hkey] at he'
      have hentry' := hstored.entry key' e' he'
      have hextent' := hstored.extent_ne_zero he'
      have hne' := hstored.it_ne he he' hkey
      refine ⟨hentry'.size, ?_, ?_, ?_, hentry'.short⟩
      · exact (hstored.laid.contentAt_setRefcount hextent hextent' 2).trans hentry'.content
      · have hset := hstored.laid.itemRefcount_setRefcount hextent hextent' 2
        rw [if_neg hne'] at hset
        exact hset.trans hentry'.refcount
      · rw [Function.update_of_ne hne']
        exact hentry'.live

theorem beginDelete_missing
    (hstored : Stored settings hash s allocators entries extent live chains segments place)
    (he : entries key = none) : beginDelete settings hash s key = some (s, 0, false) := by
  rw [beginDelete, hstored.hashtGet_missing he, Option.bind_some]
  rfl

/-! ## Responses -/

variable {c : Connection} (header : RequestHeader)

/-- There is room for a short response. -/
theorem not_waiting {rsl : ℕ} (htx : c.txLen < 65536) (hrsl : rsl < 131072) :
    ¬maxMsgsize - c.txLen < rsl := by
  have hmax : maxMsgsize = 1000000 := rfl
  omega

/-- A GET of a stored key answers its value and leaves the store as it was. -/
theorem processGet_stored
    (hstored : Stored settings hash s allocators entries extent live chains segments place)
    (he : entries key = some e) (hdeleted : e.deleted = false) (hc : c.reqDone = false)
    (htx : c.txLen < 65536) :
    ∃ c', processGet settings hash s c header key = some (s, c', .answered
        ⟨0x00, 4, statusSuccess, 4 + e.value.length, header.opaqueField,
          [0, 0, 0, 0] ++ e.value⟩) ∧ c'.reqDone = false := by
  have hentry := hstored.entry key e he
  have hextent := hstored.extent_ne_zero he
  have hne := hstored.laid.ne_zero hextent
  have hrefcount : itemRefcount s.mem e.it = 1 := by
    rw [hentry.refcount, hdeleted]
    rfl
  have hcontent : contentAt (setRefcount s.mem e.it 2) e.it =
      ⟨(hash key).toNat, e.value.length, key.length, key, e.value⟩ :=
    (contentAt_setRefcount s.mem e.it 2).trans hentry.content
  have hvallen : itemVallen (setRefcount s.mem e.it 2) e.it = e.value.length :=
    congrArg Content.vallen hcontent
  have hvalue : (setRefcount s.mem e.it 2).read (itemValue (setRefcount s.mem e.it 2) e.it)
      (itemVallen (setRefcount s.mem e.it 2) e.it) = e.value :=
    congrArg Content.value hcontent
  have hshort := hentry.short.2
  have hrsl : getResponseLength (setRefcount s.mem e.it 2) e.it = 28 + e.value.length := by
    have hsize : sizeofResponse = 24 := rfl
    rw [getResponseLength, if_neg hne, hvallen]
    omega
  have hresponse : getResponse (setRefcount s.mem e.it 2) e.it header =
      ⟨0x00, 4, statusSuccess, 4 + e.value.length, header.opaqueField,
        [0, 0, 0, 0] ++ e.value⟩ := by
    rw [getResponse, if_neg hne, hvalue, hvallen, Nat.mod_eq_of_lt (by omega)]
  have hunref : itemUnref settings { s with mem := setRefcount s.mem e.it 2 } e.it = some s := by
    rw [itemUnref_found (itemRefcount_setRefcount s.mem e.it 2), setRefcount_setRefcount,
      ← hrefcount, setRefcount_itemRefcount]
  refine ⟨Connection.advance { c with it := e.it, reqDone := true } header (28 + e.value.length), ?_,
    rfl⟩
  rw [processGet, hc, if_neg Bool.false_ne_true, hstored.hashtGet_stored he, Option.bind_some,
    hrefcount]
  dsimp only
  rw [hrsl, hresponse, if_neg (not_waiting htx (by omega)), if_neg hne, hunref]
  rfl

/-- A GET of a key that is not stored. -/
theorem processGet_missing
    (hstored : Stored settings hash s allocators entries extent live chains segments place)
    (he : entries key = none) (hc : c.reqDone = false) (htx : c.txLen < 65536) :
    ∃ c', processGet settings hash s c header key = some (s, c', .answered
        ⟨0x00, 4, statusEnoent, 4, header.opaqueField, [0, 0, 0, 0]⟩) ∧ c'.reqDone = false := by
  have hrsl : getResponseLength s.mem 0 = 28 := rfl
  refine ⟨Connection.advance { c with it := 0, reqDone := true } header 28, ?_, rfl⟩
  rw [processGet, hc, if_neg Bool.false_ne_true, hstored.hashtGet_missing he, Option.bind_some]
  dsimp only
  rw [hrsl, if_neg (not_waiting htx (by omega)), if_pos rfl]
  rfl

/-- A SET is answered once the assignment has been made. -/
theorem processSet_eq {s' : Store} {ia ia' : ItemAllocator} {it : ℕ} {mapped : Bool}
    (hbegin : beginSet settings hash s ia key value mapped = some (s', ia', it)) (hit : it ≠ 0)
    (hc : c.reqDone = false) (htx : c.txLen < 65536) :
    ∃ c' response, processSet settings hash s ia c header key value mapped =
        some (s', ia', c', .answered response) ∧ c'.reqDone = false ∧ c'.it = it := by
  refine ⟨Connection.advance { c with it := it, reqDone := true } header sizeofResponse,
    ⟨0x01, 0, statusSuccess, 0, header.opaqueField, []⟩, ?_, rfl, rfl⟩
  rw [processSet, hc, if_neg Bool.false_ne_true, hbegin, Option.map_some]
  dsimp only
  rw [if_neg (not_waiting htx (by decide)), if_neg hit]

/-- A DELETE is answered with its success. -/
theorem processDelete_eq {s' : Store} {it : ℕ} {success : Bool}
    (hbegin : beginDelete settings hash s key = some (s', it, success)) (hc : c.reqDone = false)
    (htx : c.txLen < 65536) :
    ∃ c', processDelete settings hash s c header key = some (s', c', .answered
        ⟨0x04, 4, if success then statusSuccess else statusEnoent, 0, header.opaqueField, []⟩) ∧
      c'.reqDone = false ∧ c'.it = it := by
  refine ⟨Connection.advance { c with it := it, reqDone := true } header sizeofResponse, ?_, rfl, rfl⟩
  rw [processDelete, hc, if_neg Bool.false_ne_true, hbegin, Option.map_some]
  dsimp only
  rw [if_neg (not_waiting htx (by decide))]

end Stored

/-! ## Handling a request to completion -/

section

variable {settings : Settings} {hash : List UInt8 → UInt32} {s s' : Store} {ia ia' : ItemAllocator}
  {rx : Memory} {c c' : Connection} {mapped : Bool} {response : Response}

theorem handle_get (hcommand : (requestHeader rx c.rxOff).command = some .get)
    (hprocess : processGet settings hash s c (requestHeader rx c.rxOff)
      ((Command.get.key c.rxOff (requestHeader rx c.rxOff)).read rx) =
        some (s', c', .answered response)) :
    handle settings hash s ia rx c mapped = some (s', ia, c', .answered response) := by
  rw [handle, connReqProcess]
  simp only [hcommand, hprocess, Option.map_some, Option.bind_some]

theorem handle_set (hcommand : (requestHeader rx c.rxOff).command = some .set)
    (hprocess : processSet settings hash s ia c (requestHeader rx c.rxOff)
      ((Command.set.key c.rxOff (requestHeader rx c.rxOff)).read rx)
      ((Command.set.value c.rxOff (requestHeader rx c.rxOff)).read rx) mapped =
        some (s', ia', c', .answered response)) :
    handle settings hash s ia rx c mapped = some (s', ia', c', .answered response) := by
  rw [handle, connReqProcess]
  simp only [hcommand, hprocess, Option.bind_some]

theorem handle_delete (hcommand : (requestHeader rx c.rxOff).command = some .delete)
    (hprocess : processDelete settings hash s c (requestHeader rx c.rxOff)
      ((Command.delete.key c.rxOff (requestHeader rx c.rxOff)).read rx) =
        some (s', c', .answered response)) :
    handle settings hash s ia rx c mapped = some (s', ia, c', .answered response) := by
  rw [handle, connReqProcess]
  simp only [hcommand, hprocess, Option.map_some, Option.bind_some]

end

/-- The counters bound the parts of a request. -/
theorem Arrival.short {r : Arrival} {command : Command} (hwell : r.WellFormed command) :
    (r.key command).length < 65536 ∧ (r.value command).length < 65536 := by
  have hkeylen : r.header.keylen < 256 ^ 2 := ntoh_lt r.rx _ 2
  obtain ⟨hcomplete, hlengths⟩ := hwell
  have hbody : r.header.bodylen < 65536 := by
    unfold connReqIscomp at hcomplete
    dsimp only at hcomplete
    split at hcomplete
    · cases hcomplete
    · split at hcomplete
      · cases hcomplete
      · have hbodylen : (requestHeader r.rx r.rxOff.toNat).bodylen = r.header.bodylen := rfl
        omega
  unfold Arrival.key Arrival.value Span.read
  rw [Memory.length_read, Memory.length_read]
  cases command with
  | get => exact ⟨hkeylen, Nat.zero_lt_succ _⟩
  | delete => exact ⟨hkeylen, Nat.zero_lt_succ _⟩
  | set =>
      have hvallen := (vallen_eq_iff r.rx r.rxOff.toNat).mpr hlengths.2
      refine ⟨hkeylen, ?_⟩
      change r.header.vallen < 65536
      change r.header.vallen + r.header.keylen + r.header.extlen = r.header.bodylen at hvallen
      omega

/-- The response that the history calls for, as far as no deleted key is named. -/
def Answer.Right (a : Answer) : Prop :=
  match a.before with
  | none => a.command = .get → a.response.status = statusEnoent
  | some e => e.deleted = false ∧
      (a.command = .get → a.response.status = statusSuccess ∧
        a.response.body = [0, 0, 0, 0] ++ e.value ∧ a.response.bodylen = 4 + e.value.length) ∧
      (a.command = .delete → a.response.status = statusSuccess)

namespace Serving

variable {settings : Settings} {hash : List UInt8 → UInt32} {t next : Serving}

structure Inv (settings : Settings) (hash : List UInt8 → UInt32) (t : Serving) : Prop where
  running : t.failed = false
  idle : ∀ c, (t.connections c).reqDone = false
  stored : ∃ extent chains segments place,
    Stored settings hash t.store t.allocators t.entries extent t.live chains segments place
  right : ∀ answer, t.answer = some answer → answer.Right

theorem inv_initial (settings : Settings) (hash : List UInt8 → UInt32) (mem : Memory) :
    Inv settings hash (initial mem) := by
  have hempty : LogInv settings Log.initial (fun _ => none) (fun _ => []) (fun _ => .unallocated) []
      (fun _ => 0) (fun _ => 0) := by
    refine ⟨nofun, nofun, fun _ => ⟨fun _ => rfl, fun _ => rfl⟩, nofun, nofun, fun _ => .inl rfl,
      fun p hp => absurd rfl hp, rfl, List.nodup_nil, fun _ => ⟨nofun, nofun⟩, nofun,
      fun _ _ _ => ⟨nofun, nofun⟩⟩
  have htable := TableInv.initial hash mem .initial fun _ => 0
  refine ⟨rfl, fun _ => rfl, ⟨fun _ => 0, fun _ => [], fun _ => [], fun _ => .unallocated,
    Laid.empty mem, htable, hempty, fun p => ?_, nofun⟩, nofun⟩
  constructor
  · intro hp
    exact absurd rfl (htable.live hp)
  · rintro ⟨_, _, he, _⟩
    cases he

/-- Starting a worker keeps the invariant. -/
theorem Inv.start (hinv : Inv settings hash t) {w : ℕ} {mapped mapped' : Bool}
    (hstep : step settings hash t (.start w mapped mapped') = some next) :
    Inv settings hash next := by
  obtain ⟨extent, chains, segments, place, hstored⟩ := hinv.stored
  dsimp only [step] at hstep
  split at hstep
  · rename_i hcond
    obtain ⟨⟨log', a⟩, hinit, rfl⟩ := Option.map_eq_some_iff.mp hstep
    obtain ⟨chain, place', free', hlog, _, hplace, _⟩ :=
      hstored.log.iallocInitAllocator hcond.2 hinit
    have hnone : free' = [] := by
      refine List.eq_nil_iff_forall_not_mem.mpr fun k hk => ?_
      have hfree := (hlog.mem_free k).mp hk
      rcases hplace k with heq | heq | heq
      · rw [heq] at hfree
        exact List.not_mem_nil ((hstored.log.mem_free k).mpr hfree)
      · rw [heq] at hfree
        cases hfree
      · rw [heq] at hfree
        cases hfree
    rw [hnone] at hlog
    exact ⟨hinv.running, hinv.idle, ⟨extent, chains, _, place', hstored.laid, hstored.table, hlog,
      hstored.linked, hstored.entry⟩, nofun⟩
  · cases hstep

/-- A state whose connections wait for the next request. -/
theorem idle_update {connections : ℕ → Connection} {c' : Connection}
    (hidle : ∀ c, (connections c).reqDone = false) (hc : c'.reqDone = false) (k c : ℕ) :
    (Function.update connections k c' c).reqDone = false := by
  rcases eq_or_ne c k with rfl | hne
  · rw [Function.update_self]
    exact hc
  · rw [Function.update_of_ne hne]
    exact hidle c

section

variable {r : Arrival} {ia : ItemAllocator}

/-- A GET leaves the store as it was. -/
theorem Inv.get (hinv : Inv settings hash t) (hcommand : r.header.command = some .get)
    (hw : t.allocators r.worker = some ia)
    (hdeleted : ∀ e, t.entries (r.key .get) = some e → e.deleted = false) :
    ∃ store ia' c response, handle settings hash t.store ia r.rx (t.connection r) r.mapped =
        some (store, ia', c, .answered response) ∧
      Inv settings hash (t.answered r .get store ia' c response) := by
  obtain ⟨extent, chains, segments, place, hstored⟩ := hinv.stored
  have hidle : (t.connection r).reqDone = false := hinv.idle r.connection
  have htx : (t.connection r).txLen < 65536 := r.txLen.toNat_lt
  have hsame : Function.update t.allocators r.worker (some ia) = t.allocators := by
    rw [← hw, Function.update_eq_self]
  have hkept : ∀ c response, c.reqDone = false →
      (⟨.get, t.entries (r.key .get), response⟩ : Answer).Right →
      Inv settings hash (t.answered r .get t.store ia c response) := by
    intro c response hc hright
    refine ⟨rfl, idle_update hinv.idle hc _, ⟨extent, chains, segments, place, ?_⟩, ?_⟩
    · dsimp only [answered]
      rw [hsame]
      exact hstored
    · rintro _ ⟨⟩
      exact hright
  cases he : t.entries (r.key .get) with
  | none =>
      obtain ⟨c', hprocess, hc'⟩ := hstored.processGet_missing r.header he hidle htx
      refine ⟨t.store, ia, c', _, handle_get hcommand hprocess, hkept c' _ hc' ?_⟩
      rw [he]
      exact fun _ => rfl
  | some e =>
      obtain ⟨c', hprocess, hc'⟩ :=
        hstored.processGet_stored r.header he (hdeleted e he) hidle htx
      refine ⟨t.store, ia, c', _, handle_get hcommand hprocess, hkept c' _ hc' ?_⟩
      rw [he]
      exact ⟨hdeleted e he, fun _ => ⟨rfl, rfl, rfl⟩, nofun⟩

/-- A SET stores its value. -/
theorem Inv.set (hinv : Inv settings hash t) (hcommand : r.header.command = some .set)
    (hw : t.allocators r.worker = some ia) (hwell : r.WellFormed .set)
    (hnew : t.entries (r.key .set) = none → t.AllocSucceeds settings ia
      (sizeofItem + (r.key .set).length + (r.value .set).length) r.mapped)
    (hfits : ∀ e, t.entries (r.key .set) = some e →
      e.deleted = false ∧ (r.value .set).length ≤ e.room) :
    ∃ store ia' c response, handle settings hash t.store ia r.rx (t.connection r) r.mapped =
        some (store, ia', c, .answered response) ∧
      Inv settings hash (t.answered r .set store ia' c response) := by
  obtain ⟨extent, chains, segments, place, hstored⟩ := hinv.stored
  have hidle : (t.connection r).reqDone = false := hinv.idle r.connection
  have htx : (t.connection r).txLen < 65536 := r.txLen.toNat_lt
  obtain ⟨hkey, hvalue⟩ := Arrival.short hwell
  cases he : t.entries (r.key .set) with
  | none =>
      obtain ⟨⟨m', log', ia', it⟩, halloc, hsucceeds⟩ := (Option.any_eq_true _ _).mp (hnew he)
      have hit : it ≠ 0 := of_decide_eq_true hsucceeds
      obtain ⟨s', extent', chains', segments', place', hbegin, hstored'⟩ :=
        hstored.set_missing hw he hkey hvalue hit halloc
      obtain ⟨c', response, hprocess, hc', hcIt⟩ :=
        Stored.processSet_eq r.header hbegin hit hidle htx
      refine ⟨s', ia', c', response, handle_set hcommand hprocess, rfl, idle_update hinv.idle hc' _,
        ⟨extent', chains', segments', place', ?_⟩, ?_⟩
      · dsimp only [answered, entriesAfter, liveAfter]
        rw [he, hcIt, Option.map_none, Option.getD_none]
        exact hstored'
      · rintro _ ⟨⟩
        rw [he]
        exact nofun
  | some e =>
      obtain ⟨hdeleted, hroom⟩ := hfits e he
      have hbegin := hstored.beginSet_stored he hdeleted (r.value .set) ia r.mapped
      have hstored' := hstored.set_stored he hdeleted hroom hvalue
      have hentry := hstored.entry _ e he
      have hit := hstored.laid.ne_zero (hstored.extent_ne_zero he)
      obtain ⟨c', response, hprocess, hc', hcIt⟩ :=
        Stored.processSet_eq r.header hbegin hit hidle htx
      have hlive : t.live e.it = sizeofItem + (r.key .set).length + e.room := by
        rw [hentry.live, hdeleted, ← hentry.size]
        rfl
      have hnewEntry : ({ e with value := r.value .set, deleted := false } : Entry) =
          { e with value := r.value .set } := by
        rw [hdeleted]
      refine ⟨_, ia, c', response, handle_set hcommand hprocess, rfl, idle_update hinv.idle hc' _,
        ⟨extent, chains, segments, place, ?_⟩, ?_⟩
      · dsimp only [answered, entriesAfter, liveAfter]
        rw [he, hcIt, ← hw, Function.update_eq_self]
        rw [Option.map_some, Option.getD_some, ← hlive, Function.update_eq_self]
        dsimp only
        rw [hnewEntry]
        exact hstored'
      · rintro _ ⟨⟩
        rw [he]
        exact ⟨hdeleted, nofun, nofun⟩

/-- A DELETE frees the item of its key. -/
theorem Inv.delete (hinv : Inv settings hash t) (hcommand : r.header.command = some .delete)
    (hw : t.allocators r.worker = some ia)
    (hfull : ∀ e, t.entries (r.key .delete) = some e →
      e.deleted = false ∧ e.value.length = e.room ∧ e.it % 4096 ≠ 0) :
    ∃ store ia' c response, handle settings hash t.store ia r.rx (t.connection r) r.mapped =
        some (store, ia', c, .answered response) ∧
      Inv settings hash (t.answered r .delete store ia' c response) := by
  obtain ⟨extent, chains, segments, place, hstored⟩ := hinv.stored
  have hidle : (t.connection r).reqDone = false := hinv.idle r.connection
  have htx : (t.connection r).txLen < 65536 := r.txLen.toNat_lt
  have hsame : Function.update t.allocators r.worker (some ia) = t.allocators := by
    rw [← hw, Function.update_eq_self]
  cases he : t.entries (r.key .delete) with
  | none =>
      obtain ⟨c', hprocess, hc', _⟩ :=
        Stored.processDelete_eq r.header (hstored.beginDelete_missing he) hidle htx
      refine ⟨t.store, ia, c', _, handle_delete hcommand hprocess, rfl, idle_update hinv.idle hc' _,
        ⟨extent, chains, segments, place, ?_⟩, ?_⟩
      · have hfailed : ¬(if false then statusSuccess else statusEnoent) = statusSuccess := by decide
        dsimp only [answered, entriesAfter, liveAfter]
        rw [hsame, if_neg hfailed, if_neg hfailed]
        exact hstored
      · rintro _ ⟨⟩
        rw [he]
        exact nofun
  | some e =>
      obtain ⟨hdeleted, hlength, hpage⟩ := hfull e he
      obtain ⟨s', hbegin, hstored'⟩ := hstored.delete_stored he hdeleted hlength hpage
      obtain ⟨c', hprocess, hc', hcIt⟩ :=
        Stored.processDelete_eq r.header hbegin hidle htx
      refine ⟨s', ia, c', _, handle_delete hcommand hprocess, rfl, idle_update hinv.idle hc' _,
        ⟨extent, chains, segments, place, ?_⟩, ?_⟩
      · have hdone : (if true then statusSuccess else statusEnoent) = statusSuccess := rfl
        dsimp only [answered, entriesAfter, liveAfter]
        rw [hsame, he, hcIt, if_pos hdone, if_pos hdone, Option.map_some]
        exact hstored'
      · rintro _ ⟨⟩
        rw [he]
        exact ⟨hdeleted, nofun, fun _ => rfl⟩

end

/-- A harmless request keeps the invariant. -/
theorem Inv.step {action : ServingAction} (hinv : Inv settings hash t)
    (hharmless : t.Harmless settings action) (hstep : step settings hash t action = some next) :
    Inv settings hash next := by
  cases action with
  | start w mapped mapped' => exact hinv.start hstep
  | request r =>
      obtain ⟨command, hcommand, hrest⟩ := Option.bind_eq_some_iff.mp hstep
      obtain ⟨ia, hw, hrest⟩ := Option.bind_eq_some_iff.mp hrest
      have hcond := hharmless command hcommand ia hw
      split at hrest
      case isFalse => cases hrest
      rename_i hwell
      have hkept : ∃ store ia' c response,
          handle settings hash t.store ia r.rx (t.connection r) r.mapped =
            some (store, ia', c, .answered response) ∧
          Inv settings hash (t.answered r command store ia' c response) := by
        cases command with
        | get =>
            refine hinv.get hcommand hw fun e he => ?_
            rw [he] at hcond
            exact hcond.1
        | set =>
            refine hinv.set hcommand hw hwell.2 (fun he => ?_) fun e he => ?_
            · rw [he] at hcond
              exact hcond rfl
            · rw [he] at hcond
              exact ⟨hcond.1, hcond.2.1 rfl⟩
        | delete =>
            refine hinv.delete hcommand hw fun e he => ?_
            rw [he] at hcond
            exact ⟨hcond.1, hcond.2.2 rfl⟩
      obtain ⟨store, ia', c, response, hhandle, hnext⟩ := hkept
      rw [hhandle] at hrest
      obtain rfl := Option.some.inj hrest
      exact hnext

/-! ## Deletion -/

theorem Inv.deletionFinal (hinv : Inv settings hash t) : DeletionFinal settings t := by
  obtain ⟨extent, chains, segments, place, hstored⟩ := hinv.stored
  refine ⟨hinv.running, fun a e ha he hdeleted _ => ?_, fun a e ha he _ hcommand => ?_,
    fun i h hh => ?_⟩
  · have hright := hinv.right a ha
    unfold Answer.Right at hright
    rw [he] at hright
    rw [hright.1] at hdeleted
    cases hdeleted
  · have hright := hinv.right a ha
    unfold Answer.Right at hright
    rw [he] at hright
    exact hright.2.2 hcommand
  · refine (hstored.log.counts i h hh fun hfree => ?_).freed
    exact List.not_mem_nil ((hstored.log.mem_free i).mpr hfree)

/-- The bytes of a request. -/
def requestBytes (opcode : UInt8) (extras key value : List UInt8) : List UInt8 :=
  [0x80, opcode, 0, UInt8.ofNat key.length, UInt8.ofNat extras.length, 0, 0, 0, 0, 0, 0,
    UInt8.ofNat (extras.length + key.length + value.length)] ++ List.replicate 12 0 ++ extras ++
    key ++ value

/-- A request at the start of the receive buffer of the only connection. -/
def arrival (bytes : List UInt8) : ServingAction :=
  .request ⟨0, 0, fun x => bytes.getD x 0, UInt16.ofNat bytes.length, 0, 0, true⟩

def getRequest (key : List UInt8) : ServingAction := arrival (requestBytes 0x00 [] key [])

def setRequest (key value : List UInt8) : ServingAction :=
  arrival (requestBytes 0x01 (List.replicate 8 0) key value)

def deleteRequest (key : List UInt8) : ServingAction := arrival (requestBytes 0x04 [] key [])

/-- Four segments of one page. -/
def servingSettings : Settings := ⟨64, 4096, 4, by decide⟩

/-- No key has been deleted. -/
def Undeleted (t : Serving) : Prop := ∀ key e, t.entries key = some e → e.deleted = false

theorem Undeleted.step {action : ServingAction} (hundeleted : t.Undeleted)
    (hfitting : t.Fitting settings action) (hstep : step settings hash t action = some next) :
    next.Undeleted := by
  cases action with
  | start w mapped mapped' =>
      dsimp only [Serving.step] at hstep
      split at hstep
      · obtain ⟨_, _, rfl⟩ := Option.map_eq_some_iff.mp hstep
        exact hundeleted
      · cases hstep
  | request r =>
      obtain ⟨command, hcommand, hrest⟩ := Option.bind_eq_some_iff.mp hstep
      obtain ⟨ia, hw, hrest⟩ := Option.bind_eq_some_iff.mp hrest
      have hne := (hfitting command hcommand ia hw).1
      split at hrest
      case isFalse => cases hrest
      split at hrest
      case h_2 =>
        obtain rfl := Option.some.inj hrest
        exact hundeleted
      case h_1 store ia' c response _ =>
        obtain rfl := Option.some.inj hrest
        intro key e he
        cases command with
        | get => exact hundeleted key e he
        | delete => exact absurd rfl hne
        | set =>
            change Function.update t.entries (r.key .set) _ key = some e at he
            rcases eq_or_ne key (r.key .set) with rfl | hkey
            · rw [Function.update_self] at he
              obtain rfl := Option.some.inj he
              split <;> rfl
            · rw [Function.update_of_ne hkey] at he
              exact hundeleted key e he

theorem Undeleted.harmless {action : ServingAction} (hundeleted : t.Undeleted)
    (hfitting : t.Fitting settings action) : t.Harmless settings action := by
  cases action with
  | start w mapped mapped' => trivial
  | request r =>
      intro command hcommand ia hw
      obtain ⟨hne, hfits⟩ := hfitting command hcommand ia hw
      cases he : t.entries (r.key command) with
      | none =>
          rw [he] at hfits
          exact hfits
      | some e =>
          rw [he] at hfits
          exact ⟨hundeleted _ e he, hfits, fun heq => absurd heq hne⟩

theorem Inv.servesMap (hinv : Inv settings hash t) : ServesMap hash t := by
  obtain ⟨extent, chains, segments, place, hstored⟩ := hinv.stored
  refine ⟨hinv.running, fun a ha hcommand => ?_, fun key e he => (hstored.entry key e he).content⟩
  have hright := hinv.right a ha
  unfold Answer.Right at hright
  cases hbefore : a.before with
  | none =>
      rw [hbefore] at hright
      exact hright hcommand
  | some e =>
      rw [hbefore] at hright
      exact hright.2.1 hcommand

end Serving

end ArmsTiering.Flexkvs
