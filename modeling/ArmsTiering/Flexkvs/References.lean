import ArmsTiering.Flexkvs.Cleaning
import ArmsTiering.Flexkvs.Table

/-!
# Items and the references to them

The store with the items in use.  An item leaves them when its last reference is
dropped, and its addresses are then free again.  The reference count of an item is
the number of its holders, and one more while the table links it.
-/

namespace ArmsTiering.Flexkvs

/-- The store with the addresses and sizes of the items in use. -/
structure ItemStore where
  store : Store
  items : List (ℕ × ℕ)

namespace ItemStore

/-- The empty table, before any item has been allocated from the log. -/
def initial (mem : Memory) (log : Log) : ItemStore where
  store := ⟨mem, fun _ => .empty, log⟩
  items := []

/-- The size of the item at an address. -/
def extent (t : ItemStore) (p : ℕ) : ℕ := (t.items.lookup p).getD 0

def contentAt (t : ItemStore) (p : ℕ) : Content := Flexkvs.contentAt t.store.mem p

def refcount (t : ItemStore) (p : ℕ) : ℕ := itemRefcount t.store.mem p

/-- The addresses are in the log, and in no item in use. -/
def Free (settings : Settings) (t : ItemStore) (nit size : ℕ) : Prop :=
  nit ≠ 0 ∧ nit + size ≤ 2 ^ 64 ∧ (segmentFromPart settings t.store.log nit).isSome = true ∧
    ∀ q ∈ t.items, nit + size ≤ q.1 ∨ q.1 + q.2 ≤ nit

instance (settings : Settings) (t : ItemStore) (nit size : ℕ) : Decidable (t.Free settings nit size) :=
  inferInstanceAs (Decidable (_ ∧ _ ∧ _ ∧ _))

/-- An item that has been allocated and filled in. -/
def alloc (t : ItemStore) (nit hv : ℕ) (key value : List UInt8) : ItemStore where
  store := { t.store with mem := Laid.newItem t.store.mem nit hv key value }
  items := (nit, sizeofItem + value.length + key.length) :: t.items

/-- An item that has been found, filled in again. -/
def overwrite (t : ItemStore) (it hv : ℕ) (key value : List UInt8) : ItemStore :=
  { t with store := { t.store with mem := fillItem t.store.mem it hv key value } }

/-- The items in use after references have been dropped. -/
def collect (t : ItemStore) (store : Store) : ItemStore where
  store := store
  items := t.items.filter fun q => itemRefcount store.mem q.1 ≠ 0

/-- `item_tryref` by the thread that fills the queues of the cleaners. -/
def tryref (t : ItemStore) (it : ℕ) : ItemStore :=
  { t with store := { t.store with mem := (itemTryref t.store.mem it).1 } }

section

variable (settings : Settings) (hash : List UInt8 → UInt32)

/-- `hasht_get` -/
def get (t : ItemStore) (key : List UInt8) : Option (ItemStore × ℕ) :=
  (hashtGet t.store key (hash key).toNat).map fun (store, it) => ({ t with store := store }, it)

/-- `item_unref` -/
def unref (t : ItemStore) (it : ℕ) : Option ItemStore :=
  (itemUnref settings t.store it).map t.collect

/-- `hasht_put` -/
def put (t : ItemStore) (nit cas : ℕ) : Option ItemStore :=
  (hashtPut settings t.store nit cas).map t.collect

/-- The item that a lookup of the key returns, or `NULL`. -/
def lookup (t : ItemStore) (key : List UInt8) : ℕ :=
  ((hashtGet t.store key (hash key).toNat).map Prod.snd).getD 0

end

/-- The hash and the key of an item find it in a slot. -/
def InSlot (t : ItemStore) (it : ℕ) : Prop :=
  ∃ i, (t.store.buckets ((t.contentAt it).hv % nbuckets)).items i = it

instance (t : ItemStore) (it : ℕ) : Decidable (t.InSlot it) :=
  inferInstanceAs (Decidable (∃ _, _))

section

variable (t : ItemStore) (store : Store) (nit hv : ℕ) (key value : List UInt8)

@[simp] theorem store_collect : (t.collect store).store = store := rfl
@[simp] theorem store_overwrite : (t.overwrite nit hv key value).store =
    { t.store with mem := fillItem t.store.mem nit hv key value } := rfl
@[simp] theorem store_alloc : (t.alloc nit hv key value).store =
    { t.store with mem := Laid.newItem t.store.mem nit hv key value } := rfl
@[simp] theorem extent_overwrite : (t.overwrite nit hv key value).extent = t.extent := rfl

theorem extent_alloc : (t.alloc nit hv key value).extent =
    Function.update t.extent nit (sizeofItem + value.length + key.length) :=
  Laid.lookup_cons_getD t.items nit _

end

theorem lookup_filter (keep : ℕ → Bool) (items : List (ℕ × ℕ)) (p : ℕ) :
    (items.filter fun q => keep q.1).lookup p = if keep p = true then items.lookup p else none := by
  induction items with
  | nil => simp
  | cons first rest ih =>
      obtain ⟨q, size⟩ := first
      rw [List.filter_cons]
      by_cases hkeep : keep q = true
      · rw [if_pos hkeep, List.lookup_cons, List.lookup_cons, ih]
        by_cases hq : p = q
        · subst hq
          rw [beq_self_eq_true]
          exact (if_pos hkeep).symm
        · rw [beq_false_of_ne hq]
      · rw [if_neg hkeep, ih, List.lookup_cons]
        by_cases hq : p = q
        · subst hq
          rw [if_neg hkeep, if_neg hkeep]
        · rw [beq_false_of_ne hq]

theorem extent_collect (t : ItemStore) (store : Store) (p : ℕ) : (t.collect store).extent p =
    if itemRefcount store.mem p = 0 then 0 else t.extent p := by
  unfold extent collect
  rw [lookup_filter fun q => decide (itemRefcount store.mem q ≠ 0)]
  by_cases hzero : itemRefcount store.mem p = 0
  · rw [if_pos hzero, if_neg (by simp [hzero])]
    rfl
  · rw [if_neg hzero, if_pos (by simp [hzero])]

theorem Free.room {settings : Settings} {t : ItemStore} {nit size : ℕ}
    (hfree : t.Free settings nit size) : Laid.Room t.extent nit size := by
  obtain ⟨hne, hbound, _, hapart⟩ := hfree
  exact Laid.room_of_items hne hbound hapart

/-! ## The counts -/

/-- Every item in use is filled in, and is referenced by its holders and by the
table only. -/
structure Balanced (settings : Settings) (hash : List UInt8 → UInt32) (t : ItemStore)
    (chains : ℕ → List ℕ) (held : ℕ → ℕ) : Prop where
  laid : Laid t.store.mem t.extent
  table : TableInv hash t.store t.extent chains
  formed : ∀ p, t.extent p ≠ 0 → (t.contentAt p).hv = (hash (t.contentAt p).key).toNat
  segment : ∀ p, t.extent p ≠ 0 → (segmentFromPart settings t.store.log p).isSome = true
  linked : ∀ p, t.store.Linked chains p → t.refcount p = held p + 1
  unlinked : ∀ p, t.extent p ≠ 0 → ¬t.store.Linked chains p → t.refcount p = held p
  live : ∀ p, held p ≠ 0 → t.extent p ≠ 0

/-- No item in use has the count 0. -/
structure Counted (settings : Settings) (hash : List UInt8 → UInt32) (t : ItemStore)
    (chains : ℕ → List ℕ) (held : ℕ → ℕ) : Prop extends Balanced settings hash t chains held where
  used : ∀ p, t.extent p ≠ 0 → t.refcount p ≠ 0

/-- The items that were in use have the contents that they had. -/
def Kept (t t' : ItemStore) : Prop := ∀ p, t.extent p ≠ 0 → t'.contentAt p = t.contentAt p

section

variable {settings : Settings} {hash : List UInt8 → UInt32} {t : ItemStore}
  {chains : ℕ → List ℕ} {held : ℕ → ℕ} {p nit cas : ℕ} {key value : List UInt8}

theorem counted_initial (settings : Settings) (hash : List UInt8 → UInt32) (mem : Memory)
    (log : Log) : Counted settings hash (initial mem log) (fun _ => []) fun _ => 0 := by
  have hnone : ∀ p, ¬(initial mem log).extent p ≠ 0 := fun p hp => hp rfl
  have htable := TableInv.initial hash mem log (initial mem log).extent
  refine ⟨⟨Laid.empty mem, htable, fun p hp => absurd hp (hnone p),
    fun p hp => absurd hp (hnone p), fun p hp => absurd (htable.live hp) (hnone p), fun p hp => absurd hp (hnone p),
    fun p hp => absurd rfl hp⟩, fun p hp => absurd hp (hnone p)⟩

/-- An item without references is neither linked nor held. -/
theorem Balanced.of_refcount_eq_zero (hbalanced : Balanced settings hash t chains held)
    (hzero : t.refcount p = 0) : ¬t.store.Linked chains p ∧ held p = 0 := by
  have hlinked : ¬t.store.Linked chains p := by
    intro hp
    have hcount := hbalanced.linked p hp
    omega
  refine ⟨hlinked, ?_⟩
  by_contra hheld
  have hcount := hbalanced.unlinked p (hbalanced.live p hheld) hlinked
  omega

/-- Items whose count has come to 0 can be freed. -/
theorem Balanced.collect {store : Store}
    (hbalanced : Balanced settings hash { t with store := store } chains held) :
    Counted settings hash (t.collect store) chains held := by
  have hextent : ∀ p, (t.collect store).extent p ≠ 0 →
      itemRefcount store.mem p ≠ 0 ∧ t.extent p ≠ 0 := by
    intro p hp
    rw [extent_collect] at hp
    split at hp
    · exact absurd rfl hp
    · exact ⟨‹_›, hp⟩
  have hsame : ∀ p, itemRefcount store.mem p ≠ 0 → (t.collect store).extent p = t.extent p := by
    intro p hp
    rw [extent_collect, if_neg hp]
  have hlaid := hbalanced.laid
  refine ⟨⟨⟨?_, fun p hp => ?_, fun p hp => ?_, fun p q hp hq => ?_⟩, fun j => ?_,
    fun p hp => hbalanced.formed p (hextent p hp).2,
    fun p hp => hbalanced.segment p (hextent p hp).2, hbalanced.linked,
    fun p hp => hbalanced.unlinked p (hextent p hp).2, fun p hp => ?_⟩,
    fun p hp => (hextent p hp).1⟩
  · rw [extent_collect]
    split
    · rfl
    · exact hlaid.null
  · rw [hsame p (hextent p hp).1]
    exact hlaid.fits p (hextent p hp).2
  · rw [hsame p (hextent p hp).1]
    exact hlaid.bound p (hextent p hp).2
  · rw [hsame p (hextent p hp).1, hsame q (hextent q hq).1]
    exact hlaid.apart p q (hextent p hp).2 (hextent q hq).2
  · refine { hbalanced.table j with live := fun p hp => ?_ }
    have hcount : itemRefcount store.mem p = held p + 1 := hbalanced.linked p ⟨j, hp⟩
    rw [hsame p (by omega)]
    exact (hbalanced.table j).live p hp
  · rw [hsame p fun hzero => hp (hbalanced.of_refcount_eq_zero hzero).2]
    exact hbalanced.live p hp

/-! ## References taken and dropped -/

/-- The store with another count for an item. -/
def setCount (t : ItemStore) (p n : ℕ) (log : Log) : ItemStore :=
  { t with store := { t.store with mem := setRefcount t.store.mem p n, log := log } }

theorem Balanced.setCount (hbalanced : Balanced settings hash t chains held)
    (hp : t.extent p ≠ 0) {n holders : ℕ} (hn : n < 65536)
    (hlinked : t.store.Linked chains p → n = holders + 1)
    (hunlinked : ¬t.store.Linked chains p → n = holders) {log : Log}
    (hlog : ∀ q, (segmentFromPart settings log q).isSome =
      (segmentFromPart settings t.store.log q).isSome) :
    Balanced settings hash (t.setCount p n log) chains (Function.update held p holders) := by
  have hlaid := hbalanced.laid
  have hcontents : ∀ q, t.extent q ≠ 0 → (t.setCount p n log).contentAt q = t.contentAt q :=
    fun q hq => hlaid.contentAt_setRefcount hp hq n
  have hcounts : ∀ q, t.extent q ≠ 0 →
      (t.setCount p n log).refcount q = if q = p then n else t.refcount q := by
    intro q hq
    have hset := hlaid.itemRefcount_setRefcount hp hq n
    rw [Nat.mod_eq_of_lt hn] at hset
    exact hset
  refine ⟨hlaid.setRefcount hp n, hbalanced.table.setRefcount hlaid hp n log, fun q hq => ?_,
    fun q hq => (hlog q).trans (hbalanced.segment q hq), fun q hq => ?_, fun q hq hnot => ?_,
    fun q hq => ?_⟩
  · rw [hcontents q hq]
    exact hbalanced.formed q hq
  · rw [hcounts q (hbalanced.table.live hq)]
    rcases eq_or_ne q p with rfl | hne
    · rw [if_pos rfl, Function.update_self]
      exact hlinked hq
    · rw [if_neg hne, Function.update_of_ne hne]
      exact hbalanced.linked q hq
  · rw [hcounts q hq]
    rcases eq_or_ne q p with rfl | hne
    · rw [if_pos rfl, Function.update_self]
      exact hunlinked hnot
    · rw [if_neg hne, Function.update_of_ne hne]
      exact hbalanced.unlinked q hq hnot
  · rcases eq_or_ne q p with rfl | hne
    · exact hp
    · rw [Function.update_of_ne hne] at hq
      exact hbalanced.live q hq

/-- Another reference is taken on an item in use. -/
theorem Counted.addRef (hcounted : Counted settings hash t chains held) (hp : t.extent p ≠ 0)
    (hlt : t.refcount p < 65535) :
    Counted settings hash (t.setCount p (t.refcount p + 1) t.store.log) chains
      (Function.update held p (held p + 1)) := by
  have hbalanced := hcounted.setCount hp (n := t.refcount p + 1) (by omega)
    (fun hlinked => congrArg (· + 1) (hcounted.linked p hlinked))
    (fun hunlinked => congrArg (· + 1) (hcounted.unlinked p hp hunlinked)) (fun _ => rfl)
  refine ⟨hbalanced, fun q hq => ?_⟩
  have hcount := hcounted.laid.itemRefcount_setRefcount hp hq (t.refcount p + 1)
  change itemRefcount (setRefcount t.store.mem p (t.refcount p + 1)) q ≠ 0
  rw [hcount]
  split
  · omega
  · exact hcounted.used q hq

theorem kept_setCount (hlaid : Laid t.store.mem t.extent) (hp : t.extent p ≠ 0) (n : ℕ)
    (log : Log) : Kept t (t.setCount p n log) :=
  fun _ hq => hlaid.contentAt_setRefcount hp hq n

/-- The cleaner's queue takes a reference. -/
theorem Counted.tryref_eq (hcounted : Counted settings hash t chains held)
    (hp : t.extent p ≠ 0) : t.tryref p = t.setCount p (t.refcount p + 1) t.store.log := by
  have hused : itemRefcount t.store.mem p ≠ 0 := hcounted.used p hp
  unfold tryref itemTryref
  rw [if_neg hused]
  rfl

/-- What a lookup returns, and the reference that it takes. -/
theorem Counted.get_cases (hcounted : Counted settings hash t chains held) (key : List UInt8) :
    (∃ p, t.lookup hash key = p ∧ t.store.Linked chains p ∧ (t.contentAt p).key = key ∧
        (t.refcount p < 65535 →
          t.get hash key = some (t.setCount p (t.refcount p + 1) t.store.log, p))) ∨
      (t.lookup hash key = 0 ∧ (∀ p, t.store.Linked chains p → (t.contentAt p).key ≠ key) ∧
        t.get hash key = some (t, 0)) := by
  unfold lookup get
  rcases hcounted.table.hashtGet_cases hcounted.laid key with ⟨p, hp, hkey, hget⟩ | ⟨hnone, hget⟩
  · have hlive := hcounted.table.live hp
    have hne := hcounted.laid.ne_zero hlive
    have hbound := itemRefcount_lt t.store.mem p
    have hpos := hcounted.used p hlive
    refine .inl ⟨p, ?_, hp, hkey, fun hlt => ?_⟩
    · rw [hget, Store.refFound, if_pos hne]
      by_cases hfull : itemRefcount t.store.mem p = 65535
      · rw [itemRef_of_full hfull]
        rfl
      · rw [itemRef_eq (Nat.pos_of_ne_zero hpos) (by omega)]
        rfl
    · rw [hget, Store.refFound, if_pos hne, itemRef_eq (Nat.pos_of_ne_zero hpos) hlt]
      rfl
  · refine .inr ⟨?_, hnone, ?_⟩
    · rw [hget]
      rfl
    · rw [hget]
      rfl

theorem segmentFromPart_freeLog (settings : Settings) (log : Log) (it total q : ℕ) :
    (segmentFromPart settings (freeLog settings log it total) q).isSome =
      (segmentFromPart settings log q).isSome := by
  unfold freeLog iallocFree
  cases hpart : segmentFromPart settings log it with
  | none => rfl
  | some part =>
      unfold segmentFromPart at hpart ⊢
      dsimp only at hpart ⊢
      split at hpart
      · obtain ⟨h, hh, rfl⟩ := Option.map_eq_some_iff.mp hpart
        split
        · simp only [Option.map_some, Option.getD_some, Log.setHeader, Option.isSome_map]
          rcases eq_or_ne ((q - settings.segBase) / settings.segsize)
            ((it - settings.segBase) / settings.segsize) with heq | hne
          · rw [heq, Function.update_self, hh]
            rfl
          · rw [Function.update_of_ne hne]
        · rfl
      · cases hpart

/-- A holder drops its reference, which may have been the last one. -/
theorem Counted.unref (hcounted : Counted settings hash t chains held) (hheld : held p ≠ 0) :
    ∃ store, t.unref settings p = some (t.collect store) ∧ Kept t (t.collect store) ∧
      store.buckets = t.store.buckets ∧
      Counted settings hash (t.collect store) chains (Function.update held p (held p - 1)) := by
  have hp := hcounted.live p hheld
  have hpos := Nat.pos_of_ne_zero (hcounted.used p hp)
  have hbound := itemRefcount_lt t.store.mem p
  have hunref : itemUnref settings t.store p = some _ :=
    itemUnref_eq hpos fun _ => hcounted.segment p hp
  generalize hlog : (if itemRefcount t.store.mem p = 1 then
    freeLog settings t.store.log p (itemTotalsz t.store.mem p) else t.store.log) = log at hunref
  have hsegment : ∀ q, (segmentFromPart settings log q).isSome =
      (segmentFromPart settings t.store.log q).isSome := by
    intro q
    rw [← hlog]
    split
    · exact segmentFromPart_freeLog settings t.store.log p _ q
    · rfl
  refine ⟨_, congrArg (Option.map t.collect) hunref,
    fun q hq => hcounted.laid.contentAt_setRefcount hp hq _, rfl, ?_⟩
  refine (hcounted.setCount hp (n := t.refcount p - 1) ?_ (fun hlinked => ?_)
    (fun hunlinked => ?_) hsegment).collect
  · exact (Nat.sub_le _ 1).trans_lt hbound
  · have hcount := hcounted.linked p hlinked
    omega
  · have hcount := hcounted.unlinked p hp hunlinked
    omega

/-! ## Items filled in -/

theorem key_length_lt (t : ItemStore) (p : ℕ) : (t.contentAt p).key.length < 65536 := by
  have hlength : (t.contentAt p).key.length = itemKeylen t.store.mem p := Memory.length_read ..
  rw [hlength]
  exact Memory.load_lt t.store.mem (p + 18) 2

theorem value_length_lt (t : ItemStore) (p : ℕ) : (t.contentAt p).value.length < 2 ^ 32 := by
  have hlength : (t.contentAt p).value.length = itemVallen t.store.mem p := Memory.length_read ..
  rw [hlength]
  exact Memory.load_lt t.store.mem (p + 12) 4

/-- What is there of an item after it has been allocated or filled in again. -/
structure FilledIn (hash : List UInt8 → UInt32) (t t' : ItemStore) (chains : ℕ → List ℕ) (p : ℕ)
    (key value : List UInt8) : Prop where
  laid : Laid t'.store.mem t'.extent
  table : TableInv hash t'.store t'.extent chains
  log : t'.store.log = t.store.log
  linked : ∀ q, t'.store.Linked chains q ↔ t.store.Linked chains q
  content : t'.contentAt p = ⟨(hash key).toNat, value.length, key.length, key, value⟩
  extent : ∀ q, q ≠ p → t'.extent q = t.extent q
  others : ∀ q, t.extent q ≠ 0 → q ≠ p → t'.contentAt q = t.contentAt q
  refcounts : ∀ q, t.extent q ≠ 0 → t'.refcount q = t.refcount q

theorem filledIn_alloc (hcounted : Counted settings hash t chains held)
    (hfree : t.Free settings nit (sizeofItem + value.length + key.length))
    (hkey : key.length < 65536) (hvalue : value.length < 2 ^ 32) :
    FilledIn hash t (t.alloc nit (hash key).toNat key value) chains nit key value := by
  have hroom := hfree.room
  have hhv : (hash key).toNat < 2 ^ 32 := (hash key).toNat_lt
  have hsize : sizeofItem = 24 := rfl
  have hzero := hroom.extent_eq_zero (by omega)
  have hlaid := hcounted.laid.extend_newItem hhv hkey hvalue hroom
  have hcontent : Flexkvs.contentAt (Laid.newItem t.store.mem nit (hash key).toNat key value) nit =
      ⟨(hash key).toNat, value.length, key.length, key, value⟩ :=
    Laid.contentAt_newItem hhv hkey hvalue
  have hagree : ∀ q, t.extent q ≠ 0 → Memory.AgreeOn t.store.mem
      (Laid.newItem t.store.mem nit (hash key).toNat key value) q (q + t.extent q) :=
    fun q hq => hroom.agree_newItem hkey hq
  have hmem := congrArg Store.mem (store_alloc t nit (hash key).toNat key value)
  have hstore := store_alloc t nit (hash key).toNat key value
  have hextent := extent_alloc t nit (hash key).toNat key value
  generalize t.alloc nit (hash key).toNat key value = t' at *
  generalize Laid.newItem t.store.mem nit (hash key).toNat key value = mem at *
  dsimp only at hmem
  have hother : ∀ q, q ≠ nit → t'.extent q = t.extent q := by
    intro q hq
    rw [hextent, Function.update_of_ne hq]
  refine ⟨?_, ?_, ?_, fun q => ?_, ?_, hother, fun q hq _ => ?_, fun q hq => ?_⟩
  · rw [hmem, hextent]
    exact hlaid
  · rw [hstore]
    refine hcounted.table.extend hcounted.laid (fun q hq => ?_) hagree
    have hne : q ≠ nit := by
      rintro rfl
      exact hq hzero
    rw [hother q hne]
    exact hq
  · rw [hstore]
  · rw [hstore]
    exact Iff.rfl
  · unfold ItemStore.contentAt
    rw [hmem]
    exact hcontent
  · unfold ItemStore.contentAt
    rw [hmem]
    exact hcounted.laid.contentAt_of_agree hq (hagree q hq)
  · unfold ItemStore.refcount
    rw [hmem]
    exact hcounted.laid.itemRefcount_of_agree hq (hagree q hq)

theorem filledIn_overwrite (hcounted : Counted settings hash t chains held)
    (hp : t.extent p ≠ 0) (hkey : (t.contentAt p).key = key)
    (hfits : sizeofItem + value.length + key.length ≤ t.extent p)
    (hvalue : value.length < 2 ^ 32) :
    FilledIn hash t (t.overwrite p (hash key).toNat key value) chains p key value := by
  have hshort : key.length < 65536 := by
    rw [← hkey]
    exact t.key_length_lt p
  have hagree : ∀ q, t.extent q ≠ 0 → q ≠ p → Memory.AgreeOn t.store.mem
      (fillItem t.store.mem p (hash key).toNat key value) q (q + t.extent q) :=
    fun q hq hne => hcounted.laid.agree_fillItem hshort hp hq hne hfits _
  have hcontent := contentAt_fillItem t.store.mem p (hash key).toNat (hash key).toNat_lt hshort hvalue
  have hnext : itemNext (fillItem t.store.mem p (hash key).toNat key value) p =
      itemNext t.store.mem p := itemNext_fillItem _ _ _ hshort
  have hcount : itemRefcount (fillItem t.store.mem p (hash key).toNat key value) p =
      itemRefcount t.store.mem p := itemRefcount_fillItem _ _ _ hshort
  have hold : (hash key).toNat = (Flexkvs.contentAt t.store.mem p).hv ∧
      key = (Flexkvs.contentAt t.store.mem p).key := by
    refine ⟨?_, hkey.symm⟩
    rw [← hkey]
    exact (hcounted.formed p hp).symm
  have hmem := congrArg Store.mem (store_overwrite t p (hash key).toNat key value)
  have hstore := store_overwrite t p (hash key).toNat key value
  have hextent := extent_overwrite t p (hash key).toNat key value
  generalize t.overwrite p (hash key).toNat key value = t' at *
  generalize fillItem t.store.mem p (hash key).toNat key value = mem at *
  dsimp only at hmem
  refine ⟨?_, ?_, ?_, fun q => ?_, ?_, fun q _ => congrFun hextent q, fun q hq hne => ?_,
    fun q hq => ?_⟩
  · rw [hmem, hextent]
    refine hcounted.laid.rewrite hagree ?_
    rw [itemTotalsz_eq, hcontent]
    exact hfits
  · rw [hstore, hextent]
    refine hcounted.table.rewrite hcounted.laid hagree hnext ?_
    rw [hcontent]
    exact hold
  · rw [hstore]
  · rw [hstore]
    exact Iff.rfl
  · unfold ItemStore.contentAt
    rw [hmem]
    exact hcontent
  · unfold ItemStore.contentAt
    rw [hmem]
    exact hcounted.laid.contentAt_of_agree hq (hagree q hq hne)
  · unfold ItemStore.refcount
    rw [hmem]
    rcases eq_or_ne q p with rfl | hne
    · exact hcount
    · exact hcounted.laid.itemRefcount_of_agree hq (hagree q hq hne)

/-- An item in use has been filled in again. -/
theorem Counted.filledIn {t' : ItemStore} (hcounted : Counted settings hash t chains held)
    (hp : t.extent p ≠ 0) (hextent : t'.extent p = t.extent p)
    (hfilled : FilledIn hash t t' chains p key value) :
    Counted settings hash t' chains held := by
  have hsame : ∀ q, t'.extent q = t.extent q := by
    intro q
    rcases eq_or_ne q p with rfl | hne
    · exact hextent
    · exact hfilled.extent q hne
  refine ⟨⟨hfilled.laid, hfilled.table, fun q hq => ?_, fun q hq => ?_, fun q hq => ?_,
    fun q hq hnot => ?_, fun q hq => ?_⟩, fun q hq => ?_⟩
  · rw [hsame q] at hq
    rcases eq_or_ne q p with rfl | hne
    · rw [hfilled.content]
    · rw [hfilled.others q hq hne]
      exact hcounted.formed q hq
  · rw [hsame q] at hq
    rw [hfilled.log]
    exact hcounted.segment q hq
  · rw [hfilled.linked] at hq
    rw [hfilled.refcounts q (hcounted.table.live hq)]
    exact hcounted.linked q hq
  · rw [hsame q] at hq
    rw [hfilled.linked] at hnot
    rw [hfilled.refcounts q hq]
    exact hcounted.unlinked q hq hnot
  · rw [hsame q]
    exact hcounted.live q hq
  · rw [hsame q] at hq
    rw [hfilled.refcounts q hq]
    exact hcounted.used q hq

/-- A new item with one holder has been filled in. -/
theorem Counted.allocated {t' : ItemStore} (hcounted : Counted settings hash t chains held)
    (hzero : t.extent nit = 0) (hlive : t'.extent nit ≠ 0) (hone : t'.refcount nit = 1)
    (hsegment : (segmentFromPart settings t.store.log nit).isSome = true)
    (hfilled : FilledIn hash t t' chains nit key value) :
    Counted settings hash t' chains (Function.update held nit 1) := by
  have habsent : ¬t.store.Linked chains nit := fun hlinked => hcounted.table.live hlinked hzero
  refine ⟨⟨hfilled.laid, hfilled.table, fun q hq => ?_, fun q hq => ?_, fun q hq => ?_,
    fun q hq hnot => ?_, fun q hq => ?_⟩, fun q hq => ?_⟩
  · rcases eq_or_ne q nit with rfl | hne
    · rw [hfilled.content]
    · rw [hfilled.extent q hne] at hq
      rw [hfilled.others q hq hne]
      exact hcounted.formed q hq
  · rw [hfilled.log]
    rcases eq_or_ne q nit with rfl | hne
    · exact hsegment
    · rw [hfilled.extent q hne] at hq
      exact hcounted.segment q hq
  · rw [hfilled.linked] at hq
    have hne : q ≠ nit := by
      rintro rfl
      exact habsent hq
    rw [Function.update_of_ne hne, hfilled.refcounts q (hcounted.table.live hq)]
    exact hcounted.linked q hq
  · rcases eq_or_ne q nit with rfl | hne
    · rw [Function.update_self]
      exact hone
    · rw [hfilled.extent q hne] at hq
      rw [hfilled.linked] at hnot
      rw [Function.update_of_ne hne, hfilled.refcounts q hq]
      exact hcounted.unlinked q hq hnot
  · rcases eq_or_ne q nit with rfl | hne
    · exact hlive
    · rw [Function.update_of_ne hne] at hq
      rw [hfilled.extent q hne]
      exact hcounted.live q hq
  · rcases eq_or_ne q nit with rfl | hne
    · rw [hone]
      exact Nat.one_ne_zero
    · rw [hfilled.extent q hne] at hq
      rw [hfilled.refcounts q hq]
      exact hcounted.used q hq

/-- A new item for a key. -/
theorem Counted.alloc (hcounted : Counted settings hash t chains held)
    (hfree : t.Free settings nit (sizeofItem + value.length + key.length))
    (hkey : key.length < 65536) (hvalue : value.length < 2 ^ 32) :
    t.extent nit = 0 ∧
      FilledIn hash t (t.alloc nit (hash key).toNat key value) chains nit key value ∧
      Counted settings hash (t.alloc nit (hash key).toNat key value) chains
        (Function.update held nit 1) := by
  have hsize : sizeofItem = 24 := rfl
  have hzero := hfree.room.extent_eq_zero (by omega)
  have hfilled := filledIn_alloc hcounted hfree hkey hvalue
  refine ⟨hzero, hfilled, hcounted.allocated hzero ?_ ?_ hfree.2.2.1 hfilled⟩
  · rw [extent_alloc, Function.update_self]
    omega
  · rw [ItemStore.refcount, store_alloc, Laid.itemRefcount_newItem hkey]

/-- An item is filled in again, within the addresses that it was given. -/
theorem Counted.overwrite (hcounted : Counted settings hash t chains held)
    (hp : t.extent p ≠ 0) (hkey : (t.contentAt p).key = key)
    (hfits : sizeofItem + value.length + key.length ≤ t.extent p)
    (hvalue : value.length < 2 ^ 32) :
    FilledIn hash t (t.overwrite p (hash key).toNat key value) chains p key value ∧
      Counted settings hash (t.overwrite p (hash key).toNat key value) chains held := by
  have hfilled := filledIn_overwrite hcounted hp hkey hfits hvalue
  exact ⟨hfilled, hcounted.filledIn hp (congrFun (extent_overwrite ..) p) hfilled⟩

/-! ## Insertions -/

/-- The store after an insertion has taken its reference on the new item, with
other holders where the table has dropped a reference. -/
theorem Counted.effect (hcounted : Counted settings hash t chains held) {store : Store}
    {chains' : ℕ → List ℕ} {held' : ℕ → ℕ} (htable : TableInv hash store t.extent chains')
    (heffect : PutEffect t.store store t.extent nit)
    (hlinked : ∀ p, store.Linked chains' p →
      (if p = nit then t.refcount p + 1 else t.refcount p) = held' p + 1)
    (hunlinked : ∀ p, t.extent p ≠ 0 → ¬store.Linked chains' p →
      (if p = nit then t.refcount p + 1 else t.refcount p) = held' p)
    (hlive : ∀ p, held' p ≠ 0 → t.extent p ≠ 0) :
    Counted settings hash { t with store := store } chains' held' := by
  have hcontents : ∀ p, t.extent p ≠ 0 → Flexkvs.contentAt store.mem p = t.contentAt p :=
    heffect.contents
  refine ⟨⟨heffect.laid, htable, fun p hp => ?_, fun p hp => ?_, fun p hp => ?_,
    fun p hp hnot => ?_, hlive⟩, fun p hp => ?_⟩
  · change (Flexkvs.contentAt store.mem p).hv =
      (hash (Flexkvs.contentAt store.mem p).key).toNat
    rw [hcontents p hp]
    exact hcounted.formed p hp
  · change (segmentFromPart settings store.log p).isSome = true
    rw [heffect.log]
    exact hcounted.segment p hp
  · exact (heffect.refcounts p (htable.live hp)).trans (hlinked p hp)
  · exact (heffect.refcounts p hp).trans (hunlinked p hp hnot)
  · change itemRefcount store.mem p ≠ 0
    have hused : itemRefcount t.store.mem p ≠ 0 := hcounted.used p hp
    rw [heffect.refcounts p hp]
    split
    · exact Nat.succ_ne_zero _
    · exact hused

/-- What an insertion does to the table. -/
inductive PutLinks (t : ItemStore) (store : Store) (chains chains' : ℕ → List ℕ) (nit cas : ℕ) :
    Prop
  /-- the compare-and-set fails -/
  | kept (hcas : cas ≠ 0) (hlinked : ∀ p, store.Linked chains' p ↔ t.store.Linked chains p)
  /-- the item is linked for its key, in place of any other -/
  | stored (hcas : cas = 0 ∨ t.InSlot cas)
      (hlinked : ∀ p, store.Linked chains' p ↔
        p = nit ∨ t.store.Linked chains p ∧ (t.contentAt p).key ≠ (t.contentAt nit).key)

/-- A compare-and-set of an item that is in no slot fails. -/
theorem hashtPut_of_not_inSlot (hcas : cas ≠ 0) (hhv : (t.contentAt cas).hv = (t.contentAt nit).hv)
    (hslot : ¬t.InSlot cas) : hashtPut settings t.store nit cas = some t.store := by
  have hhv' : itemHv t.store.mem nit = (t.contentAt cas).hv := hhv.symm
  cases hfind : findSlot t.store.mem (t.store.buckets (itemHv t.store.mem nit % nbuckets))
      (Flexkvs.contentAt t.store.mem nit).key (itemHv t.store.mem nit) with
  | none => exact hashtPut_of_cas settings hfind hcas
  | some i =>
      rw [hashtPut_of_slot settings cas hfind]
      refine if_pos ⟨hcas, fun heq => hslot ⟨i, ?_⟩⟩
      rw [← hhv']
      exact heq.symm

/-- The item that an insertion links had the references of its holders only. -/
theorem Counted.refcount_linked (hcounted : Counted settings hash t chains held)
    (habsent : ¬t.store.Linked chains nit) (hp : t.store.Linked chains p) :
    (if p = nit then t.refcount p + 1 else t.refcount p) = held p + 1 := by
  rw [if_neg]
  · exact hcounted.linked p hp
  · rintro rfl
    exact habsent hp

/-- The item is linked for a new key. -/
theorem Counted.inserted (hcounted : Counted settings hash t chains held)
    (hlive : t.extent nit ≠ 0) (habsent : ¬t.store.Linked chains nit) {s' : Store}
    {chains' : ℕ → List ℕ} (htable : TableInv hash s' t.extent chains')
    (heffect : PutEffect t.store s' t.extent nit)
    (hlinked : ∀ p, s'.Linked chains' p ↔ p = nit ∨ t.store.Linked chains p) :
    Counted settings hash { t with store := s' } chains' held := by
  refine hcounted.effect htable heffect (fun p hp => ?_) (fun p hp hnot => ?_) hcounted.live
  · rcases (hlinked p).mp hp with rfl | hp
    · rw [if_pos rfl, hcounted.unlinked p hlive habsent]
    · exact hcounted.refcount_linked habsent hp
  · rw [hlinked, not_or] at hnot
    rw [if_neg hnot.1]
    exact hcounted.unlinked p hp hnot.2

/-- The item is linked in place of `it`: the reference of the table on `it` is one
more to drop. -/
theorem Counted.replaced (hcounted : Counted settings hash t chains held)
    (hlive : t.extent nit ≠ 0) (habsent : ¬t.store.Linked chains nit) {it : ℕ}
    (hit : t.store.Linked chains it) {s' : Store} {chains' : ℕ → List ℕ}
    (htable : TableInv hash s' t.extent chains') (heffect : PutEffect t.store s' t.extent nit)
    (hlinked : ∀ p, s'.Linked chains' p ↔ p = nit ∨ t.store.Linked chains p ∧ p ≠ it) :
    Counted settings hash { t with store := s' } chains'
      (Function.update held it (held it + 1)) := by
  have hne : nit ≠ it := by
    rintro rfl
    exact habsent hit
  refine hcounted.effect htable heffect (fun p hp => ?_) (fun p hp hnot => ?_) fun p hp => ?_
  · rcases (hlinked p).mp hp with rfl | ⟨hp, hpNe⟩
    · rw [if_pos rfl, Function.update_of_ne hne, hcounted.unlinked p hlive habsent]
    · rw [Function.update_of_ne hpNe]
      exact hcounted.refcount_linked habsent hp
  · rw [hlinked, not_or, not_and, not_not] at hnot
    rw [if_neg hnot.1]
    rcases eq_or_ne p it with rfl | hpNe
    · rw [Function.update_self]
      exact hcounted.linked p hit
    · rw [Function.update_of_ne hpNe]
      exact hcounted.unlinked p hp fun hlinked => hpNe (hnot.2 hlinked)
  · rcases eq_or_ne p it with rfl | hpNe
    · exact hcounted.table.live hit
    · rw [Function.update_of_ne hpNe] at hp
      exact hcounted.live p hp

/-- An insertion of an item that its caller holds and that is not linked yet. -/
theorem Counted.put (hcounted : Counted settings hash t chains held) (hnit : held nit ≠ 0)
    (habsent : ¬t.store.Linked chains nit) (hlt : t.refcount nit < 65535) (cas : ℕ)
    (hhv : cas ≠ 0 → (t.contentAt cas).hv = (t.contentAt nit).hv) :
    ∃ store chains', t.put settings nit cas = some (t.collect store) ∧
      Kept t (t.collect store) ∧ Counted settings hash (t.collect store) chains' held ∧
      PutLinks t store chains chains' nit cas := by
  have hlive := hcounted.live nit hnit
  have hpos := hcounted.used nit hlive
  have hfresh : Fresh hash t.store t.extent chains nit :=
    ⟨hlive, hcounted.formed nit hlive, habsent, Nat.pos_of_ne_zero hpos, hlt⟩
  have hsame : hashtPut settings t.store nit cas = some t.store → cas ≠ 0 →
      ∃ store chains', t.put settings nit cas = some (t.collect store) ∧
        Kept t (t.collect store) ∧ Counted settings hash (t.collect store) chains' held ∧
        PutLinks t store chains chains' nit cas := by
    intro hput hcas
    refine ⟨t.store, chains, ?_, fun p _ => rfl, hcounted.toBalanced.collect,
      .kept hcas fun p => Iff.rfl⟩
    rw [ItemStore.put, hput]
    rfl
  cases hashtPut_cases settings hcounted.table hcounted.laid hfresh cas with
  | kept hcas _ hput => exact hsame hput hcas
  | inserted s' chains' hnew hcas hput htable heffect hlinked =>
      have hcounted' := hcounted.inserted hlive habsent htable heffect hlinked
      refine ⟨s', chains', ?_, heffect.contents, hcounted'.toBalanced.collect,
        .stored (.inl hcas) fun p => ?_⟩
      · rw [ItemStore.put, hput]
        rfl
      · rw [hlinked]
        exact or_congr_right ⟨fun hp => ⟨hp, hnew p hp⟩, And.left⟩
  | replaced it s' chains' hit hkey hcas hput htable heffect hlinked =>
      by_cases hslot : cas ≠ 0 ∧ ¬t.InSlot cas
      · exact hsame (hashtPut_of_not_inSlot hslot.1 (hhv hslot.1) hslot.2) hslot.1
      have hcounted' := hcounted.replaced hlive habsent hit htable heffect hlinked
      obtain ⟨store, hunref, hkept, hbuckets, hfinal⟩ := hcounted'.unref (p := it) (by
        rw [Function.update_self]
        exact Nat.succ_ne_zero _)
      rw [Function.update_self, Nat.add_sub_cancel, Function.update_idem,
        Function.update_eq_self] at hfinal
      have hlinked' : ∀ p, store.Linked chains' p ↔ s'.Linked chains' p := by
        intro p
        unfold Store.Linked
        rw [hbuckets]
      refine ⟨store, chains', ?_, fun p hp => (hkept p hp).trans (heffect.contents p hp), hfinal,
        .stored ?_ fun p => ?_⟩
      · rw [ItemStore.put, hput]
        exact hunref
      · rcases hcas with hcas | rfl
        · exact .inl hcas
        · by_cases hzero : cas = 0
          · exact .inl hzero
          · exact .inr (not_not.mp fun hnot => hslot ⟨hzero, hnot⟩)
      · rw [hlinked', hlinked]
        refine or_congr_right (and_congr_right fun hp => ⟨fun hpNe hpKey => hpNe ?_, ?_⟩)
        · exact hcounted.table.eq_of_key hp hit (hpKey.trans hkey.symm)
        · rintro hpKey rfl
          exact hpKey hkey

end

end ItemStore

/-- Two segments of one page. -/
def pageSettings : Settings := ⟨64, 4096, 2, by decide⟩

/-- One of them is in use. -/
def pageLog : Log :=
  ⟨none, fun i => if i = 0 then some ⟨none, 4096, 0, 4096, true⟩ else none, 1⟩

end ArmsTiering.Flexkvs
