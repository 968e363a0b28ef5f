import ArmsTiering.Flexkvs.Buckets

/-!
# Operations of the table

What a lookup returns and what an insertion does to the table, to the contents
of the items and to their reference counts.
-/

namespace ArmsTiering.Flexkvs

variable {hash : List UInt8 → UInt32} {s : Store} {extent : ℕ → ℕ} {chains : ℕ → List ℕ}

/-! ## Reference counts -/

section

variable {m : Memory} {it : ℕ} {settings : Settings}

theorem itemRef_eq (hpos : 0 < itemRefcount m it) (hlt : itemRefcount m it < 65535) :
    itemRef m it = some (setRefcount m it (itemRefcount m it + 1)) := by
  have hmod : (itemRefcount m it + 1) % 65536 = itemRefcount m it + 1 :=
    Nat.mod_eq_of_lt (by omega)
  rw [itemRef, hmod, if_neg (by omega)]

/-- The reference count wraps around without notice. -/
theorem itemRef_of_full (hfull : itemRefcount m it = 65535) :
    itemRef m it = some (setRefcount m it 0) := by
  rw [itemRef, hfull]
  rfl

/-- The log after an item has been freed. -/
def freeLog (settings : Settings) (log : Log) (it total : ℕ) : Log :=
  (iallocFree settings log it total).getD log

/-- Dropping a reference, which frees the item if it was the last one. -/
theorem itemUnref_eq (hpos : 0 < itemRefcount s.mem it)
    (hsegment : itemRefcount s.mem it = 1 → (segmentFromPart settings s.log it).isSome) :
    itemUnref settings s it = some { s with
      mem := setRefcount s.mem it (itemRefcount s.mem it - 1)
      log := if itemRefcount s.mem it = 1 then
          freeLog settings s.log it (itemTotalsz s.mem it) else s.log } := by
  rw [itemUnref, if_neg (Nat.ne_of_gt hpos)]
  by_cases hone : itemRefcount s.mem it = 1
  · obtain ⟨part, hpart⟩ := Option.isSome_iff_exists.mp (hsegment hone)
    have htotal : itemTotalsz (setRefcount s.mem it 0) it = itemTotalsz s.mem it := by
      rw [itemTotalsz_eq, contentAt_setRefcount, ← itemTotalsz_eq]
    simp only [hone, Nat.sub_self, if_true, htotal, freeLog, iallocFree, hpart, Option.map_some,
      Option.getD_some]
  · have hrest : itemRefcount s.mem it - 1 ≠ 0 := by omega
    simp only [if_neg hone, if_neg hrest]

end

/-! ## The invariant of the table -/

/-- The invariant of all buckets. -/
def TableInv (hash : List UInt8 → UInt32) (s : Store) (extent : ℕ → ℕ)
    (chains : ℕ → List ℕ) : Prop :=
  ∀ j, BucketInv hash s.mem extent (s.buckets j) j (chains j)

/-- The table links the item. -/
def Store.Linked (s : Store) (chains : ℕ → List ℕ) (p : ℕ) : Prop :=
  ∃ j, (s.buckets j).Holds (chains j) p

/-- The bucket of a key. -/
def bucketOf (hash : List UInt8 → UInt32) (key : List UInt8) : ℕ := (hash key).toNat % nbuckets

namespace TableInv

theorem live (hinv : TableInv hash s extent chains) {p : ℕ} (hp : s.Linked chains p) :
    extent p ≠ 0 := by
  obtain ⟨j, hp⟩ := hp
  exact (hinv j).live p hp

/-- A linked item is in the bucket of its key. -/
theorem holds_bucketOf (hinv : TableInv hash s extent chains) {p : ℕ} (hp : s.Linked chains p) :
    (s.buckets (bucketOf hash (contentAt s.mem p).key)).Holds
      (chains (bucketOf hash (contentAt s.mem p).key)) p := by
  obtain ⟨j, hp⟩ := hp
  have hindex : bucketOf hash (contentAt s.mem p).key = j := by
    rw [bucketOf, ← (hinv j).hv p hp]
    exact (hinv j).index p hp
  rw [hindex]
  exact hp

/-- No key is stored twice. -/
theorem eq_of_key (hinv : TableInv hash s extent chains) {p q : ℕ} (hp : s.Linked chains p)
    (hq : s.Linked chains q) (hkey : (contentAt s.mem p).key = (contentAt s.mem q).key) :
    p = q := by
  have hpHeld := hinv.holds_bucketOf hp
  have hqHeld := hinv.holds_bucketOf hq
  rw [← hkey] at hqHeld
  exact (hinv _).eq_of_key hpHeld hqHeld hkey

theorem initial (hash : List UInt8 → UInt32) (mem : Memory) (log : Log) (extent : ℕ → ℕ) :
    TableInv hash ⟨mem, fun _ => .empty, log⟩ extent fun _ => [] :=
  fun j => BucketInv.empty hash mem extent j

/-- Only links and contents of the items matter. -/
theorem congr (hinv : TableInv hash s extent chains) {mem : Memory} {log : Log}
    (hnext : ∀ p, extent p ≠ 0 → itemNext mem p = itemNext s.mem p)
    (hcontent : ∀ p, extent p ≠ 0 → contentAt mem p = contentAt s.mem p) :
    TableInv hash { s with mem := mem, log := log } extent chains :=
  fun j => (hinv j).congr (fun p hp => hnext p ((hinv j).live p hp))
    fun p hp => hcontent p ((hinv j).live p hp)

/-- An item may be rewritten with the same key and link. -/
theorem rewrite (hinv : TableInv hash s extent chains) (hlaid : Laid s.mem extent) {mem : Memory}
    {p : ℕ} (hothers : ∀ q, extent q ≠ 0 → q ≠ p → Memory.AgreeOn s.mem mem q (q + extent q))
    (hnext : itemNext mem p = itemNext s.mem p)
    (hkey : (contentAt mem p).hv = (contentAt s.mem p).hv ∧
      (contentAt mem p).key = (contentAt s.mem p).key) :
    TableInv hash { s with mem := mem } extent chains := by
  intro j
  refine (hinv j).congr_keys (fun q hq => ?_) fun q hq => ?_
  · rcases eq_or_ne q p with rfl | hne
    · exact hnext
    · have hlive := (hinv j).live q hq
      exact hlaid.itemNext_of_agree hlive (hothers q hlive hne)
  · rcases eq_or_ne q p with rfl | hne
    · exact hkey
    · have hlive := (hinv j).live q hq
      rw [hlaid.contentAt_of_agree hlive (hothers q hlive hne)]
      exact ⟨rfl, rfl⟩

/-- References do not matter. -/
theorem setRefcount (hinv : TableInv hash s extent chains) (hlaid : Laid s.mem extent) {p : ℕ}
    (hp : extent p ≠ 0) (refcount : ℕ) (log : Log) :
    TableInv hash { s with mem := Flexkvs.setRefcount s.mem p refcount, log := log } extent
      chains :=
  hinv.congr (fun _ hq => hlaid.itemNext_setRefcount hp hq refcount)
    fun _ hq => hlaid.contentAt_setRefcount hp hq refcount

/-- Items that the table does not link do not matter. -/
theorem extend (hinv : TableInv hash s extent chains) (hlaid : Laid s.mem extent)
    {extent' : ℕ → ℕ} {mem : Memory} {log : Log} (hextent : ∀ p, extent p ≠ 0 → extent' p ≠ 0)
    (hagree : ∀ p, extent p ≠ 0 → Memory.AgreeOn s.mem mem p (p + extent p)) :
    TableInv hash { s with mem := mem, log := log } extent' chains := by
  intro j
  have hkept : BucketInv hash mem extent (s.buckets j) j (chains j) :=
    (hinv j).congr
      (fun p hp => hlaid.itemNext_of_agree ((hinv j).live p hp) (hagree p ((hinv j).live p hp)))
      fun p hp => hlaid.contentAt_of_agree ((hinv j).live p hp) (hagree p ((hinv j).live p hp))
  exact { hkept with live := fun p hp => hextent p (hkept.live p hp) }

/-! ## Lookups -/

/-- A lookup takes a reference on the item that is linked for the key, if there
is one. -/
theorem hashtGet_cases (hinv : TableInv hash s extent chains) (hlaid : Laid s.mem extent)
    (key : List UInt8) :
    (∃ p, s.Linked chains p ∧ (contentAt s.mem p).key = key ∧
        hashtGet s key (hash key).toNat = s.refFound p) ∨
      ((∀ p, s.Linked chains p → (contentAt s.mem p).key ≠ key) ∧
        hashtGet s key (hash key).toNat = some (s, 0)) := by
  have hbucket := hinv (bucketOf hash key)
  have hindex : (hash key).toNat % nbuckets = bucketOf hash key := rfl
  rw [hashtGet, hindex]
  cases hbucket.found hlaid key with
  | slot i hfind hi hkey =>
      refine .inl ⟨_, ⟨_, HashBucket.holds_slot hi⟩, hkey, ?_⟩
      rw [hfind]
  | chained before it after hfind hlast hchain hsearch hkey =>
      refine .inl ⟨it, ⟨bucketOf hash key, .inr ?_⟩, hkey, ?_⟩
      · rw [hchain]
        exact List.mem_append_right _ List.mem_cons_self
      · simp only [hfind, hsearch]
        exact if_pos hlast
  | missing hfind hsearch hnone =>
      refine .inr ⟨fun p hp hkey => ?_, ?_⟩
      · have hheld := hinv.holds_bucketOf hp
        rw [hkey] at hheld
        exact hnone p hheld hkey
      · rw [hfind]
        dsimp only
        split
        · rename_i hlast
          obtain ⟨prev, hend⟩ := hsearch hlast
          rw [hend]
          rfl
        · rename_i hlast
          rw [not_not.mp hlast]
          rfl

end TableInv

/-! ## Insertions -/

/-- An item that can be put into the table: it is filled in, the table does not
link it, and its reference count does not overflow. -/
structure Fresh (hash : List UInt8 → UInt32) (s : Store) (extent : ℕ → ℕ) (chains : ℕ → List ℕ)
    (nit : ℕ) : Prop where
  live : extent nit ≠ 0
  hv : (contentAt s.mem nit).hv = (hash (contentAt s.mem nit).key).toNat
  absent : ¬s.Linked chains nit
  refcount_pos : 0 < itemRefcount s.mem nit
  refcount_lt : itemRefcount s.mem nit < 65535

/-- A new item for its key can be put into the table. -/
theorem TableInv.fresh_newItem (hinv : TableInv hash s extent chains) {nit : ℕ}
    {key value : List UInt8} (hkey : key.length < 65536) (hvalue : value.length < 2 ^ 32)
    (hroom : Laid.Room extent nit (sizeofItem + value.length + key.length)) (log : Log) :
    Fresh hash { s with mem := Laid.newItem s.mem nit (hash key).toNat key value, log := log }
      (Function.update extent nit (sizeofItem + value.length + key.length)) chains nit := by
  have hsize : sizeofItem = 24 := rfl
  have hhv : (hash key).toNat < 2 ^ 32 := (hash key).toNat_lt
  have hrefcount : itemRefcount (Laid.newItem s.mem nit (hash key).toNat key value) nit = 1 :=
    Laid.itemRefcount_newItem hkey
  refine ⟨?_, ?_, fun hlinked => ?_, ?_, ?_⟩
  · rw [Function.update_self]
    omega
  · rw [Laid.contentAt_newItem hhv hkey hvalue]
  · exact hinv.live hlinked (hroom.extent_eq_zero (by omega))
  · dsimp only
    omega
  · dsimp only
    omega

/-- An insertion takes a reference on the new item.  Otherwise it changes only
links. -/
structure PutEffect (s s' : Store) (extent : ℕ → ℕ) (nit : ℕ) : Prop where
  log : s'.log = s.log
  laid : Laid s'.mem extent
  contents : ∀ p, extent p ≠ 0 → contentAt s'.mem p = contentAt s.mem p
  refcounts : ∀ p, extent p ≠ 0 →
    itemRefcount s'.mem p = if p = nit then itemRefcount s.mem p + 1 else itemRefcount s.mem p

/-- What an insertion can come to. -/
inductive PutOutcome (hash : List UInt8 → UInt32) (settings : Settings) (s : Store)
    (extent : ℕ → ℕ) (chains : ℕ → List ℕ) (nit cas : ℕ) : Prop
  /-- the compare-and-set fails -/
  | kept (hcas : cas ≠ 0)
      (hother : ∀ j i, (s.buckets j).items i = cas →
        (contentAt s.mem cas).key ≠ (contentAt s.mem nit).key)
      (hput : hashtPut settings s nit cas = some s)
  /-- the item of the key is replaced, and its reference dropped -/
  | replaced (it : ℕ) (s' : Store) (chains' : ℕ → List ℕ) (hit : s.Linked chains it)
      (hkey : (contentAt s.mem it).key = (contentAt s.mem nit).key) (hcas : cas = 0 ∨ cas = it)
      (hput : hashtPut settings s nit cas = itemUnref settings s' it)
      (htable : TableInv hash s' extent chains') (heffect : PutEffect s s' extent nit)
      (hlinked : ∀ p, s'.Linked chains' p ↔ p = nit ∨ s.Linked chains p ∧ p ≠ it)
  /-- the key is new -/
  | inserted (s' : Store) (chains' : ℕ → List ℕ)
      (hnew : ∀ p, s.Linked chains p → (contentAt s.mem p).key ≠ (contentAt s.mem nit).key)
      (hcas : cas = 0) (hput : hashtPut settings s nit cas = some s')
      (htable : TableInv hash s' extent chains') (heffect : PutEffect s s' extent nit)
      (hlinked : ∀ p, s'.Linked chains' p ↔ p = nit ∨ s.Linked chains p)

/-- The memory after a reference has been taken on an item and its link set. -/
def linkItem (m : Memory) (nit next : ℕ) : Memory :=
  setNext (setRefcount m nit (itemRefcount m nit + 1)) nit next

section

variable {m : Memory} {nit next : ℕ}

theorem itemNext_linkItem (m : Memory) (nit : ℕ) (hnext : next < 2 ^ 64) :
    itemNext (linkItem m nit next) nit = next :=
  Flexkvs.itemNext_setNext _ _ hnext

variable (hlaid : Laid m extent) (hnit : extent nit ≠ 0)

include hlaid hnit

theorem linkItem_laid (next : ℕ) : Laid (linkItem m nit next) extent :=
  (hlaid.setRefcount hnit _).setNext hnit next

theorem linkItem_relinked (next : ℕ) :
    BucketInv.Relinked m (linkItem m nit next) extent nit nit := by
  have hmiddle := hlaid.setRefcount hnit (itemRefcount m nit + 1)
  refine ⟨fun p hp => ?_, fun p hp hne _ => ?_⟩
  · exact (hmiddle.contentAt_setNext hnit hp next).trans (hlaid.contentAt_setRefcount hnit hp _)
  · rw [linkItem, itemNext_of_agree ((hmiddle.agree_setNext hnit hp hne next).mono le_rfl ?_)]
    · exact hlaid.itemNext_setRefcount hnit hp _
    · have hsize := hlaid.sizeofItem_le hp
      unfold sizeofItem at hsize
      omega

theorem itemRefcount_linkItem (hlt : itemRefcount m nit < 65535) (next : ℕ) {p : ℕ}
    (hp : extent p ≠ 0) :
    itemRefcount (linkItem m nit next) p =
      if p = nit then itemRefcount m p + 1 else itemRefcount m p := by
  have hmiddle := hlaid.setRefcount hnit (itemRefcount m nit + 1)
  rw [linkItem, hmiddle.itemRefcount_setNext hnit hp, hlaid.itemRefcount_setRefcount hnit hp]
  split
  · rename_i heq
    rw [heq, Nat.mod_eq_of_lt (by omega)]
  · rfl

end

/-- The buckets other than that of the new item. -/
theorem TableInv.other (hinv : TableInv hash s extent chains) {m : Memory} {nit prev j : ℕ}
    (habsent : ¬s.Linked chains nit) (hprev : prev = nit ∨ (s.buckets j).Holds (chains j) prev)
    (hrelinked : BucketInv.Relinked s.mem m extent nit prev) {k : ℕ} (hk : k ≠ j) :
    BucketInv hash m extent (s.buckets k) k (chains k) := by
  refine (hinv k).congr (fun p hp => ?_) fun p hp => hrelinked.contents p ((hinv k).live p hp)
  have hnit : p ≠ nit := by
    rintro rfl
    exact habsent ⟨k, hp⟩
  refine hrelinked.next p ((hinv k).live p hp) hnit ?_
  rintro rfl
  rcases hprev with rfl | hprev
  · exact hnit rfl
  · exact hk (((hinv k).index p hp).symm.trans ((hinv j).index p hprev))

/-- The table after the bucket `j` has been changed. -/
theorem TableInv.update (hinv : TableInv hash s extent chains) {m : Memory} {nit prev j : ℕ}
    (habsent : ¬s.Linked chains nit) (hprev : prev = nit ∨ (s.buckets j).Holds (chains j) prev)
    (hrelinked : BucketInv.Relinked s.mem m extent nit prev) {b : HashBucket} {chain : List ℕ}
    (hbucket : BucketInv hash m extent b j chain) :
    TableInv hash { s with mem := m, buckets := Function.update s.buckets j b } extent
      (Function.update chains j chain) := by
  intro k
  rcases eq_or_ne k j with rfl | hk
  · dsimp only
    rw [Function.update_self, Function.update_self]
    exact hbucket
  · dsimp only
    rw [Function.update_of_ne hk, Function.update_of_ne hk]
    exact hinv.other habsent hprev hrelinked hk

/-- The items of the table after the bucket `j` has been changed. -/
theorem Store.linked_update {m : Memory} {nit j : ℕ} {b : HashBucket} {chain : List ℕ}
    {keep : ℕ → Prop}
    (hholds : ∀ p, b.Holds chain p ↔ p = nit ∨ (s.buckets j).Holds (chains j) p ∧ keep p)
    (hother : ∀ k, k ≠ j → ∀ p, (s.buckets k).Holds (chains k) p → keep p) (p : ℕ) :
    Store.Linked { s with mem := m, buckets := Function.update s.buckets j b }
        (Function.update chains j chain) p ↔
      p = nit ∨ s.Linked chains p ∧ keep p := by
  constructor
  · rintro ⟨k, hk⟩
    dsimp only at hk
    rcases eq_or_ne k j with rfl | hne
    · rw [Function.update_self, Function.update_self] at hk
      rcases (hholds p).mp hk with rfl | ⟨hold, hkeep⟩
      · exact .inl rfl
      · exact .inr ⟨⟨k, hold⟩, hkeep⟩
    · rw [Function.update_of_ne hne, Function.update_of_ne hne] at hk
      exact .inr ⟨⟨k, hk⟩, hother k hne p hk⟩
  · intro hp
    have hj : (p = nit ∨ (s.buckets j).Holds (chains j) p ∧ keep p) →
        Store.Linked { s with mem := m, buckets := Function.update s.buckets j b }
          (Function.update chains j chain) p := by
      intro hcase
      refine ⟨j, ?_⟩
      dsimp only
      rw [Function.update_self, Function.update_self]
      exact (hholds p).mpr hcase
    rcases hp with rfl | ⟨⟨k, hk⟩, hkeep⟩
    · exact hj (.inl rfl)
    · rcases eq_or_ne k j with rfl | hne
      · exact hj (.inr ⟨hk, hkeep⟩)
      · refine ⟨k, ?_⟩
        dsimp only
        rw [Function.update_of_ne hne, Function.update_of_ne hne]
        exact hk

/-- An item of the bucket `j` is in no other bucket. -/
theorem TableInv.ne_of_other (hinv : TableInv hash s extent chains) {it j : ℕ}
    (hit : (s.buckets j).Holds (chains j) it) (k : ℕ) (hk : k ≠ j) (p : ℕ)
    (hp : (s.buckets k).Holds (chains k) p) : p ≠ it := by
  rintro rfl
  exact hk (((hinv k).index p hp).symm.trans ((hinv j).index p hit))

theorem Fresh.fits {nit : ℕ} (hfresh : Fresh hash s extent chains nit) (hlaid : Laid s.mem extent) :
    BucketInv.Fits hash s.mem extent (s.buckets (bucketOf hash (contentAt s.mem nit).key))
      (bucketOf hash (contentAt s.mem nit).key)
      (chains (bucketOf hash (contentAt s.mem nit).key)) nit := by
  refine ⟨hfresh.live, hlaid.ne_zero hfresh.live, hfresh.hv, ?_, fun hheld => ?_⟩
  · rw [hfresh.hv, bucketOf]
  · exact hfresh.absent ⟨_, hheld⟩

/-- Replacing the item of the slot `i`. -/
theorem replaceSlot_outcome (settings : Settings) (hinv : TableInv hash s extent chains)
    (hlaid : Laid s.mem extent) {nit : ℕ} (hfresh : Fresh hash s extent chains nit) {j : ℕ}
    (hj : j = bucketOf hash (contentAt s.mem nit).key) {hv : ℕ} (hhv : hv % nbuckets = j)
    {i : Fin bucketNitems} (hi : (s.buckets j).items i ≠ 0)
    (hkey : (contentAt s.mem ((s.buckets j).items i)).key = (contentAt s.mem nit).key) :
    ∃ s' chains', replaceSlot settings s nit hv i =
        itemUnref settings s' ((s.buckets j).items i) ∧
      TableInv hash s' extent chains' ∧ PutEffect s s' extent nit ∧
      ∀ p, s'.Linked chains' p ↔ p = nit ∨ s.Linked chains p ∧ p ≠ (s.buckets j).items i := by
  have hfits := hfresh.fits hlaid
  rw [← hj] at hfits
  have hrelinked := linkItem_relinked hlaid hfresh.live (itemNext s.mem ((s.buckets j).items i))
  have hnext := itemNext_linkItem s.mem nit (Memory.load_lt s.mem ((s.buckets j).items i) 8)
  have hnew := (hinv j).replaceSlot hfits hi hkey hrelinked hnext
  have href := itemRef_eq hfresh.refcount_pos hfresh.refcount_lt
  have hheld : (s.buckets j).Holds (chains j) ((s.buckets j).items i) :=
    HashBucket.holds_slot hi
  have hkept : itemNext (setRefcount s.mem nit (itemRefcount s.mem nit + 1))
      ((s.buckets j).items i) = itemNext s.mem ((s.buckets j).items i) :=
    hlaid.itemNext_setRefcount hfresh.live ((hinv j).live _ hheld) _
  refine ⟨{ s with
      mem := linkItem s.mem nit (itemNext s.mem ((s.buckets j).items i))
      buckets := Function.update s.buckets j
        { s.buckets j with items := Function.update (s.buckets j).items i nit } },
    Function.update chains j (chains j), ?_, ?_,
    ⟨rfl, linkItem_laid hlaid hfresh.live _, hrelinked.contents,
      fun p hp => itemRefcount_linkItem hlaid hfresh.live hfresh.refcount_lt _ hp⟩, ?_⟩
  · simp only [replaceSlot, Store.setBucket, href, Option.bind_some, hhv, hkept]
    rfl
  · exact hinv.update hfresh.absent (.inl rfl) hrelinked hnew
  · exact Store.linked_update (BucketInv.holds_replaceSlot (hinv j) hfits hi)
      (hinv.ne_of_other hheld)

/-- The node that links to an item of the chain. -/
theorem holds_getLastD {b : HashBucket} (before rest : List ℕ) (hlast : b.items lastSlot ≠ 0) :
    b.Holds (before ++ rest) (before.getLastD (b.items lastSlot)) := by
  obtain ⟨init, hinit⟩ := IsChain.exists_init (b.items lastSlot) before
  have hmem : before.getLastD (b.items lastSlot) ∈ b.items lastSlot :: before := by
    rw [hinit]
    exact List.mem_append_right _ List.mem_cons_self
  rcases List.mem_cons.mp hmem with hsame | hmem
  · rw [hsame]
    exact HashBucket.holds_slot hlast
  · exact .inr (List.mem_append_left _ hmem)

/-- Replacing the item `it` of the chain, which `prev` links to. -/
theorem replaceChain_outcome (hinv : TableInv hash s extent chains) (hlaid : Laid s.mem extent)
    {nit : ℕ} (hfresh : Fresh hash s extent chains nit) {j : ℕ}
    (hj : j = bucketOf hash (contentAt s.mem nit).key) {before after : List ℕ} {it : ℕ}
    (hchain : chains j = before ++ it :: after) (hlast : (s.buckets j).items lastSlot ≠ 0)
    (hkey : (contentAt s.mem it).key = (contentAt s.mem nit).key) {s' : Store}
    (hs' : s' = { s with
      mem := setNext (linkItem s.mem nit (itemNext s.mem it))
        (before.getLastD ((s.buckets j).items lastSlot)) nit }) :
    ∃ chains', TableInv hash s' extent chains' ∧ PutEffect s s' extent nit ∧
      ∀ p, s'.Linked chains' p ↔ p = nit ∨ s.Linked chains p ∧ p ≠ it := by
  have hfits := hfresh.fits hlaid
  have hbucket := hinv j
  rw [← hj, hchain] at hfits
  rw [hchain] at hbucket
  have hprevHeld := holds_getLastD before (it :: after) hlast
  generalize hprev : before.getLastD ((s.buckets j).items lastSlot) = prev at *
  have hprevLive := hbucket.live prev hprevHeld
  have hprevNe : prev ≠ nit := by
    rintro rfl
    exact hfits.absent hprevHeld
  have hlinked := linkItem_relinked hlaid hfresh.live (itemNext s.mem it)
  have hlaid' := linkItem_laid hlaid hfresh.live (itemNext s.mem it)
  have hrelinked : BucketInv.Relinked s.mem
      (setNext (linkItem s.mem nit (itemNext s.mem it)) prev nit) extent nit prev := by
    refine ⟨fun p hp => ?_, fun p hp hne hne' => ?_⟩
    · exact (hlaid'.contentAt_setNext hprevLive hp nit).trans (hlinked.contents p hp)
    · rw [hlaid'.itemNext_setNext hprevLive hp (hlaid.lt hfresh.live), if_neg hne']
      exact hlinked.next p hp hne hne
  have hnext : itemNext (setNext (linkItem s.mem nit (itemNext s.mem it)) prev nit) nit =
      itemNext s.mem it := by
    rw [hlaid'.itemNext_setNext hprevLive hfresh.live (hlaid.lt hfresh.live), if_neg hprevNe.symm]
    exact itemNext_linkItem s.mem nit (Memory.load_lt s.mem it 8)
  have hlink : itemNext (setNext (linkItem s.mem nit (itemNext s.mem it)) prev nit) prev = nit :=
    itemNext_setNext _ prev (hlaid.lt hfresh.live)
  have hnew := hbucket.replaceChain hfits hlast hkey hprev.symm hrelinked hnext hlink
  have hitHeld : (s.buckets j).Holds (chains j) it := by
    rw [hchain]
    exact .inr (List.mem_append_right _ List.mem_cons_self)
  -- the bucket itself is not changed
  have hs'' : s' = { s with
      mem := setNext (linkItem s.mem nit (itemNext s.mem it)) prev nit
      buckets := Function.update s.buckets j (s.buckets j) } := by
    rw [hs', Function.update_eq_self]
  refine ⟨Function.update chains j (before ++ nit :: after), ?_, ⟨?_, ?_, ?_, fun p hp => ?_⟩, ?_⟩
  · rw [hs'']
    refine hinv.update hfresh.absent (.inr ?_) hrelinked hnew
    rw [hchain]
    exact hprevHeld
  · rw [hs']
  · rw [hs']
    exact hlaid'.setNext hprevLive nit
  · rw [hs']
    exact hrelinked.contents
  · rw [hs']
    exact (hlaid'.itemRefcount_setNext hprevLive hp nit).trans
      (itemRefcount_linkItem hlaid hfresh.live hfresh.refcount_lt _ hp)
  · rw [hs'']
    refine Store.linked_update (fun p => ?_) (hinv.ne_of_other hitHeld)
    rw [hchain]
    exact BucketInv.holds_replaceChain hbucket nit p

/-- Sticking a new item in a slot of its bucket. -/
theorem insertSlot_outcome (hinv : TableInv hash s extent chains) (hlaid : Laid s.mem extent)
    {nit : ℕ} (hfresh : Fresh hash s extent chains nit) {j : ℕ}
    (hj : j = bucketOf hash (contentAt s.mem nit).key)
    (hnew : ∀ p, (s.buckets j).Holds (chains j) p →
      (contentAt s.mem p).key ≠ (contentAt s.mem nit).key) {s' : Store}
    (hs' : s' = { s with
      mem := linkItem s.mem nit ((s.buckets j).items (freeSlot (s.buckets j)))
      buckets := Function.update s.buckets j
        (BucketInv.inserted (s.buckets j) nit (contentAt s.mem nit).hv) }) :
    ∃ chains', TableInv hash s' extent chains' ∧ PutEffect s s' extent nit ∧
      ∀ p, s'.Linked chains' p ↔ p = nit ∨ s.Linked chains p := by
  have hfits := hfresh.fits hlaid
  rw [← hj] at hfits
  have hslot : (s.buckets j).items (freeSlot (s.buckets j)) < 2 ^ 64 := by
    rcases eq_or_ne ((s.buckets j).items (freeSlot (s.buckets j))) 0 with hzero | hne
    · rw [hzero]
      exact Nat.two_pow_pos 64
    · exact hlaid.lt ((hinv j).live _ (HashBucket.holds_slot hne))
  have hrelinked := linkItem_relinked hlaid hfresh.live
    ((s.buckets j).items (freeSlot (s.buckets j)))
  have hbucket := (hinv j).insertSlot hfits hnew hrelinked (itemNext_linkItem s.mem nit hslot)
  refine ⟨Function.update chains j (BucketInv.chainBehind (s.buckets j) (chains j)), ?_,
    ⟨?_, ?_, ?_, fun p hp => ?_⟩, fun p => ?_⟩
  · rw [hs']
    exact hinv.update hfresh.absent (.inl rfl) hrelinked hbucket
  · rw [hs']
  · rw [hs']
    exact linkItem_laid hlaid hfresh.live _
  · rw [hs']
    exact hrelinked.contents
  · rw [hs']
    exact itemRefcount_linkItem hlaid hfresh.live hfresh.refcount_lt _ hp
  · have hholds : ∀ p, (BucketInv.inserted (s.buckets j) nit (contentAt s.mem nit).hv).Holds
        (BucketInv.chainBehind (s.buckets j) (chains j)) p ↔
        p = nit ∨ (s.buckets j).Holds (chains j) p ∧ True := by
      intro p
      rw [and_true]
      exact BucketInv.holds_insertSlot hfits _ p
    rw [hs']
    refine (Store.linked_update hholds (fun _ _ _ _ => trivial) p).trans ?_
    rw [and_true]

section

variable (settings : Settings) {nit cas : ℕ}

/-- The insertion of an item whose key is in the slot `i`. -/
theorem hashtPut_of_slot (cas : ℕ) {i : Fin bucketNitems}
    (hfind : findSlot s.mem (s.buckets (itemHv s.mem nit % nbuckets)) (contentAt s.mem nit).key
      (itemHv s.mem nit) = some i) :
    hashtPut settings s nit cas =
      if cas ≠ 0 ∧ cas ≠ (s.buckets (itemHv s.mem nit % nbuckets)).items i then some s
      else if nit = (s.buckets (itemHv s.mem nit % nbuckets)).items i then none
      else replaceSlot settings s nit (itemHv s.mem nit) i := by
  have hread : s.mem.read (itemKey nit) (itemKeylen s.mem nit) = (contentAt s.mem nit).key := rfl
  unfold hashtPut
  simp only [hread, hfind]

/-- The compare-and-set of an item whose key is in no slot. -/
theorem hashtPut_of_cas (hfind : findSlot s.mem (s.buckets (itemHv s.mem nit % nbuckets))
      (contentAt s.mem nit).key (itemHv s.mem nit) = none) (hcas : cas ≠ 0) :
    hashtPut settings s nit cas = some s := by
  have hread : s.mem.read (itemKey nit) (itemKeylen s.mem nit) = (contentAt s.mem nit).key := rfl
  unfold hashtPut
  simp only [hread, hfind]
  exact if_pos hcas

/-- The insertion of an item whose key is in no slot. -/
theorem hashtPut_of_none (hfind : findSlot s.mem (s.buckets (itemHv s.mem nit % nbuckets))
      (contentAt s.mem nit).key (itemHv s.mem nit) = none) :
    hashtPut settings s nit 0 = (itemRef s.mem nit).bind fun m =>
      if (s.buckets (itemHv s.mem nit % nbuckets)).items lastSlot ≠ 0 then
        (searchChain m (s.buckets (itemHv s.mem nit % nbuckets)) (contentAt s.mem nit).key
            (itemHv s.mem nit)).bind fun found =>
          if found.2 ≠ 0 then
            itemUnref settings { s with
              mem := setNext (setNext m nit (itemNext m found.2)) found.1 nit } found.2
          else some (insertSlot { s with mem := m } nit (itemHv s.mem nit))
      else some (insertSlot { s with mem := m } nit (itemHv s.mem nit)) := by
  have hread : s.mem.read (itemKey nit) (itemKeylen s.mem nit) = (contentAt s.mem nit).key := rfl
  unfold hashtPut
  simp only [hread, hfind]
  exact if_neg (not_not.mpr rfl)

/-- The three outcomes are all there are. -/
theorem hashtPut_cases (hinv : TableInv hash s extent chains)
    (hlaid : Laid s.mem extent) (hfresh : Fresh hash s extent chains nit) (cas : ℕ) :
    PutOutcome hash settings s extent chains nit cas := by
  have hhv : itemHv s.mem nit = (hash (contentAt s.mem nit).key).toNat := hfresh.hv
  have hindex : itemHv s.mem nit % nbuckets = bucketOf hash (contentAt s.mem nit).key := by
    rw [hhv, bucketOf]
  have href := itemRef_eq hfresh.refcount_pos hfresh.refcount_lt
  generalize hj : itemHv s.mem nit % nbuckets = j at *
  have hheld : ∀ p, s.Linked chains p → (contentAt s.mem p).key = (contentAt s.mem nit).key →
      (s.buckets j).Holds (chains j) p := by
    intro p hp hkey
    have hheld := hinv.holds_bucketOf hp
    rw [hkey, ← hindex] at hheld
    exact hheld
  -- a compare-and-set looks at the slots only
  have hcasKept : findSlot s.mem (s.buckets j) (contentAt s.mem nit).key (itemHv s.mem nit) =
      none → cas ≠ 0 → PutOutcome hash settings s extent chains nit cas := by
    intro hfind hcas
    refine .kept hcas (fun k i hslot hsame => ?_)
      (hashtPut_of_cas settings (by rw [hj]; exact hfind) hcas)
    have hcasHeld : (s.buckets k).Holds (chains k) cas := .inl ⟨hcas, i, hslot⟩
    have hbucket : k = j :=
      ((hinv k).index cas hcasHeld).symm.trans ((hinv j).index cas (hheld cas ⟨k, hcasHeld⟩ hsame))
    subst hbucket
    rw [hhv] at hfind
    refine (hinv k).findSlot_none hfind i ?_ ?_
    · rw [hslot]
      exact hcas
    · rw [hslot]
      exact hsame
  -- the search goes on in the memory in which the reference has been taken
  have hsearched := fun hlast => (hinv j).searchChain_congr hlast
    (fun p hp => hlaid.itemNext_setRefcount hfresh.live ((hinv j).live p hp)
      (itemRefcount s.mem nit + 1))
    (fun p hp => hlaid.contentAt_setRefcount hfresh.live ((hinv j).live p hp)
      (itemRefcount s.mem nit + 1)) (contentAt s.mem nit).key (itemHv s.mem nit)
  have hfound := (hinv j).found hlaid (contentAt s.mem nit).key
  rw [← hhv] at hfound
  cases hfound with
  | slot i hfind hi hkey =>
      have hput := hashtPut_of_slot settings cas (by rw [hj]; exact hfind)
      rw [hj] at hput
      have hlinked : s.Linked chains ((s.buckets j).items i) := ⟨j, HashBucket.holds_slot hi⟩
      by_cases hfails : cas ≠ 0 ∧ cas ≠ (s.buckets j).items i
      · rw [if_pos hfails] at hput
        refine .kept hfails.1 (fun k l hcas hsame => ?_) hput
        have hcasLinked : s.Linked chains cas := by
          rw [← hcas]
          exact ⟨k, HashBucket.holds_slot (by rw [hcas]; exact hfails.1)⟩
        exact hfails.2 (hinv.eq_of_key hcasLinked hlinked (hsame.trans hkey.symm))
      · have hne : nit ≠ (s.buckets j).items i := by
          rintro rfl
          exact hfresh.absent hlinked
        rw [if_neg hfails, if_neg hne] at hput
        obtain ⟨s', chains', hreplace, htable, heffect, hiff⟩ :=
          replaceSlot_outcome settings hinv hlaid hfresh hindex hj hi hkey
        refine .replaced _ s' chains' hlinked hkey ?_ (hput.trans hreplace) htable heffect hiff
        by_contra hcas
        rw [not_or] at hcas
        exact hfails hcas
  | chained before it after hfind hlast hchain hsearch hkey =>
      by_cases hcas : cas ≠ 0
      · exact hcasKept hfind hcas
      · rw [not_not] at hcas
        subst hcas
        have hitHeld : (s.buckets j).Holds (chains j) it := by
          rw [hchain]
          exact .inr (List.mem_append_right _ List.mem_cons_self)
        have hput := hashtPut_of_none settings (by rw [hj]; exact hfind)
        have hkept : itemNext (setRefcount s.mem nit (itemRefcount s.mem nit + 1)) it =
            itemNext s.mem it :=
          hlaid.itemNext_setRefcount hfresh.live ((hinv j).live it hitHeld) _
        rw [href, Option.bind_some, hj, if_pos hlast, hsearched hlast, hsearch, Option.bind_some,
          if_pos (hlaid.ne_zero ((hinv j).live it hitHeld)), hkept] at hput
        obtain ⟨chains', htable, heffect, hiff⟩ :=
          replaceChain_outcome hinv hlaid hfresh hindex hchain hlast hkey rfl
        exact .replaced it _ chains' ⟨j, hitHeld⟩ hkey (.inl rfl) hput htable heffect hiff
  | missing hfind hsearch hnone =>
      by_cases hcas : cas ≠ 0
      · exact hcasKept hfind hcas
      · rw [not_not] at hcas
        subst hcas
        have hput := hashtPut_of_none settings (by rw [hj]; exact hfind)
        rw [href, Option.bind_some, hj] at hput
        obtain ⟨chains', htable, heffect, hiff⟩ :=
          insertSlot_outcome hinv hlaid hfresh hindex hnone rfl
        refine .inserted _ chains' (fun p hp hkey => hnone p (hheld p hp hkey) hkey) rfl
          (hput.trans ?_) htable heffect hiff
        have hinsert : insertSlot { s with mem := setRefcount s.mem nit (itemRefcount s.mem nit + 1) }
            nit (itemHv s.mem nit) = { s with
              mem := linkItem s.mem nit ((s.buckets j).items (freeSlot (s.buckets j)))
              buckets := Function.update s.buckets j
                (BucketInv.inserted (s.buckets j) nit (contentAt s.mem nit).hv) } := by
          simp only [insertSlot, Store.setBucket, hj]
          rfl
        by_cases hlast : (s.buckets j).items lastSlot ≠ 0
        · obtain ⟨prev, hend⟩ := hsearch hlast
          rw [if_pos hlast, hsearched hlast, hend, Option.bind_some, if_neg (not_not.mpr rfl),
            hinsert]
        · rw [if_neg hlast, hinsert]

end

end ArmsTiering.Flexkvs
