import ArmsTiering.Flexkvs.TableMap

/-!
# Compare-and-set insertions

The cleaner replaces an item by its copy only if the table still links the item.
The comparison is written for the items in slots.  A compare-and-set of an item in
a chain changes nothing.
-/

namespace ArmsTiering.Flexkvs.TableRun

/-- A fresh item that is not meant for the table yet. -/
def supply (hash : List UInt8 → UInt32) (t : TableRun) (nit : ℕ) (key value : List UInt8) :
    TableRun :=
  { t.place hash nit key value with latest := t.latest }

/-- The map after a compare-and-set. -/
def replaceLatest (t : TableRun) (nit : ℕ) (key : List UInt8) (cas : ℕ) : TableRun :=
  { t with latest := if t.latest key = cas then Function.update t.latest key nit else t.latest }

/-- `hasht_put` of a fresh item with an item to compare to. -/
def compareAndSet (settings : Settings) (hash : List UInt8 → UInt32) (t : TableRun) (nit : ℕ)
    (key value : List UInt8) (cas : ℕ) : Option TableRun :=
  (hashtPut settings (t.supply hash nit key value).store nit cas).map fun store =>
    ((t.supply hash nit key value).replaceLatest nit key cas).setStore store

/-- A compare-and-set replaces the item stored for the key if it is the given one,
and does nothing otherwise. -/
def CompareAndSetSound (settings : Settings) (hash : List UInt8 → UInt32) (t : TableRun) (nit : ℕ)
    (key value : List UInt8) (cas : ℕ) : Prop :=
  ∃ next, compareAndSet settings hash t nit key value cas = some next ∧ IsMap hash next ∧
    (t.latest key ≠ cas → next.store = (t.supply hash nit key value).store)

/-- The item stored for the key is in a slot if it is the one to compare to. -/
def InSlot (hash : List UInt8 → UInt32) (t : TableRun) (key : List UInt8) (cas : ℕ) : Prop :=
  t.latest key = cas → ∃ i, (t.store.buckets (bucketOf hash key)).items i = cas

variable {settings : Settings} {hash : List UInt8 → UInt32} {t : TableRun} {nit cas : ℕ}
  {key value : List UInt8}

theorem store_supply (hash : List UInt8 → UInt32) (t : TableRun) (nit : ℕ)
    (key value : List UInt8) :
    (t.supply hash nit key value).store = (t.place hash nit key value).store := by
  rw [supply]

/-- Insertions keep the invariant. -/
theorem inv_of_puts {mem : Memory} {actions : List TableAction}
    (hputs : ∀ action ∈ actions, ∃ nit key value, action = .put nit key value)
    (hrun : Transition.run (step settings hash) (initial mem) actions = some t) : Inv hash t := by
  have hmeets : Transition.Meets (step settings hash) Countable (initial mem) actions := by
    refine Transition.meets_of_forall fun action haction state => ?_
    obtain ⟨nit, key, value, rfl⟩ := hputs action haction
    trivial
  have halong : Transition.Along (step settings hash) (Inv hash) (initial mem) actions := by
    refine Transition.along_of_meets (Inv hash) (fun _ hinv => hinv) ?_ (inv_initial hash mem)
      hmeets
    intro state action next hinv hcond hstep
    cases action with
    | put nit key value => exact hinv.step_put hstep
    | get key => exact (hinv.step_get hstep).1 hcond
  exact halong.of_run hrun

/-- A fresh item that is not linked leaves the table a map. -/
theorem Inv.supply (hinv : Inv hash t) {chains : ℕ → List ℕ}
    (hold : ∀ p, t.store.Linked chains p ↔
      t.extent p ≠ 0 ∧ t.latest (contentAt t.store.mem p).key = p)
    (hplaced : PlacedInv hash t (t.place hash nit key value) chains nit key) :
    Inv hash (t.supply hash nit key value) := by
  have hunlinked : ∀ k, t.latest k ≠ nit := by
    rintro k rfl
    have hlive := (hinv.isMap.latest k (hplaced.laid.ne_zero hplaced.fresh.live)).1
    exact (hplaced.live _ hlive).2 rfl
  have hgets : (t.place hash nit key value).gets = Function.update t.gets nit 0 := gets_place ..
  have hfailed : (t.place hash nit key value).failed = t.failed := failed_place ..
  have hextent : ∀ p, p ≠ nit → (t.place hash nit key value).extent p = t.extent p := by
    intro p hp
    rw [extent_place, Function.update_of_ne hp]
  have hanswer : (t.place hash nit key value).answer = none := answer_place ..
  have hnitExtent := hplaced.fresh.live
  unfold TableRun.supply
  generalize t.place hash nit key value = placed at *
  have hlive : ∀ p, p ≠ nit → placed.extent p ≠ 0 → t.extent p ≠ 0 := by
    intro p hp hne
    rwa [hextent p hp] at hne
  have hanswered : ∀ k it, placed.answer = some (k, it) → it = t.latest k := by
    intro k it hsome
    rw [hanswer] at hsome
    cases hsome
  have htable : ∀ p, placed.store.Linked chains p ↔
      placed.extent p ≠ 0 ∧ t.latest (contentAt placed.store.mem p).key = p := by
    intro p
    rw [hplaced.linked, hold]
    rcases eq_or_ne p nit with rfl | hne
    · refine ⟨fun hp => absurd rfl (hplaced.live p hp.1).2, fun hp => absurd hp.2 (hunlinked _)⟩
    · rw [hextent p hne]
      refine and_congr_right fun hp => ?_
      rw [hplaced.contents p hp]
  refine ⟨hplaced.laid, hfailed.trans hinv.isMap.running, hanswered, ⟨chains, hplaced.table, htable⟩,
    fun k hk => ?_, fun p hp => ?_⟩
  · obtain ⟨hkLive, hkKey⟩ := hinv.isMap.latest k hk
    exact ⟨(hplaced.live _ hkLive).1, (congrArg Content.key (hplaced.contents _ hkLive)).trans hkKey⟩
  · change itemRefcount placed.store.mem p = 1 + placed.gets p +
      if t.latest (contentAt placed.store.mem p).key = p then 1 else 0
    rcases eq_or_ne p nit with rfl | hne
    · rw [hplaced.refcount, hgets, Function.update_self, if_neg (hunlinked _)]
    · have hpLive := hlive p hne hp
      rw [hplaced.refcounts p hne hp, hgets, Function.update_of_ne hne,
        hinv.isMap.refcounts p hpLive]
      simp only [hplaced.contents p hpLive]

/-- The compare-and-set of the item stored for the key, in a slot or not. -/
theorem Inv.compareAndSet_iff_inSlot (hinv : Inv hash t)
    (hfree : t.Free nit (sizeofItem + value.length + key.length)) (hkey : key.length < 65536)
    (hvalue : value.length < 2 ^ 32) (hcas : cas ≠ 0) :
    CompareAndSetSound settings hash t nit key value cas ↔ InSlot hash t key cas := by
  obtain ⟨chains, htable, hold⟩ := hinv.isMap.table
  obtain ⟨placed, hplaced⟩ : ∃ placed, placed = t.place hash nit key value := ⟨_, rfl⟩
  have hplacedInv : PlacedInv hash t placed chains nit key := by
    rw [hplaced]
    exact hinv.placed hkey hvalue hfree htable
  have hsupplied : Inv hash (t.supply hash nit key value) := by
    rw [hplaced] at hplacedInv
    exact hinv.supply hold hplacedInv
  have hbuckets : placed.store.buckets = t.store.buckets := by rw [hplaced, store_place]
  have hstore : (t.supply hash nit key value).store = placed.store := by
    rw [hplaced, store_supply]
  have hplacedLatest : placed.latest = Function.update t.latest key nit := by
    rw [hplaced, latest_place]
  unfold CompareAndSetSound compareAndSet
  by_cases hlatest : t.latest key = cas
  · -- the given item is the one stored for the key
    obtain ⟨hcasLive, hcasKey⟩ := hinv.isMap.latest key (hlatest.trans_ne hcas)
    rw [hlatest] at hcasLive hcasKey
    have hcasLinked : t.store.Linked chains cas := (hold cas).mpr ⟨hcasLive, hcasKey ▸ hlatest⟩
    have hcasPlaced : (contentAt placed.store.mem cas).key = key := by
      rw [hplacedInv.contents cas hcasLive, hcasKey]
    have hnext : (t.supply hash nit key value).replaceLatest nit key cas =
        placed := by
      unfold replaceLatest
      rw [if_pos (show (t.supply hash nit key value).latest key = cas from hlatest)]
      unfold TableRun.supply
      dsimp only
      rw [← hplaced, ← hplacedLatest]
    rw [hnext, hstore]
    constructor
    · rintro ⟨next, hput, hmap, _⟩ _
      by_contra hslots
      have hfind : findSlot placed.store.mem
          (placed.store.buckets (itemHv placed.store.mem nit % nbuckets))
          (contentAt placed.store.mem nit).key (itemHv placed.store.mem nit) = none := by
        by_contra hfound
        obtain ⟨i, hi⟩ := Option.ne_none_iff_exists'.mp hfound
        obtain ⟨hne, hiKey⟩ := BucketInv.findSlot_some hi
        have hiLinked : placed.store.Linked chains
            ((placed.store.buckets (itemHv placed.store.mem nit % nbuckets)).items i) :=
          ⟨_, HashBucket.holds_slot hne⟩
        have hsame := (Inv.eq_latest hold hplacedInv hiLinked hiKey).2
        have hindex : itemHv placed.store.mem nit % nbuckets =
            bucketOf hash key := by
          have hhv : itemHv placed.store.mem nit = (hash key).toNat := by
            rw [← hplacedInv.key]
            exact hplacedInv.fresh.hv
          rw [hhv, bucketOf]
        rw [hindex, hbuckets, hlatest] at hsame
        exact hslots ⟨i, hsame⟩
      rw [hashtPut_of_cas settings hfind hcas, Option.map_some] at hput
      obtain rfl := Option.some.inj hput
      have hwrong := hmap.refcounts nit hplacedInv.fresh.live
      have hself : placed.latest key = nit := by
        rw [hplacedLatest, Function.update_self]
      simp only [store_setStore, latest_setStore, gets_setStore, hplacedInv.refcount,
        hplacedInv.key, hself, if_true] at hwrong
      omega
    · intro hslot
      obtain ⟨i, hi⟩ := hslot hlatest
      cases hashtPut_cases settings hplacedInv.table hplacedInv.laid hplacedInv.fresh cas with
      | kept _ hother _ =>
          refine absurd ?_ (hother (bucketOf hash key) i (by rw [hbuckets]; exact hi))
          rw [hcasPlaced, hplacedInv.key]
      | replaced it s' chains' hit hitKey _ hput htable' heffect hlinked =>
          obtain ⟨store, hunref, hnextInv⟩ := hinv.replaced hkey hvalue hfree hplaced hold
            hplacedInv hit hitKey htable' heffect hlinked
          refine ⟨placed.setStore store, ?_, hnextInv.isMap,
            fun hne => absurd hlatest hne⟩
          rw [hput, hunref, Option.map_some]
      | inserted _ _ _ hzero => exact absurd hzero hcas
  · -- another item is, or none
    have hnext : (t.supply hash nit key value).replaceLatest nit key cas =
        t.supply hash nit key value := by
      unfold replaceLatest
      rw [if_neg (show ¬(t.supply hash nit key value).latest key = cas from hlatest)]
    rw [hnext, hstore]
    refine ⟨fun _ heq => absurd heq hlatest, fun _ => ?_⟩
    cases hashtPut_cases settings hplacedInv.table hplacedInv.laid hplacedInv.fresh cas with
    | kept _ _ hput =>
        refine ⟨(t.supply hash nit key value).setStore placed.store, ?_, ?_,
          fun _ => rfl⟩
        · rw [hput, Option.map_some]
        · rw [← hstore]
          exact hsupplied.isMap
    | replaced it s' chains' hit hitKey hcases =>
        have hsame := (Inv.eq_latest hold hplacedInv hit hitKey).2
        rcases hcases with hzero | heq
        · exact absurd hzero hcas
        · exact absurd (hsame.symm.trans heq.symm) hlatest
    | inserted _ _ _ hzero => exact absurd hzero hcas

/-- After any insertions a compare-and-set does what it should if and only if the
item to replace is not in a chain. -/
theorem compareAndSetSound_iff (settings : Settings) (hash : List UInt8 → UInt32) (mem : Memory)
    (actions : List TableAction) (t : TableRun)
    (hputs : ∀ action ∈ actions, ∃ nit key value, action = .put nit key value)
    (hrun : Transition.run (step settings hash) (initial mem) actions = some t) (nit cas : ℕ)
    (key value : List UInt8) (hfree : t.Free nit (sizeofItem + value.length + key.length))
    (hkey : key.length < 65536) (hvalue : value.length < 2 ^ 32) (hcas : cas ≠ 0) :
    CompareAndSetSound settings hash t nit key value cas ↔ InSlot hash t key cas :=
  (inv_of_puts hputs hrun).compareAndSet_iff_inSlot hfree hkey hvalue hcas

/-- Six keys with one hash: the item of the first one ends up in the chain. -/
def collidingPuts : List TableAction :=
  [.put 64 [0] [], .put 96 [1] [], .put 128 [2] [], .put 160 [3] [], .put 192 [4] [],
    .put 224 [5] []]

theorem collidingPuts_isPut :
    ∀ action ∈ collidingPuts, ∃ nit key value, action = .put nit key value := by
  intro action haction
  simp only [collidingPuts, List.mem_cons, List.not_mem_nil, or_false] at haction
  rcases haction with rfl | rfl | rfl | rfl | rfl | rfl
  all_goals exact ⟨_, _, _, rfl⟩

/-- What the six insertions come to. -/
def chainedFirst (t : TableRun) : Bool :=
  t.latest [0] = 64 ∧ t.Free 256 (sizeofItem + 0 + 1) ∧ ∀ i, (t.store.buckets 0).items i ≠ 64

theorem collidingPuts_run :
    ∃ t, Transition.run (step exampleSettings fun _ => 0) (initial fun _ => 0) collidingPuts =
        some t ∧ t.latest [0] = 64 ∧ t.Free 256 (sizeofItem + 0 + 1) ∧
      ∀ i, (t.store.buckets 0).items i ≠ 64 := by
  have hrun : (Transition.run (step exampleSettings fun _ => 0) (initial fun _ => 0)
      collidingPuts).map chainedFirst = some true := by decide +kernel
  obtain ⟨t, ht, hchained⟩ := Option.map_eq_some_iff.mp hrun
  exact ⟨t, ht, of_decide_eq_true hchained⟩

theorem compareAndSetSound_iff_collidingPuts :
    ∃ t, Transition.run (step exampleSettings fun _ => 0) (initial fun _ => 0) collidingPuts =
        some t ∧
      (CompareAndSetSound exampleSettings (fun _ => 0) t 256 [0] [] 64 ↔
        InSlot (fun _ => 0) t [0] 64) := by
  obtain ⟨t, hrun, _, hfree, _⟩ := collidingPuts_run
  exact ⟨t, hrun, compareAndSetSound_iff exampleSettings (fun _ => 0) (fun _ => 0) collidingPuts t
    collidingPuts_isPut hrun 256 64 [0] [] hfree (by decide) (by decide) (by decide)⟩

/-- The item of the first key is not replaced. -/
theorem not_compareAndSetSound :
    ∃ t, Transition.run (step exampleSettings fun _ => 0) (initial fun _ => 0) collidingPuts =
        some t ∧
      ¬CompareAndSetSound exampleSettings (fun _ => 0) t 256 [0] [] 64 := by
  obtain ⟨t, hrun, hlatest, hfree, hslots⟩ := collidingPuts_run
  refine ⟨t, hrun, fun hsound => ?_⟩
  have hinv := inv_of_puts collidingPuts_isPut hrun
  have hslot := (hinv.compareAndSet_iff_inSlot hfree (by decide) (by decide) (by decide)).mp hsound
  obtain ⟨i, hi⟩ := hslot hlatest
  exact hslots i hi

end ArmsTiering.Flexkvs.TableRun
