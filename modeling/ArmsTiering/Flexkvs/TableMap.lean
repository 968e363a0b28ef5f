import ArmsTiering.Core.Transition
import ArmsTiering.Flexkvs.Table

/-!
# The table as a finite map

Runs of lookups and unconditional insertions of fresh items.  The table agrees
with the map from keys to the items inserted last as long as no item is looked up
more often than its reference count can tell.
-/

namespace ArmsTiering.Flexkvs

inductive TableAction
  /-- insertion of a fresh item, filled in at the given address -/
  | put (nit : ℕ) (key value : List UInt8)
  | get (key : List UInt8)

/-- The table with its history. -/
structure TableRun where
  store : Store
  /-- addresses and sizes of the items handed to the table -/
  items : List (ℕ × ℕ)
  /-- the item of the latest insertion for each key, or `NULL` -/
  latest : List UInt8 → ℕ
  /-- how often lookups returned each item -/
  gets : ℕ → ℕ
  /-- key and result of the lookup just made -/
  answer : Option (List UInt8 × ℕ)
  /-- an assertion has failed, or a loop does not end -/
  failed : Bool

namespace TableRun

def initial (mem : Memory) : TableRun where
  store := .initial mem
  items := []
  latest := fun _ => 0
  gets := fun _ => 0
  answer := none
  failed := false

/-- The size of the item at an address. -/
def extent (t : TableRun) (p : ℕ) : ℕ := (t.items.lookup p).getD 0

/-- The addresses of a fresh item are those of no other. -/
def Free (t : TableRun) (nit size : ℕ) : Prop :=
  nit ≠ 0 ∧ nit + size ≤ 2 ^ 64 ∧ ∀ q ∈ t.items, nit + size ≤ q.1 ∨ q.1 + q.2 ≤ nit

instance (t : TableRun) (nit size : ℕ) : Decidable (t.Free nit size) :=
  inferInstanceAs (Decidable (_ ∧ _ ∧ _))

/-- A fresh item with its key and hash, and with the reference of its owner. -/
def place (hash : List UInt8 → UInt32) (t : TableRun) (nit : ℕ) (key value : List UInt8) :
    TableRun :=
  { t with
    store := { t.store with
      mem := Laid.newItem t.store.mem nit (hash key).toNat key value }
    items := (nit, sizeofItem + value.length + key.length) :: t.items
    latest := Function.update t.latest key nit
    gets := Function.update t.gets nit 0
    answer := none }

def setStore (t : TableRun) (store : Store) : TableRun := { t with store := store }

/-- The history after a lookup. -/
def found (t : TableRun) (store : Store) (key : List UInt8) (it : ℕ) : TableRun :=
  { t.setStore store with
    gets := Function.update t.gets it (t.gets it + 1)
    answer := some (key, it) }

def step (settings : Settings) (hash : List UInt8 → UInt32) (t : TableRun) :
    TableAction → Option TableRun
  | .put nit key value =>
      if t.failed = false ∧ t.Free nit (sizeofItem + value.length + key.length) ∧
          key.length < 65536 ∧ value.length < 2 ^ 32 then
        let t := t.place hash nit key value
        match hashtPut settings t.store nit 0 with
        | some store => some (t.setStore store)
        | none => some { t with failed := true }
      else none
  | .get key =>
      if t.failed = false then
        match hashtGet t.store key (hash key).toNat with
        | some (store, it) => some (t.found store key it)
        | none => some { t with failed := true }
      else none

/-- The table is the map from keys to their latest items.  It has one reference
on each of them; the others are those of the owner and of the lookups. -/
structure IsMap (hash : List UInt8 → UInt32) (t : TableRun) : Prop where
  running : t.failed = false
  answered : ∀ key it, t.answer = some (key, it) → it = t.latest key
  table : ∃ chains, TableInv hash t.store t.extent chains ∧
    ∀ p, t.store.Linked chains p ↔
      t.extent p ≠ 0 ∧ t.latest (contentAt t.store.mem p).key = p
  latest : ∀ key, t.latest key ≠ 0 →
    t.extent (t.latest key) ≠ 0 ∧ (contentAt t.store.mem (t.latest key)).key = key
  refcounts : ∀ p, t.extent p ≠ 0 → itemRefcount t.store.mem p =
    1 + t.gets p + if t.latest (contentAt t.store.mem p).key = p then 1 else 0

/-- The reference count of the item to be returned can still be raised. -/
def Countable (t : TableRun) : TableAction → Prop
  | .put _ _ _ => True
  | .get key => itemRefcount t.store.mem (t.latest key) = 65535 → t.latest key = 0

section

variable (t : TableRun) (store : Store)

@[simp] theorem store_setStore : (t.setStore store).store = store := rfl
@[simp] theorem extent_setStore : (t.setStore store).extent = t.extent := rfl
@[simp] theorem latest_setStore : (t.setStore store).latest = t.latest := rfl
@[simp] theorem gets_setStore : (t.setStore store).gets = t.gets := rfl

end

/-! ## Placing a fresh item -/

variable {hash : List UInt8 → UInt32} {t : TableRun} {nit : ℕ} {key value : List UInt8}

theorem extent_place (hash : List UInt8 → UInt32) (t : TableRun) (nit : ℕ)
    (key value : List UInt8) : (t.place hash nit key value).extent =
      Function.update t.extent nit (sizeofItem + value.length + key.length) :=
  Laid.lookup_cons_getD t.items nit _

@[simp]
theorem latest_place (hash : List UInt8 → UInt32) (t : TableRun) (nit : ℕ)
    (key value : List UInt8) :
    (t.place hash nit key value).latest = Function.update t.latest key nit := by rw [place]

@[simp]
theorem gets_place (hash : List UInt8 → UInt32) (t : TableRun) (nit : ℕ)
    (key value : List UInt8) :
    (t.place hash nit key value).gets = Function.update t.gets nit 0 := by rw [place]

@[simp]
theorem answer_place (hash : List UInt8 → UInt32) (t : TableRun) (nit : ℕ)
    (key value : List UInt8) : (t.place hash nit key value).answer = none := by rw [place]

@[simp]
theorem failed_place (hash : List UInt8 → UInt32) (t : TableRun) (nit : ℕ)
    (key value : List UInt8) : (t.place hash nit key value).failed = t.failed := by rw [place]

@[simp]
theorem mem_place (hash : List UInt8 → UInt32) (t : TableRun) (nit : ℕ)
    (key value : List UInt8) : (t.place hash nit key value).store.mem =
      Laid.newItem t.store.mem nit (hash key).toNat key value := by
  rw [place]

theorem Free.room {size : ℕ} (hfree : t.Free nit size) : Laid.Room t.extent nit size := by
  obtain ⟨hne, hbound, hapart⟩ := hfree
  exact Laid.room_of_items hne hbound hapart

/-- What holds before every step. -/
structure Inv (hash : List UInt8 → UInt32) (t : TableRun) : Prop where
  laid : Laid t.store.mem t.extent
  isMap : IsMap hash t

theorem inv_initial (hash : List UInt8 → UInt32) (mem : Memory) : Inv hash (initial mem) := by
  have hnone : ∀ p, ¬(initial mem).extent p ≠ 0 := fun p hp => hp rfl
  have htable := TableInv.initial hash mem .initial (initial mem).extent
  have hlinked : ∀ p, ¬(initial mem).store.Linked (fun _ => []) p :=
    fun p hp => hnone p (htable.live hp)
  refine ⟨Laid.empty mem, rfl, fun key it hanswer => (nomatch hanswer), ⟨fun _ => [], htable, fun p => ?_⟩,
    fun key hkey => absurd rfl hkey, fun p hp => absurd hp (hnone p)⟩
  exact ⟨fun hp => absurd hp (hlinked p), fun hp => absurd hp.1 (hnone p)⟩

/-- The table after a new item for the key has been linked in place of the old one,
if there was one. -/
theorem Inv.put (hinv : Inv hash t) (hkey : key.length < 65536) (hvalue : value.length < 2 ^ 32)
    (hfree : t.Free nit (sizeofItem + value.length + key.length)) {placed : TableRun}
    (hplaced : placed = t.place hash nit key value) {store : Store} {chains chains' : ℕ → List ℕ}
    (hold : ∀ p, t.store.Linked chains p ↔
      t.extent p ≠ 0 ∧ t.latest (contentAt t.store.mem p).key = p)
    (htable : TableInv hash store placed.extent chains')
    (hcontents : ∀ p, placed.extent p ≠ 0 →
      contentAt store.mem p = contentAt placed.store.mem p)
    (hrefcounts : ∀ p, placed.extent p ≠ 0 → itemRefcount store.mem p =
      if p = nit then 2
      else if p = t.latest key then itemRefcount t.store.mem p - 1
      else itemRefcount t.store.mem p)
    (hlinked : ∀ p, store.Linked chains' p ↔
      p = nit ∨ t.store.Linked chains p ∧ p ≠ t.latest key) :
    Inv hash (placed.setStore store) := by
  have hroom := hfree.room
  have hhv : (hash key).toNat < 2 ^ 32 := (hash key).toNat_lt
  have hextent : placed.extent =
      Function.update t.extent nit (sizeofItem + value.length + key.length) := by
    rw [hplaced, extent_place]
  have hmem : placed.store.mem = Laid.newItem t.store.mem nit (hash key).toNat key value := by
    rw [hplaced, mem_place]
  have hnew : placed.latest = Function.update t.latest key nit := by rw [hplaced, latest_place]
  have hgets : placed.gets = Function.update t.gets nit 0 := by rw [hplaced, gets_place]
  have hanswer : placed.answer = none := by rw [hplaced, answer_place]
  have hrunning : placed.failed = false := by rw [hplaced, failed_place, hinv.isMap.running]
  clear hplaced
  have hlaid := hinv.laid.extend_newItem hhv hkey hvalue hroom
  rw [← hextent, ← hmem] at hlaid
  -- the new item and the old ones
  have hnit : (contentAt placed.store.mem nit).key = key := by
    rw [hmem, Laid.contentAt_newItem hhv hkey hvalue]
  have hne : ∀ p, t.extent p ≠ 0 → p ≠ nit := by
    rintro p hp rfl
    refine hp (hroom.extent_eq_zero ?_)
    unfold sizeofItem
    omega
  have hother : ∀ p, p ≠ nit → placed.extent p = t.extent p := by
    intro p hp
    rw [hextent, Function.update_of_ne hp]
  have hsame : ∀ p, t.extent p ≠ 0 → contentAt placed.store.mem p = contentAt t.store.mem p := by
    intro p hp
    rw [hmem]
    exact hinv.laid.contentAt_of_agree hp (hroom.agree_newItem hkey hp)
  have hself : placed.extent nit ≠ 0 := by
    rw [hextent, Function.update_self]
    unfold sizeofItem
    omega
  have hlatest : ∀ p, t.extent p ≠ 0 → (placed.latest (contentAt t.store.mem p).key = p ↔
      t.latest (contentAt t.store.mem p).key = p ∧ p ≠ t.latest key) := by
    intro p hp
    by_cases hpKey : (contentAt t.store.mem p).key = key
    · rw [hnew, hpKey, Function.update_self]
      exact ⟨fun heq => absurd heq.symm (hne p hp), fun hcase => absurd hcase.1.symm hcase.2⟩
    · rw [hnew, Function.update_of_ne hpKey]
      refine ⟨fun heq => ⟨heq, fun hlast => hpKey ?_⟩, fun hcase => hcase.1⟩
      have hkept := hinv.isMap.latest key (by rw [← hlast]; exact hinv.laid.ne_zero hp)
      rw [hlast]
      exact hkept.2
  have hanswered : ∀ k it, placed.answer = some (k, it) → it = placed.latest k := by
    intro k it hsome
    rw [hanswer] at hsome
    cases hsome
  refine ⟨hlaid.of_contents hcontents, hrunning, hanswered, ⟨chains', htable, fun p => ?_⟩,
    fun k hk => ?_, fun p hp => ?_⟩
  · rw [store_setStore, extent_setStore, latest_setStore, hlinked]
    rcases eq_or_ne p nit with rfl | hp
    · refine ⟨fun _ => ⟨hself, ?_⟩, fun _ => .inl rfl⟩
      rw [hcontents p hself, hnit, hnew, Function.update_self]
    · rw [or_iff_right hp, hold, hother p hp]
      constructor
      · rintro ⟨⟨hlive, hcase⟩, hreplaced⟩
        refine ⟨hlive, ?_⟩
        rw [hcontents p (by rwa [hother p hp]), hsame p hlive]
        exact (hlatest p hlive).mpr ⟨hcase, hreplaced⟩
      · rintro ⟨hlive, hcase⟩
        rw [hcontents p (by rwa [hother p hp]), hsame p hlive] at hcase
        have hboth := (hlatest p hlive).mp hcase
        exact ⟨⟨hlive, hboth.1⟩, hboth.2⟩
  · rw [latest_setStore, hnew] at hk
    rw [store_setStore, extent_setStore, latest_setStore, hnew]
    rcases eq_or_ne k key with rfl | hkNe
    · rw [Function.update_self, hcontents nit hself]
      exact ⟨hself, hnit⟩
    · rw [Function.update_of_ne hkNe] at hk ⊢
      obtain ⟨hlive, hkKey⟩ := hinv.isMap.latest k hk
      have hlive' : placed.extent (t.latest k) ≠ 0 := by rwa [hother _ (hne _ hlive)]
      rw [hcontents _ hlive', hsame _ hlive]
      exact ⟨hlive', hkKey⟩
  · rw [extent_setStore] at hp
    simp only [store_setStore, latest_setStore, gets_setStore, hrefcounts p hp, hcontents p hp]
    rcases eq_or_ne p nit with rfl | hpNe
    · simp only [hnit, hnew, hgets, Function.update_self, if_true]
    · have hlive : t.extent p ≠ 0 := by rwa [hother p hpNe] at hp
      have hiff := hlatest p hlive
      rw [hgets, Function.update_of_ne hpNe, if_neg hpNe, hinv.isMap.refcounts p hlive]
      simp only [hsame p hlive, hiff]
      rcases eq_or_ne p (t.latest key) with hlast | hlast
      · have hkept := hinv.isMap.latest key (by rw [← hlast]; exact hinv.laid.ne_zero hlive)
        have hpLatest : t.latest (contentAt t.store.mem p).key = p := by
          rw [hlast, hkept.2]
        rw [if_pos hlast, if_pos hpLatest, if_neg fun hcase => hcase.2 hlast]
        rfl
      · simp only [if_neg hlast, and_iff_left hlast]

/-! ## Steps -/

section

variable {settings : Settings} {next : TableRun}

theorem store_place (hash : List UInt8 → UInt32) (t : TableRun) (nit : ℕ)
    (key value : List UInt8) : (t.place hash nit key value).store = { t.store with
      mem := Laid.newItem t.store.mem nit (hash key).toNat key value } := by
  rw [place]

/-- A fresh item that is not yet linked. -/
structure PlacedInv (hash : List UInt8 → UInt32) (t placed : TableRun) (chains : ℕ → List ℕ)
    (nit : ℕ) (key : List UInt8) : Prop where
  laid : Laid placed.store.mem placed.extent
  table : TableInv hash placed.store placed.extent chains
  fresh : Fresh hash placed.store placed.extent chains nit
  live : ∀ p, t.extent p ≠ 0 → placed.extent p ≠ 0 ∧ p ≠ nit
  linked : ∀ p, placed.store.Linked chains p ↔ t.store.Linked chains p
  key : (contentAt placed.store.mem nit).key = key
  refcount : itemRefcount placed.store.mem nit = 1
  contents : ∀ p, t.extent p ≠ 0 → contentAt placed.store.mem p = contentAt t.store.mem p
  refcounts : ∀ p, p ≠ nit → placed.extent p ≠ 0 →
    itemRefcount placed.store.mem p = itemRefcount t.store.mem p

theorem Inv.placed (hinv : Inv hash t) (hkey : key.length < 65536)
    (hvalue : value.length < 2 ^ 32)
    (hfree : t.Free nit (sizeofItem + value.length + key.length)) {chains : ℕ → List ℕ}
    (htable : TableInv hash t.store t.extent chains) :
    PlacedInv hash t (t.place hash nit key value) chains nit key := by
  have hroom := hfree.room
  have hhv : (hash key).toNat < 2 ^ 32 := (hash key).toNat_lt
  have hsize : sizeofItem = 24 := rfl
  have hne : ∀ p, t.extent p ≠ 0 → p ≠ nit := by
    rintro p hp rfl
    exact hp (hroom.extent_eq_zero (by omega))
  have hlive : ∀ p, t.extent p ≠ 0 → (t.place hash nit key value).extent p ≠ 0 := by
    intro p hp
    rwa [extent_place, Function.update_of_ne (hne p hp)]
  refine ⟨?_, ?_, ?_, fun p hp => ⟨hlive p hp, hne p hp⟩, fun p => ?_, ?_, ?_, fun p hp => ?_,
    fun p hpNe hp => ?_⟩
  · rw [extent_place, mem_place]
    exact hinv.laid.extend_newItem hhv hkey hvalue hroom
  · rw [store_place]
    exact htable.extend hinv.laid hlive fun p hp => hroom.agree_newItem hkey hp
  · rw [store_place, extent_place]
    exact htable.fresh_newItem hkey hvalue hroom t.store.log
  · rw [store_place]
    exact Iff.rfl
  · rw [mem_place, Laid.contentAt_newItem hhv hkey hvalue]
  · rw [mem_place, Laid.itemRefcount_newItem hkey]
  · rw [mem_place]
    exact hinv.laid.contentAt_of_agree hp (hroom.agree_newItem hkey hp)
  · rw [extent_place, Function.update_of_ne hpNe] at hp
    rw [mem_place]
    exact hinv.laid.itemRefcount_of_agree hp (hroom.agree_newItem hkey hp)

/-- The replaced item is the latest one for its key. -/
theorem Inv.eq_latest {placed : TableRun} {chains : ℕ → List ℕ} {it : ℕ}
    (hold : ∀ p, t.store.Linked chains p ↔
      t.extent p ≠ 0 ∧ t.latest (contentAt t.store.mem p).key = p)
    (hplaced : PlacedInv hash t placed chains nit key) (hit : placed.store.Linked chains it)
    (hitKey : (contentAt placed.store.mem it).key = (contentAt placed.store.mem nit).key) :
    t.extent it ≠ 0 ∧ it = t.latest key := by
  rw [hplaced.linked] at hit
  obtain ⟨hlive, hlatest⟩ := (hold it).mp hit
  rw [hplaced.contents it hlive, hplaced.key] at hitKey
  rw [hitKey] at hlatest
  exact ⟨hlive, hlatest.symm⟩

/-- The table after the old item for the key has been replaced. -/
theorem Inv.replaced (hinv : Inv hash t) (hkey : key.length < 65536)
    (hvalue : value.length < 2 ^ 32)
    (hfree : t.Free nit (sizeofItem + value.length + key.length)) {placed : TableRun}
    (hplaced : placed = t.place hash nit key value) {chains chains' : ℕ → List ℕ}
    (hold : ∀ p, t.store.Linked chains p ↔
      t.extent p ≠ 0 ∧ t.latest (contentAt t.store.mem p).key = p)
    (hplacedInv : PlacedInv hash t placed chains nit key) {it : ℕ} {s' : Store}
    (hit : placed.store.Linked chains it)
    (hitKey : (contentAt placed.store.mem it).key = (contentAt placed.store.mem nit).key)
    (htable : TableInv hash s' placed.extent chains')
    (heffect : PutEffect placed.store s' placed.extent nit)
    (hlinked : ∀ p, s'.Linked chains' p ↔ p = nit ∨ placed.store.Linked chains p ∧ p ≠ it) :
    ∃ store, itemUnref settings s' it = some store ∧ Inv hash (placed.setStore store) := by
  obtain ⟨hitLive, hlatest⟩ := Inv.eq_latest hold hplacedInv hit hitKey
  obtain ⟨hitPlaced, hitNe⟩ := hplacedInv.live it hitLive
  have hitLinked := (hold it).mp ((hplacedInv.linked it).mp hit)
  have hcount : itemRefcount s'.mem it = itemRefcount t.store.mem it := by
    rw [heffect.refcounts it hitPlaced, if_neg hitNe, hplacedInv.refcounts it hitNe hitPlaced]
  have htwo : 2 ≤ itemRefcount t.store.mem it := by
    rw [hinv.isMap.refcounts it hitLive, if_pos hitLinked.2]
    omega
  have hbound := itemRefcount_lt t.store.mem it
  refine ⟨_, itemUnref_eq (by omega) fun hone => by omega, ?_⟩
  refine hinv.put hkey hvalue hfree hplaced hold
    (htable.setRefcount heffect.laid hitPlaced _ _) (fun p hp => ?_) (fun p hp => ?_) fun p => ?_
  · exact (heffect.laid.contentAt_setRefcount hitPlaced hp _).trans (heffect.contents p hp)
  · dsimp only
    rw [heffect.laid.itemRefcount_setRefcount hitPlaced hp, heffect.refcounts p hp, ← hlatest,
      hcount]
    rcases eq_or_ne p nit with rfl | hpNe
    · rw [if_pos rfl, if_neg hitNe.symm, if_pos rfl, hplacedInv.refcount]
    · rw [if_neg hpNe, if_neg hpNe, hplacedInv.refcounts p hpNe hp]
      split
      · rename_i heq
        rw [heq]
        exact Nat.mod_eq_of_lt (by omega)
      · rfl
  · rw [← hlatest, ← hplacedInv.linked]
    exact hlinked p

/-- Unconditional insertions of fresh items keep the table a map. -/
theorem Inv.step_put (hinv : Inv hash t)
    (hstep : step settings hash t (.put nit key value) = some next) : Inv hash next := by
  rw [step] at hstep
  split at hstep
  case isFalse => cases hstep
  case isTrue hguard =>
    obtain ⟨_, hfree, hkey, hvalue⟩ := hguard
    obtain ⟨chains, htable, hold⟩ := hinv.isMap.table
    have hplacedInv := hinv.placed hkey hvalue hfree htable
    generalize hplaced : t.place hash nit key value = placed at hstep hplacedInv
    dsimp only at hstep
    cases hashtPut_cases settings hplacedInv.table hplacedInv.laid hplacedInv.fresh 0 with
    | kept hcas => exact absurd rfl hcas
    | replaced it s' chains' hit hitKey _ hput htable' heffect hlinked =>
        obtain ⟨store, hunref, hnext⟩ := hinv.replaced hkey hvalue hfree hplaced.symm hold
          hplacedInv hit hitKey htable' heffect hlinked
        rw [hput, hunref] at hstep
        obtain rfl := Option.some.inj hstep
        exact hnext
    | inserted s' chains' hnew _ hput htable' heffect hlinked =>
        rw [hput] at hstep
        obtain rfl := Option.some.inj hstep
        have hlatest : t.latest key = 0 := by
          by_contra hne
          obtain ⟨hlive, hlatestKey⟩ := hinv.isMap.latest key hne
          refine hnew (t.latest key) ?_ ?_
          · rw [hplacedInv.linked, hold, hlatestKey]
            exact ⟨hlive, rfl⟩
          · rw [hplacedInv.contents _ hlive, hlatestKey, hplacedInv.key]
        refine hinv.put hkey hvalue hfree hplaced.symm hold htable' heffect.contents
          (fun p hp => ?_) fun p => ?_
        · rw [heffect.refcounts p hp, hlatest, if_neg (hplacedInv.laid.ne_zero hp)]
          rcases eq_or_ne p nit with rfl | hpNe
          · rw [if_pos rfl, if_pos rfl, hplacedInv.refcount]
          · rw [if_neg hpNe, if_neg hpNe, hplacedInv.refcounts p hpNe hp]
        · rw [hlinked, hplacedInv.linked, hlatest]
          refine or_congr_right ⟨fun hp => ⟨hp, hinv.laid.ne_zero ((hold p).mp hp).1⟩, And.left⟩

/-- The lookup of an item whose reference count can be raised. -/
theorem Inv.get_found (hinv : Inv hash t) {p : ℕ} (hp : t.extent p ≠ 0)
    (hlatest : t.latest (contentAt t.store.mem p).key = p)
    (hkey : (contentAt t.store.mem p).key = key) (hlt : itemRefcount t.store.mem p < 65535) :
    Inv hash (t.found { t.store with
      mem := setRefcount t.store.mem p (itemRefcount t.store.mem p + 1) } key p) := by
  obtain ⟨chains, htable, hold⟩ := hinv.isMap.table
  have hcontents : ∀ q, t.extent q ≠ 0 → contentAt (setRefcount t.store.mem p
      (itemRefcount t.store.mem p + 1)) q = contentAt t.store.mem q :=
    fun q hq => hinv.laid.contentAt_setRefcount hp hq _
  have hanswered : ∀ k it, some (key, p) = some (k, it) → it = t.latest k := by
    rintro k it ⟨⟩
    rw [← hkey, hlatest]
  refine ⟨hinv.laid.setRefcount hp _, hinv.isMap.running, hanswered, ⟨chains, ?_, fun q => ?_⟩,
    fun k hk => ?_, fun q hq => ?_⟩
  · exact htable.setRefcount hinv.laid hp _ t.store.log
  · refine (hold q).trans (and_congr_right fun hq => ?_)
    change _ ↔ t.latest (contentAt (setRefcount t.store.mem p
      (itemRefcount t.store.mem p + 1)) q).key = q
    rw [hcontents q hq]
  · obtain ⟨hlive, hkept⟩ := hinv.isMap.latest k hk
    refine ⟨hlive, ?_⟩
    change (contentAt (setRefcount t.store.mem p (itemRefcount t.store.mem p + 1))
      (t.latest k)).key = k
    rw [hcontents _ hlive]
    exact hkept
  · change itemRefcount (setRefcount t.store.mem p (itemRefcount t.store.mem p + 1)) q =
      1 + Function.update t.gets p (t.gets p + 1) q + _
    have hcount := hinv.isMap.refcounts q hq
    simp only [found, store_setStore, latest_setStore, hcontents q hq]
    rw [hinv.laid.itemRefcount_setRefcount hp hq]
    rcases eq_or_ne q p with rfl | hne
    · rw [if_pos rfl, Function.update_self, Nat.mod_eq_of_lt (by omega), hcount]
      omega
    · rw [if_neg hne, Function.update_of_ne hne, hcount]

/-- A lookup keeps the table a map if and only if the reference can be counted. -/
theorem Inv.step_get (hinv : Inv hash t)
    (hstep : step settings hash t (.get key) = some next) :
    (Countable t (.get key) → Inv hash next) ∧ (IsMap hash next → Countable t (.get key)) := by
  rw [step, if_pos hinv.isMap.running] at hstep
  obtain ⟨chains, htable, hold⟩ := hinv.isMap.table
  rcases htable.hashtGet_cases hinv.laid key with ⟨p, hp, hkey, hget⟩ | ⟨hnone, hget⟩
  · obtain ⟨hlive, hlatest⟩ := (hold p).mp hp
    have hlatestKey : t.latest key = p := by rw [← hkey, hlatest]
    have hne := hinv.laid.ne_zero hlive
    have hcount := hinv.isMap.refcounts p hlive
    have hbound := itemRefcount_lt t.store.mem p
    rw [hget, Store.refFound, if_pos hne] at hstep
    by_cases hfull : itemRefcount t.store.mem p = 65535
    · rw [itemRef_of_full hfull, Option.map_some] at hstep
      obtain rfl := Option.some.inj hstep
      have hfull' : ¬Countable t (.get key) := by
        intro (hcond : itemRefcount t.store.mem (t.latest key) = 65535 → t.latest key = 0)
        rw [hlatestKey] at hcond
        exact hne (hcond hfull)
      refine ⟨fun hcond => absurd hcond hfull', fun hmap => ?_⟩
      have hzero : itemRefcount (setRefcount t.store.mem p 0) p = 0 :=
        itemRefcount_setRefcount _ _ _
      have hwrong := hmap.refcounts p hlive
      change itemRefcount (setRefcount t.store.mem p 0) p = _ at hwrong
      rw [hzero] at hwrong
      omega
    · rw [itemRef_eq (by omega) (by omega), Option.map_some] at hstep
      obtain rfl := Option.some.inj hstep
      refine ⟨fun _ => hinv.get_found hlive hlatest hkey (by omega), fun _ hfull' => ?_⟩
      rw [hlatestKey] at hfull'
      exact absurd hfull' hfull
  · have hlatest : t.latest key = 0 := by
      by_contra hne
      obtain ⟨hlive, hlatestKey⟩ := hinv.isMap.latest key hne
      refine hnone (t.latest key) ?_ hlatestKey
      rw [hold, hlatestKey]
      exact ⟨hlive, rfl⟩
    rw [hget] at hstep
    obtain rfl := Option.some.inj hstep
    refine ⟨fun _ => ⟨hinv.laid, hinv.isMap.running, ?_, ⟨chains, htable, hold⟩,
      hinv.isMap.latest, fun p hp => ?_⟩, fun _ _ => hlatest⟩
    · rintro k it ⟨⟩
      exact hlatest.symm
    · have hne := hinv.laid.ne_zero hp
      refine (hinv.isMap.refcounts p hp).trans ?_
      change _ = 1 + Function.update t.gets 0 (t.gets 0 + 1) p + _
      rw [Function.update_of_ne hne]
      rfl

/-- The table is the map from keys to their latest items throughout a run if and
only if no lookup wraps a reference count around. -/
theorem isMap_along_iff (settings : Settings) (hash : List UInt8 → UInt32) (mem : Memory)
    (actions : List TableAction) :
    Transition.Along (step settings hash) (IsMap hash) (initial mem) actions ↔
      Transition.Meets (step settings hash) Countable (initial mem) actions := by
  refine Transition.along_iff_meets (Inv hash) (fun t hinv => hinv.isMap) ?_ ?_
    (inv_initial hash mem)
  · intro t action next hinv hcond hstep
    cases action with
    | put nit key value => exact hinv.step_put hstep
    | get key => exact (hinv.step_get hstep).1 hcond
  · intro t action next hinv hstep hmap
    cases action with
    | put nit key value => trivial
    | get key => exact (hinv.step_get hstep).2 hmap

/-! ## More lookups than the reference count can tell -/

theorem step_put_some (settings : Settings) (hash : List UInt8 → UInt32) (key value : List UInt8)
    (hrunning : t.failed = false)
    (hfree : t.Free nit (sizeofItem + value.length + key.length)) (hkey : key.length < 65536)
    (hvalue : value.length < 2 ^ 32) :
    ∃ next, step settings hash t (.put nit key value) = some next ∧ next.latest key = nit ∧
      next.gets nit = 0 := by
  rw [step, if_pos ⟨hrunning, hfree, hkey, hvalue⟩]
  have hlatest : (t.place hash nit key value).latest key = nit := by
    rw [latest_place, Function.update_self]
  have hgets : (t.place hash nit key value).gets nit = 0 := by
    rw [gets_place, Function.update_self]
  dsimp only
  split
  · exact ⟨_, rfl, hlatest, hgets⟩
  · exact ⟨_, rfl, hlatest, hgets⟩

/-- Along lookups of one key, the references to its item add up. -/
theorem gets_add_le (hmap : IsMap hash t) {p n : ℕ} (hp : t.latest key = p) (hne : p ≠ 0)
    (halong : Transition.Along (step settings hash) (IsMap hash) t
      (List.replicate n (.get key))) : t.gets p + n + 2 < 65536 := by
  induction n generalizing t with
  | zero =>
      obtain ⟨hlive, hkey⟩ := hmap.latest key (by rw [hp]; exact hne)
      have hcount := hmap.refcounts (t.latest key) hlive
      have hbound := itemRefcount_lt t.store.mem (t.latest key)
      rw [hkey, if_pos rfl, hp] at hcount
      rw [hp] at hbound
      omega
  | succ n ih =>
      have hrunning : ∃ next, step settings hash t (.get key) = some next := by
        rw [step, if_pos hmap.running]
        split
        · exact ⟨_, rfl⟩
        · exact ⟨_, rfl⟩
      obtain ⟨next, hnext⟩ := hrunning
      have hrest := halong.2 next hnext
      rw [step, if_pos hmap.running] at hnext
      split at hnext
      · rename_i store it hget
        obtain rfl := Option.some.inj hnext
        obtain rfl : it = p := (hrest.head.answered key it rfl).trans hp
        have hle := ih hrest.head hp hrest
        change Function.update t.gets it (t.gets it + 1) it + n + 2 < 65536 at hle
        rw [Function.update_self] at hle
        omega
      · obtain rfl := Option.some.inj hnext
        exact absurd hrest.head.running Bool.noConfusion

end

def exampleSettings : Settings := ⟨64, 4096, 1, by decide⟩

/-- One insertion and 65534 lookups of its key. -/
theorem not_isMap_along : ¬Transition.Along (step exampleSettings fun _ => 0) (IsMap fun _ => 0)
    (initial fun _ => 0) (.put 64 [] [] :: List.replicate 65534 (.get [])) := by
  intro halong
  obtain ⟨_, hrest⟩ := halong
  have hfree : (initial fun _ => 0).Free 64 (sizeofItem + 0 + 0) := by decide
  obtain ⟨next, hnext, hlatest, hgets⟩ :=
    step_put_some exampleSettings (fun _ => 0) [] [] rfl hfree (by decide) (by decide)
  have hmap := hrest next hnext
  have hle := gets_add_le hmap.head hlatest (by decide) hmap
  omega

end TableRun

end ArmsTiering.Flexkvs
