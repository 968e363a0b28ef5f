import ArmsTiering.Core.Counting
import ArmsTiering.Core.Transition
import ArmsTiering.Flexkvs.References

/-!
# Updates while the log is cleaned

Workers handle SET requests and move items for the cleaner, with their steps in any
order.  The cleaner copies an item and then replaces it by the copy if the table
still links it, which is not to say that its value is still the one that was copied.
-/

namespace ArmsTiering.Flexkvs

/-- Program counter of a worker. -/
inductive UpdatePc
  | idle
  /-- a SET behind `hasht_get`, which found the item -/
  | found (key value : List UInt8) (it : ℕ)
  /-- a SET behind `hasht_get`, which returned `NULL` -/
  | missed (key value : List UInt8)
  /-- a SET that has allocated its item and filled it in -/
  | filled (key value : List UInt8) (nit : ℕ)
  /-- `clean_log` with an item from its queue -/
  | cleaning (it : ℕ)
  /-- `clean_log`, before `ialloc_alloc` -/
  | copying (it : ℕ)
  /-- `clean_log`, before `hasht_put` -/
  | copied (it nit : ℕ)
  /-- `clean_log`, before `item_unref(nit)` -/
  | published (it nit : ℕ)
  /-- before the last `item_unref` of a SET or of `clean_log` -/
  | releasing (it : ℕ)
  deriving DecidableEq

namespace UpdatePc

/-- The references that the worker holds. -/
def held : UpdatePc → List ℕ
  | .idle | .missed _ _ => []
  | .found _ _ it | .filled _ _ it | .cleaning it | .copying it | .releasing it => [it]
  | .copied it nit | .published it nit => [it, nit]

/-- The item that the worker is going to put into the table. -/
def owns : UpdatePc → Option ℕ
  | .filled _ _ nit | .copied _ nit => some nit
  | _ => none

theorem mem_held_of_owns {pc : UpdatePc} {nit : ℕ} (howns : pc.owns = some nit) :
    nit ∈ pc.held := by
  cases pc with
  | filled key value nit' =>
      obtain rfl := Option.some.inj howns
      exact List.mem_cons_self
  | copied it nit' =>
      obtain rfl := Option.some.inj howns
      exact List.mem_cons_of_mem _ List.mem_cons_self
  | _ => cases howns

end UpdatePc

inductive UpdateAction
  /-- a SET begins with its lookup -/
  | beginSet (w : ℕ) (key value : List UInt8)
  /-- an item in use comes to the worker through its cleanup queue -/
  | queue (w it : ℕ)
  /-- the next step of the worker; `ialloc_alloc` returns `nit` if it is called -/
  | advance (w nit : ℕ)

/-- The workers and the table, with the history of the SETs. -/
structure Updates where
  items : ItemStore
  workers : List UpdatePc
  /-- the value of the last SET of each key -/
  last : List UInt8 → Option (List UInt8)
  /-- an assertion has failed, or a loop does not end -/
  failed : Bool

namespace Updates

def initial (mem : Memory) (log : Log) (workers : ℕ) : Updates where
  items := .initial mem log
  workers := List.replicate workers .idle
  last := fun _ => none
  failed := false

/-- The number of references that workers hold on an item. -/
def held (t : Updates) (p : ℕ) : ℕ := (t.workers.map fun pc => pc.held.count p).sum

def goto (t : Updates) (w : ℕ) (pc : UpdatePc) (items : ItemStore) : Updates :=
  { t with items := items, workers := t.workers.set w pc }

/-- The step of a worker with an operation that may fail. -/
def perform (t : Updates) (w : ℕ) (pc : UpdatePc) : Option ItemStore → Updates
  | some items => t.goto w pc items
  | none => { t with failed := true }

/-- A SET has taken effect. -/
def record (t : Updates) (key value : List UInt8) : Updates :=
  { t with last := Function.update t.last key (some value) }

section

variable (settings : Settings) (hash : List UInt8 → UInt32)

/-- The next step of a worker that is not idle. -/
def advance (t : Updates) (w nit : ℕ) : UpdatePc → Option Updates
  | .idle => none
  | .found key value it =>
      some ((t.goto w (.releasing it) (t.items.overwrite it (hash key).toNat key value)).record
        key value)
  | .missed key value =>
      if t.items.Free settings nit (sizeofItem + value.length + key.length) then
        some (t.goto w (.filled key value nit) (t.items.alloc nit (hash key).toNat key value))
      else none
  | .filled key value it =>
      some ((t.perform w (.releasing it) (t.items.put settings it 0)).record key value)
  | .cleaning it =>
      some (t.goto w (if t.items.refcount it ≠ 1 then .copying it else .releasing it) t.items)
  | .copying it =>
      let c := t.items.contentAt it
      if t.items.Free settings nit (sizeofItem + c.value.length + c.key.length) then
        some (t.goto w (.copied it nit) (t.items.alloc nit c.hv c.key c.value))
      else none
  | .copied it new => some (t.perform w (.published it new) (t.items.put settings new it))
  | .published it new => some (t.perform w (.releasing it) (t.items.unref settings new))
  | .releasing it => some (t.perform w .idle (t.items.unref settings it))

def step (t : Updates) : UpdateAction → Option Updates
  | .beginSet w key value =>
      if t.failed = false ∧ t.workers[w]? = some .idle ∧ key.length < 65536 ∧
          value.length < 2 ^ 32 then
        match t.items.get hash key with
        | some (items, it) =>
            some (t.goto w (if it ≠ 0 then .found key value it else .missed key value) items)
        | none => some { t with failed := true }
      else none
  | .queue w it =>
      if t.failed = false ∧ t.workers[w]? = some .idle ∧ t.items.extent it ≠ 0 then
        some (t.goto w (.cleaning it) (t.items.tryref it))
      else none
  | .advance w nit =>
      if t.failed = false then t.workers[w]?.bind fun pc => t.advance settings hash w nit pc
      else none

end

/-- No assertion fails, and once all workers have finished, a lookup of a key finds
the value of its last SET. -/
def UpdatesKept (hash : List UInt8 → UInt32) (t : Updates) : Prop :=
  t.failed = false ∧ ((∀ pc ∈ t.workers, pc = .idle) → ∀ key, ∃ items it,
    t.items.get hash key = some (items, it) ∧
      match t.last key with
      | none => it = 0
      | some value => it ≠ 0 ∧ (items.contentAt it).key = key ∧ (items.contentAt it).value = value)

/-- A SET overwrites the item that is still linked for its key, and that is long
enough; a cleaner does not replace an item whose content has changed since it was
copied; the reference count of an item is not full when it is inserted. -/
def PcUndisturbed (hash : List UInt8 → UInt32) (items : ItemStore) : UpdatePc → Prop
  | .found key value it => items.lookup hash key = it ∧
      sizeofItem + value.length + key.length ≤ items.extent it
  | .filled _ _ nit => items.refcount nit ≠ 65535
  | .copied it nit => items.refcount nit ≠ 65535 ∧
      (items.InSlot it → items.contentAt nit = items.contentAt it)
  | _ => True

instance (hash : List UInt8 → UInt32) (items : ItemStore) (pc : UpdatePc) :
    Decidable (PcUndisturbed hash items pc) := by
  cases pc <;> unfold PcUndisturbed <;> infer_instance

/-- The next step of a worker is undisturbed, and no reference count is full when a
SET or the cleaner's queue takes a reference. -/
def Undisturbed (hash : List UInt8 → UInt32) (t : Updates) : UpdateAction → Prop
  | .beginSet _ key _ =>
      t.items.lookup hash key ≠ 0 → t.items.refcount (t.items.lookup hash key) ≠ 65535
  | .queue _ it => t.items.refcount it ≠ 65535
  | .advance w _ => ∀ pc ∈ t.workers[w]?, PcUndisturbed hash t.items pc

instance (hash : List UInt8 → UInt32) (t : Updates) (action : UpdateAction) :
    Decidable (t.Undisturbed hash action) := by
  cases action <;> unfold Undisturbed <;> infer_instance

/-! ## The invariant -/

/-- What a worker relies on. -/
def PcOk (hash : List UInt8 → UInt32) (items : ItemStore) : UpdatePc → Prop
  | .found key value it => (items.contentAt it).key = key ∧ value.length < 2 ^ 32
  | .missed key value => key.length < 65536 ∧ value.length < 2 ^ 32
  | .filled key value nit => items.contentAt nit =
      ⟨(hash key).toNat, value.length, key.length, key, value⟩
  | .copied it nit => (items.contentAt nit).key = (items.contentAt it).key
  | _ => True

/-- The workers that own the item. -/
def owners (t : Updates) (p : ℕ) : ℕ := t.workers.countP fun pc => pc.owns = some p

/-- The table is the map of the last SETs, and what the workers own is not in it. -/
structure Holds (settings : Settings) (hash : List UInt8 → UInt32) (t : Updates)
    (chains : ℕ → List ℕ) : Prop where
  counted : ItemStore.Counted settings hash t.items chains t.held
  values : ∀ p, t.items.store.Linked chains p →
    t.last (t.items.contentAt p).key = some (t.items.contentAt p).value
  stored : ∀ key value, t.last key = some value →
    ∃ p, t.items.store.Linked chains p ∧ (t.items.contentAt p).key = key
  owned : ∀ p, t.owners p ≤ 1
  fresh : ∀ p, t.items.store.Linked chains p → t.owners p = 0
  workers : ∀ (w : ℕ) (pc : UpdatePc), t.workers[w]? = some pc → PcOk hash t.items pc

structure Inv (settings : Settings) (hash : List UInt8 → UInt32) (t : Updates) : Prop where
  running : t.failed = false
  holds : ∃ chains, Holds settings hash t chains

variable {settings : Settings} {hash : List UInt8 → UInt32} {t : Updates} {chains : ℕ → List ℕ}
  {w nit : ℕ} {pc pc' : UpdatePc}

theorem held_set (hpc : t.workers[w]? = some pc) (pc' : UpdatePc) (p : ℕ) :
    ((t.workers.set w pc').map fun pc => pc.held.count p).sum + pc.held.count p =
      t.held p + pc'.held.count p :=
  Counting.sum_map_set (fun pc : UpdatePc => pc.held.count p) hpc pc'

theorem count_le_held (hpc : t.workers[w]? = some pc) (p : ℕ) :
    pc.held.count p ≤ t.held p := by
  have hsum := held_set hpc .idle p
  have hnone : UpdatePc.idle.held.count p = 0 := rfl
  omega

theorem held_pos (hpc : t.workers[w]? = some pc) {p : ℕ} (hp : p ∈ pc.held) : t.held p ≠ 0 := by
  have hle := count_le_held hpc p
  have hpos := List.count_pos_iff.mpr hp
  omega

/-- An item that is not in use has no owner. -/
theorem owners_eq_zero (hcounted : ItemStore.Counted settings hash t.items chains t.held) {p : ℕ}
    (hp : t.items.extent p = 0) : t.owners p = 0 := by
  unfold owners
  rw [List.countP_eq_zero]
  intro pc hmem howns
  obtain ⟨w, hpc⟩ := List.mem_iff_getElem?.mp hmem
  refine hcounted.live p (held_pos hpc ?_) hp
  exact UpdatePc.mem_held_of_owns (of_decide_eq_true howns)

theorem held_goto (hpc : t.workers[w]? = some pc) {held' : ℕ → ℕ} (items : ItemStore)
    (hcount : ∀ p, held' p + pc.held.count p = t.held p + pc'.held.count p) :
    (t.goto w pc' items).held = held' := by
  funext p
  have hsum := held_set hpc pc' p
  have hp := hcount p
  change ((t.workers.set w pc').map fun pc => pc.held.count p).sum = held' p
  omega

/-- What a worker relies on is not touched by the others. -/
theorem PcOk.transfer {items items' : ItemStore} (hok : PcOk hash items pc)
    (hkeys : ∀ p ∈ pc.held, (items'.contentAt p).key = (items.contentAt p).key)
    (howned : ∀ p, pc.owns = some p → items'.contentAt p = items.contentAt p) :
    PcOk hash items' pc := by
  cases pc with
  | found key value it =>
      refine ⟨?_, hok.2⟩
      rw [hkeys it List.mem_cons_self]
      exact hok.1
  | filled key value nit =>
      exact (howned nit rfl).trans hok
  | copied it nit =>
      have hnit := hkeys nit (List.mem_cons_of_mem _ List.mem_cons_self)
      exact hnit.trans (hok.trans (hkeys it List.mem_cons_self).symm)
  | missed key value => exact hok
  | _ => trivial

/-- The step of a worker from `pc` to `pc'`. -/
structure Moved (settings : Settings) (hash : List UInt8 → UInt32) (t : Updates)
    (chains : ℕ → List ℕ) (w : ℕ) (pc pc' : UpdatePc) (items : ItemStore) (chains' : ℕ → List ℕ)
    (last : List UInt8 → Option (List UInt8)) : Prop where
  counted : ItemStore.Counted settings hash items chains' (t.goto w pc' items).held
  keys : ∀ p, t.items.extent p ≠ 0 → (items.contentAt p).key = (t.items.contentAt p).key
  unlinked : ∀ p, t.items.extent p ≠ 0 → ¬t.items.store.Linked chains p →
    items.contentAt p = t.items.contentAt p
  links : ∀ p, items.store.Linked chains' p →
    t.items.store.Linked chains p ∨ pc.owns = some p ∧ pc'.owns = none
  owns : ∀ nit, pc'.owns = some nit → t.items.extent nit = 0
  values : ∀ p, items.store.Linked chains' p →
    last (items.contentAt p).key = some (items.contentAt p).value
  stored : ∀ key value, last key = some value →
    ∃ p, items.store.Linked chains' p ∧ (items.contentAt p).key = key
  ok : PcOk hash items pc'

/-- Such a step keeps the invariant. -/
theorem Holds.moved (hholds : Holds settings hash t chains) (hpc : t.workers[w]? = some pc)
    {items : ItemStore} {chains' : ℕ → List ℕ} (last : List UInt8 → Option (List UInt8))
    (hmoved : Moved settings hash t chains w pc pc' items chains' last) :
    Holds settings hash { t.goto w pc' items with last := last } chains' := by
  have howners : ∀ p, (t.goto w pc' items).owners p + Counting.one (pc.owns = some p) =
      t.owners p + Counting.one (pc'.owns = some p) :=
    fun p => Counting.countP_set (fun pc : UpdatePc => decide (pc.owns = some p)) hpc pc'
  have hnew : ∀ p, Counting.one (pc'.owns = some p) ≠ 0 →
      t.items.extent p = 0 ∧ t.owners p = 0 := by
    intro p hp
    by_cases howns : pc'.owns = some p
    · have hzero := hmoved.owns p howns
      exact ⟨hzero, owners_eq_zero hholds.counted hzero⟩
    · simp [Counting.one, howns] at hp
  have hone : ∀ p, Counting.one (pc'.owns = some p) ≤ 1 := by
    intro p
    unfold Counting.one
    split <;> omega
  refine ⟨hmoved.counted, hmoved.values, hmoved.stored, fun p => ?_, fun p hp => ?_,
    fun u pcu hu => ?_⟩
  · have hp := howners p
    have hle := hholds.owned p
    have hzero := hnew p
    have hbound := hone p
    change (t.goto w pc' items).owners p ≤ 1
    by_cases hc : Counting.one (decide (pc'.owns = some p)) = 0
    · omega
    · have hnone := (hzero hc).2
      omega
  · have hp' := howners p
    change (t.goto w pc' items).owners p = 0
    rcases hmoved.links p hp with hlinked | ⟨howns, hlost⟩
    · have hnone := hholds.fresh p hlinked
      have hc : Counting.one (decide (pc'.owns = some p)) = 0 := by
        by_contra hc
        exact hholds.counted.table.live hlinked (hnew p hc).1
      omega
    · have hle := hholds.owned p
      have hold : Counting.one (decide (pc.owns = some p)) = 1 := by
        rw [decide_eq_true howns, Counting.one_true]
      have hc : Counting.one (decide (pc'.owns = some p)) = 0 := by
        rw [hlost]
        rfl
      omega
  · rcases Counting.getElem?_set_cases hu with ⟨_, rfl⟩ | ⟨hne, hu⟩
    · exact hmoved.ok
    · refine (hholds.workers u pcu hu).transfer (fun p hp => hmoved.keys p ?_)
        fun p howns => hmoved.unlinked p ?_ fun hlinked => ?_
      · exact hholds.counted.live p (held_pos hu hp)
      · exact hholds.counted.live p (held_pos hu (UpdatePc.mem_held_of_owns howns))
      · have hpos : 0 < t.owners p :=
          Counting.one_le_countP hu (decide_eq_true howns)
        have hnone := hholds.fresh p hlinked
        omega

/-- A step that leaves the table and the contents of all items as they are. -/
theorem Holds.untouched (hholds : Holds settings hash t chains) (hpc : t.workers[w]? = some pc)
    {items : ItemStore} (hcounted : ItemStore.Counted settings hash items chains
      (t.goto w pc' items).held) (hkept : ItemStore.Kept t.items items)
    (hlinked : ∀ p, items.store.Linked chains p ↔ t.items.store.Linked chains p)
    (howns : ∀ nit, pc'.owns = some nit → t.items.extent nit = 0) (hok : PcOk hash items pc') :
    Holds settings hash (t.goto w pc' items) chains := by
  refine hholds.moved hpc t.last ⟨hcounted, fun p hp => by rw [hkept p hp],
    fun p hp _ => hkept p hp, fun p hp => .inl ((hlinked p).mp hp), howns, fun p hp => ?_,
    fun key value hlast => ?_, hok⟩
  · have hold := (hlinked p).mp hp
    rw [hkept p (hholds.counted.table.live hold)]
    exact hholds.values p hold
  · obtain ⟨p, hp, hkey⟩ := hholds.stored key value hlast
    refine ⟨p, (hlinked p).mpr hp, ?_⟩
    rw [hkept p (hholds.counted.table.live hp)]
    exact hkey

/-- One more reference, of the worker that has been idle. -/
theorem held_begin (hpc : t.workers[w]? = some .idle) {p : ℕ} (items : ItemStore)
    (hpc' : pc'.held = [p]) :
    (t.goto w pc' items).held = Function.update t.held p (t.held p + 1) := by
  refine held_goto hpc items fun q => ?_
  have hidle : UpdatePc.idle.held.count q = 0 := rfl
  rw [hidle, hpc']
  rcases eq_or_ne q p with rfl | hne
  · rw [Function.update_self, List.count_singleton_self]
  · rw [Function.update_of_ne hne, List.count_singleton, if_neg (by simpa using hne.symm)]

theorem held_same (hpc : t.workers[w]? = some pc) (items : ItemStore)
    (hheld : pc'.held = pc.held) : (t.goto w pc' items).held = t.held :=
  held_goto hpc items fun p => by rw [hheld]

theorem held_alloc (hpc : t.workers[w]? = some pc) (items : ItemStore) (hzero : t.held nit = 0)
    (hheld : ∀ p, pc'.held.count p = pc.held.count p + [nit].count p) :
    (t.goto w pc' items).held = Function.update t.held nit 1 := by
  refine held_goto hpc items fun p => ?_
  rw [hheld]
  rcases eq_or_ne p nit with rfl | hne
  · rw [Function.update_self, List.count_singleton_self]
    omega
  · rw [Function.update_of_ne hne, List.count_singleton, if_neg (by simpa using hne.symm)]
    omega

theorem held_drop (hpc : t.workers[w]? = some pc) {p : ℕ} (items : ItemStore)
    (hheld : ∀ q, pc.held.count q = pc'.held.count q + [p].count q) :
    (t.goto w pc' items).held = Function.update t.held p (t.held p - 1) := by
  refine held_goto hpc items fun q => ?_
  have hle := count_le_held hpc q
  rw [hheld] at hle ⊢
  rcases eq_or_ne q p with rfl | hne
  · rw [List.count_singleton_self] at hle ⊢
    rw [Function.update_self]
    omega
  · rw [Function.update_of_ne hne, List.count_singleton, if_neg (by simpa using hne.symm)]
    omega

theorem count_pair (it nit p : ℕ) : [it, nit].count p = [it].count p + [nit].count p := by
  rw [← List.count_append]
  rfl

/-- A SET begins. -/
theorem Holds.beginSet (hholds : Holds settings hash t chains) (hpc : t.workers[w]? = some .idle)
    {key value : List UInt8} (hkey : key.length < 65536) (hvalue : value.length < 2 ^ 32)
    (hfull : t.items.lookup hash key ≠ 0 →
      t.items.refcount (t.items.lookup hash key) ≠ 65535) :
    ∃ items it, t.items.get hash key = some (items, it) ∧
      Holds settings hash
        (t.goto w (if it ≠ 0 then .found key value it else .missed key value) items) chains := by
  rcases hholds.counted.get_cases key with ⟨p, hlookup, hp, hpKey, hget⟩ | ⟨_, _, hget⟩
  · have hlive := hholds.counted.table.live hp
    have hne := hholds.counted.laid.ne_zero hlive
    have hbound : t.items.refcount p < 65536 := itemRefcount_lt t.items.store.mem p
    rw [hlookup] at hfull
    have hroom := hfull hne
    have hlt : t.items.refcount p < 65535 := by omega
    have hkept := ItemStore.kept_setCount hholds.counted.laid hlive (t.items.refcount p + 1)
      t.items.store.log
    refine ⟨_, p, hget hlt, ?_⟩
    rw [if_pos hne]
    refine hholds.untouched hpc ?_ hkept (fun q => Iff.rfl) nofun ⟨?_, hvalue⟩
    · rw [held_begin hpc _ rfl]
      exact hholds.counted.addRef hlive hlt
    · rw [hkept p hlive]
      exact hpKey
  · refine ⟨t.items, 0, hget, ?_⟩
    rw [if_neg (not_not.mpr rfl)]
    refine hholds.untouched hpc ?_ (fun _ _ => rfl) (fun q => Iff.rfl) nofun ⟨hkey, hvalue⟩
    have hheld : (t.goto w (.missed key value) t.items).held = t.held := held_same hpc _ rfl
    rw [hheld]
    exact hholds.counted

/-- An item comes to the cleaner. -/
theorem Holds.queue (hholds : Holds settings hash t chains) (hpc : t.workers[w]? = some .idle)
    {it : ℕ} (hlive : t.items.extent it ≠ 0) (hfull : t.items.refcount it ≠ 65535) :
    Holds settings hash (t.goto w (.cleaning it) (t.items.tryref it)) chains := by
  have hbound : t.items.refcount it < 65536 := itemRefcount_lt t.items.store.mem it
  rw [hholds.counted.tryref_eq hlive]
  refine hholds.untouched hpc ?_ (ItemStore.kept_setCount hholds.counted.laid hlive _ _)
    (fun q => Iff.rfl) nofun trivial
  rw [held_begin hpc _ rfl]
  exact hholds.counted.addRef hlive (by omega)

/-- A worker allocates an item and fills it in. -/
theorem Holds.alloc (hholds : Holds settings hash t chains) (hpc : t.workers[w]? = some pc)
    {key value : List UInt8} (hkey : key.length < 65536) (hvalue : value.length < 2 ^ 32)
    (hfree : t.items.Free settings nit (sizeofItem + value.length + key.length))
    (hheld : ∀ p, pc'.held.count p = pc.held.count p + [nit].count p)
    (howns : pc'.owns = some nit)
    (hok : ∀ items, items.contentAt nit =
        ⟨(hash key).toNat, value.length, key.length, key, value⟩ →
      ItemStore.Kept t.items items → PcOk hash items pc') :
    Holds settings hash (t.goto w pc' (t.items.alloc nit (hash key).toNat key value)) chains := by
  obtain ⟨hzero, hfilled, hcounted⟩ := hholds.counted.alloc hfree hkey hvalue
  have hnone : t.held nit = 0 := by
    by_contra hne
    exact hholds.counted.live nit hne hzero
  have hkept : ItemStore.Kept t.items (t.items.alloc nit (hash key).toNat key value) := by
    refine fun p hp => hfilled.others p hp ?_
    rintro rfl
    exact hp hzero
  refine hholds.untouched hpc ?_ hkept hfilled.linked (fun p hp => ?_)
    (hok _ hfilled.content hkept)
  · rw [held_alloc hpc _ hnone hheld]
    exact hcounted
  · rw [howns] at hp
    obtain rfl := Option.some.inj hp
    exact hzero

/-- A worker drops a reference. -/
theorem Holds.unref (hholds : Holds settings hash t chains) (hpc : t.workers[w]? = some pc)
    (pc' : UpdatePc) (p : ℕ) (hheld : ∀ q, pc.held.count q = pc'.held.count q + [p].count q)
    (howns : pc'.owns = none) (hok : ∀ items, PcOk hash items pc') :
    Holds settings hash (t.perform w pc' (t.items.unref settings p)) chains ∧
      (t.perform w pc' (t.items.unref settings p)).failed = t.failed := by
  have hp : t.held p ≠ 0 := by
    have hle := count_le_held hpc p
    rw [hheld, List.count_singleton_self] at hle
    omega
  obtain ⟨store, hunref, hkept, hbuckets, hcounted⟩ := hholds.counted.unref hp
  rw [hunref]
  refine ⟨hholds.untouched hpc ?_ hkept (fun q => ?_) (fun nit hnit => ?_) (hok _), rfl⟩
  · rw [held_drop hpc _ hheld]
    exact hcounted
  · unfold Store.Linked
    rw [ItemStore.store_collect, hbuckets]
  · rw [howns] at hnit
    cases hnit

/-- A SET overwrites the item that is linked for its key. -/
theorem Holds.overwrite (hholds : Holds settings hash t chains) {key value : List UInt8} {it : ℕ}
    (hpc : t.workers[w]? = some (.found key value it)) (hlinked : t.items.lookup hash key = it)
    (hfits : sizeofItem + value.length + key.length ≤ t.items.extent it) :
    Holds settings hash ((t.goto w (.releasing it)
      (t.items.overwrite it (hash key).toNat key value)).record key value) chains := by
  obtain ⟨hkey, hvalue⟩ := hholds.workers w _ hpc
  have hlive := hholds.counted.live it (held_pos hpc List.mem_cons_self)
  have hit : t.items.store.Linked chains it := by
    rcases hholds.counted.get_cases key with ⟨p, hlookup, hp, _⟩ | ⟨hnone, _⟩
    · rw [hlinked] at hlookup
      rwa [hlookup]
    · exact absurd (hlinked.symm.trans hnone) (hholds.counted.laid.ne_zero hlive)
  obtain ⟨hfilled, hcounted⟩ := hholds.counted.overwrite hlive hkey hfits hvalue
  generalize t.items.overwrite it (hash key).toNat key value = items at *
  have hsame : ∀ p, t.items.extent p ≠ 0 →
      (items.contentAt p).key = (t.items.contentAt p).key := by
    intro p hp
    rcases eq_or_ne p it with rfl | hne
    · rw [hfilled.content, hkey]
    · rw [hfilled.others p hp hne]
  refine hholds.moved hpc (Function.update t.last key (some value))
    ⟨?_, hsame, fun p hp hnot => hfilled.others p hp ?_, fun p hp => .inl ((hfilled.linked p).mp hp),
      nofun, fun p hp => ?_, fun key' value' hlast => ?_, trivial⟩
  · have hheld : (t.goto w (.releasing it) items).held = t.held := held_same hpc items rfl
    rw [hheld]
    exact hcounted
  · rintro rfl
    exact hnot hit
  · rw [hfilled.linked] at hp
    rcases eq_or_ne p it with rfl | hne
    · rw [hfilled.content, Function.update_self]
    · have hother : (t.items.contentAt p).key ≠ key := by
        intro heq
        exact hne (hholds.counted.table.eq_of_key hp hit (heq.trans hkey.symm))
      rw [hfilled.others p (hholds.counted.table.live hp) hne, Function.update_of_ne hother]
      exact hholds.values p hp
  · rcases eq_or_ne key' key with rfl | hne
    · exact ⟨it, (hfilled.linked it).mpr hit, by rw [hfilled.content]⟩
    · rw [Function.update_of_ne hne] at hlast
      obtain ⟨p, hp, hpKey⟩ := hholds.stored key' value' hlast
      exact ⟨p, (hfilled.linked p).mpr hp, (hsame p (hholds.counted.table.live hp)).trans hpKey⟩

/-- A worker puts its item into the table.  If that takes effect, the history names
its value for its key. -/
theorem Holds.put (hholds : Holds settings hash t chains) (hpc : t.workers[w]? = some pc)
    (pc' : UpdatePc) (cas : ℕ) (last : List UInt8 → Option (List UInt8))
    (howns : pc.owns = some nit) (hlost : pc'.owns = none) (hheld : pc'.held = pc.held)
    (hok : ∀ items, PcOk hash items pc') (hfull : t.items.refcount nit ≠ 65535)
    (hcas : cas ≠ 0 → t.items.extent cas ≠ 0 ∧
      (t.items.contentAt nit).key = (t.items.contentAt cas).key)
    (hsame : cas ≠ 0 → last = t.last)
    (hlast : cas = 0 ∨ t.items.InSlot cas → last =
      Function.update t.last (t.items.contentAt nit).key (some (t.items.contentAt nit).value)) :
    ∃ items chains', t.items.put settings nit cas = some items ∧
      Holds settings hash { t.goto w pc' items with last := last } chains' := by
  have hnit := held_pos hpc (UpdatePc.mem_held_of_owns howns)
  have hlive := hholds.counted.live nit hnit
  have hbound : t.items.refcount nit < 65536 := itemRefcount_lt t.items.store.mem nit
  have habsent : ¬t.items.store.Linked chains nit := by
    intro hlinked
    have hpos : 0 < t.owners nit := Counting.one_le_countP hpc (decide_eq_true howns)
    have hnone := hholds.fresh nit hlinked
    omega
  obtain ⟨store, chains', hput, hkept, hcounted, hlinks⟩ := hholds.counted.put hnit habsent
    (by omega) cas fun hne => by
      rw [hholds.counted.formed cas (hcas hne).1, hholds.counted.formed nit hlive, (hcas hne).2]
  refine ⟨_, chains', hput, ?_⟩
  have hheldEq := held_same hpc (t.items.collect store) hheld
  cases hlinks with
  | kept hne hlinked =>
      refine hholds.moved hpc last ⟨hheldEq ▸ hcounted, fun p hp => by rw [hkept p hp],
        fun p hp _ => hkept p hp, fun p hp => .inl ((hlinked p).mp hp), fun p hp => ?_,
        fun p hp => ?_, fun key value hstored => ?_, hok _⟩
      · rw [hlost] at hp
        cases hp
      · have hold := (hlinked p).mp hp
        rw [hkept p (hholds.counted.table.live hold), hsame hne]
        exact hholds.values p hold
      · rw [hsame hne] at hstored
        obtain ⟨p, hp, hkey⟩ := hholds.stored key value hstored
        refine ⟨p, (hlinked p).mpr hp, ?_⟩
        rw [hkept p (hholds.counted.table.live hp)]
        exact hkey
  | stored hslot hlinked =>
      have hupdate := hlast hslot
      refine hholds.moved hpc last ⟨hheldEq ▸ hcounted, fun p hp => by rw [hkept p hp],
        fun p hp _ => hkept p hp, fun p hp => ?_, fun p hp => ?_, fun p hp => ?_,
        fun key value hstored => ?_, hok _⟩
      · rcases (hlinked p).mp hp with rfl | ⟨hold, _⟩
        · exact .inr ⟨howns, hlost⟩
        · exact .inl hold
      · rw [hlost] at hp
        cases hp
      · rcases (hlinked p).mp hp with rfl | ⟨hold, hne⟩
        · rw [hkept p hlive, hupdate, Function.update_self]
        · rw [hkept p (hholds.counted.table.live hold), hupdate, Function.update_of_ne hne]
          exact hholds.values p hold
      · by_cases hkey : key = (t.items.contentAt nit).key
        · exact ⟨nit, (hlinked nit).mpr (.inl rfl), by rw [hkept nit hlive, hkey]⟩
        · rw [hupdate, Function.update_of_ne hkey] at hstored
          obtain ⟨p, hp, hpKey⟩ := hholds.stored key value hstored
          refine ⟨p, (hlinked p).mpr (.inr ⟨hp, ?_⟩), ?_⟩
          · rw [hpKey]
            exact hkey
          · rw [hkept p (hholds.counted.table.live hp)]
            exact hpKey

/-- A step of a worker that is not disturbed. -/
theorem Inv.advance {next : Updates} (hinv : Inv settings hash t)
    (hpc : t.workers[w]? = some pc) (hcond : PcUndisturbed hash t.items pc)
    (hstep : t.advance settings hash w nit pc = some next) : Inv settings hash next := by
  obtain ⟨hrunning, chains, hholds⟩ := hinv
  have hok := hholds.workers w pc hpc
  cases pc with
  | idle => cases hstep
  | found key value it =>
      obtain rfl := Option.some.inj hstep
      exact ⟨hrunning, chains, hholds.overwrite hpc hcond.1 hcond.2⟩
  | missed key value =>
      dsimp only [Updates.advance] at hstep
      split at hstep
      case isFalse => cases hstep
      case isTrue hfree =>
        obtain rfl := Option.some.inj hstep
        exact ⟨hrunning, chains, hholds.alloc hpc hok.1 hok.2 hfree
          (fun p => (Nat.zero_add _).symm) rfl fun items hcontent _ => hcontent⟩
  | filled key value it =>
      obtain rfl := Option.some.inj hstep
      have hcontent : t.items.contentAt it =
          ⟨(hash key).toNat, value.length, key.length, key, value⟩ := hok
      obtain ⟨items, chains', hput, hnext⟩ := hholds.put hpc (.releasing it) 0
        (Function.update t.last key (some value)) rfl rfl rfl (fun _ => trivial) hcond
        (absurd rfl) (absurd rfl) fun _ => by rw [hcontent]
      rw [hput]
      exact ⟨hrunning, chains', hnext⟩
  | cleaning it =>
      obtain rfl := Option.some.inj hstep
      refine ⟨hrunning, chains, ?_⟩
      split
      · have hheld : (t.goto w (.copying it) t.items).held = t.held := held_same hpc _ rfl
        refine hholds.untouched hpc ?_ (fun _ _ => rfl) (fun _ => Iff.rfl) nofun trivial
        rw [hheld]
        exact hholds.counted
      · have hheld : (t.goto w (.releasing it) t.items).held = t.held := held_same hpc _ rfl
        refine hholds.untouched hpc ?_ (fun _ _ => rfl) (fun _ => Iff.rfl) nofun trivial
        rw [hheld]
        exact hholds.counted
  | copying it =>
      dsimp only [Updates.advance] at hstep
      split at hstep
      case isFalse => cases hstep
      case isTrue hfree =>
        obtain rfl := Option.some.inj hstep
        have hlive := hholds.counted.live it (held_pos hpc List.mem_cons_self)
        rw [hholds.counted.formed it hlive]
        refine ⟨hrunning, chains, hholds.alloc hpc (t.items.key_length_lt it)
          (t.items.value_length_lt it) hfree (fun p => ?_) rfl fun items hcontent hkept => ?_⟩
        · exact count_pair it nit p
        · have hkey : (items.contentAt nit).key = (t.items.contentAt it).key := by rw [hcontent]
          exact hkey.trans (congrArg Content.key (hkept it hlive)).symm
  | copied it new =>
      obtain rfl := Option.some.inj hstep
      have hlive := hholds.counted.live it (held_pos hpc List.mem_cons_self)
      have hne := hholds.counted.laid.ne_zero hlive
      have hlast : it = 0 ∨ t.items.InSlot it → t.last = Function.update t.last
          (t.items.contentAt new).key (some (t.items.contentAt new).value) := by
        rintro (hzero | ⟨i, hi⟩)
        · exact absurd hzero hne
        · have hlinked : t.items.store.Linked chains it := by
            rw [← hi]
            exact ⟨_, HashBucket.holds_slot (by rw [hi]; exact hne)⟩
          rw [hcond.2 ⟨i, hi⟩, ← hholds.values it hlinked, Function.update_eq_self]
      obtain ⟨items, chains', hput, hnext⟩ := hholds.put hpc (.published it new) it t.last rfl rfl
        rfl (fun _ => trivial) hcond.1 (fun _ => ⟨hlive, hok⟩) (fun _ => rfl) hlast
      rw [hput]
      exact ⟨hrunning, chains', hnext⟩
  | published it new =>
      obtain rfl := Option.some.inj hstep
      obtain ⟨hnext, hfailed⟩ := hholds.unref hpc (.releasing it) new
        (count_pair it new) rfl fun _ => trivial
      exact ⟨hfailed.trans hrunning, chains, hnext⟩
  | releasing it =>
      obtain rfl := Option.some.inj hstep
      obtain ⟨hnext, hfailed⟩ := hholds.unref hpc .idle it
        (fun q => (Nat.zero_add _).symm) rfl fun _ => trivial
      exact ⟨hfailed.trans hrunning, chains, hnext⟩

/-- An undisturbed step keeps the invariant. -/
theorem Inv.step {action : UpdateAction} {next : Updates} (hinv : Inv settings hash t)
    (hcond : t.Undisturbed hash action) (hstep : step settings hash t action = some next) :
    Inv settings hash next := by
  cases action with
  | beginSet w key value =>
      obtain ⟨hrunning, chains, hholds⟩ := hinv
      dsimp only [Updates.step] at hstep
      split at hstep
      case isFalse => cases hstep
      case isTrue hguard =>
        obtain ⟨_, hpc, hkey, hvalue⟩ := hguard
        obtain ⟨items, it, hget, hnext⟩ := hholds.beginSet hpc hkey hvalue hcond
        rw [hget] at hstep
        obtain rfl := Option.some.inj hstep
        exact ⟨hrunning, chains, hnext⟩
  | queue w it =>
      obtain ⟨hrunning, chains, hholds⟩ := hinv
      dsimp only [Updates.step] at hstep
      split at hstep
      case isFalse => cases hstep
      case isTrue hguard =>
        obtain ⟨_, hpc, hlive⟩ := hguard
        obtain rfl := Option.some.inj hstep
        exact ⟨hrunning, chains, hholds.queue hpc hlive hcond⟩
  | advance w nit =>
      dsimp only [Updates.step] at hstep
      rw [if_pos hinv.running] at hstep
      obtain ⟨pc, hpc, hadvance⟩ := Option.bind_eq_some_iff.mp hstep
      exact hinv.advance hpc (hcond pc hpc) hadvance

theorem inv_initial (settings : Settings) (hash : List UInt8 → UInt32) (mem : Memory) (log : Log)
    (workers : ℕ) : Inv settings hash (initial mem log workers) := by
  have hidle : ∀ pc ∈ (initial mem log workers).workers, pc = .idle :=
    fun pc hpc => List.eq_of_mem_replicate hpc
  have hheld : (initial mem log workers).held = fun _ => 0 := by
    funext p
    change ((List.replicate workers UpdatePc.idle).map fun pc => pc.held.count p).sum = 0
    rw [List.map_replicate, List.sum_replicate]
    exact Nat.mul_zero workers
  have howners : ∀ p, (initial mem log workers).owners p = 0 := by
    intro p
    refine List.countP_eq_zero.mpr fun pc hpc => ?_
    rw [hidle pc hpc]
    exact Bool.false_ne_true
  have hcounted := ItemStore.counted_initial settings hash mem log
  have hnone : ∀ p, ¬(initial mem log workers).items.store.Linked (fun _ => []) p :=
    fun p hp => hcounted.table.live hp rfl
  refine ⟨rfl, fun _ => [], ?_, fun p hp => absurd hp (hnone p), nofun, fun p => ?_,
    fun p _ => howners p, fun w pc hpc => ?_⟩
  · rw [hheld]
    exact hcounted
  · rw [howners p]
    exact Nat.zero_le 1
  · rw [hidle pc (List.mem_of_getElem? hpc)]
    trivial

/-- Without holders, every item has one reference, and all lookups succeed. -/
theorem Inv.updatesKept (hinv : Inv settings hash t) : UpdatesKept hash t := by
  obtain ⟨hrunning, chains, hholds⟩ := hinv
  refine ⟨hrunning, fun hidle key => ?_⟩
  have hheld : ∀ p, t.held p = 0 := by
    intro p
    have hall : ∀ n ∈ t.workers.map fun pc => pc.held.count p, n = 0 := by
      intro n hn
      obtain ⟨pc, hpc, rfl⟩ := List.mem_map.mp hn
      rw [hidle pc hpc]
      rfl
    exact List.sum_eq_zero hall
  rcases hholds.counted.get_cases key with ⟨p, _, hp, hkey, hget⟩ | ⟨_, hnone, hget⟩
  · have hone := hholds.counted.linked p hp
    rw [hheld p] at hone
    have hlive := hholds.counted.table.live hp
    have hkept := ItemStore.kept_setCount hholds.counted.laid hlive (t.items.refcount p + 1)
      t.items.store.log p hlive
    have hlast := hholds.values p hp
    rw [hkey] at hlast
    refine ⟨_, p, hget (by omega), ?_⟩
    rw [hlast]
    exact ⟨hholds.counted.laid.ne_zero hlive, by rw [hkept, hkey], by rw [hkept]⟩
  · refine ⟨t.items, 0, hget, ?_⟩
    cases hlast : t.last key with
    | none => rfl
    | some value =>
        obtain ⟨p, hp, hkey⟩ := hholds.stored key value hlast
        exact absurd hkey (hnone p hp)

/-- No update is lost in runs whose steps are not disturbed. -/
theorem updatesKept_along (settings : Settings) (hash : List UInt8 → UInt32) (mem : Memory)
    (log : Log) (workers : ℕ) (actions : List UpdateAction)
    (hmeets : Transition.Meets (step settings hash) (Undisturbed hash) (initial mem log workers)
      actions) :
    Transition.Along (step settings hash) (UpdatesKept hash) (initial mem log workers) actions :=
  Transition.along_of_meets (Inv settings hash) (fun _ => Inv.updatesKept)
    (fun _ _ _ => Inv.step) (inv_initial settings hash mem log workers) hmeets

/-- The steps of a SET of a new key. -/
def firstSet (w nit : ℕ) (key value : List UInt8) : List UpdateAction :=
  [.beginSet w key value, .advance w nit, .advance w 0, .advance w 0]

/-- The steps of a SET of a stored key. -/
def laterSet (w : ℕ) (key value : List UInt8) : List UpdateAction :=
  [.beginSet w key value, .advance w 0, .advance w 0]

/-- The cleaner takes an item and copies it. -/
def copyItem (w it nit : ℕ) : List UpdateAction :=
  [.queue w it, .advance w 0, .advance w nit]

/-- The cleaner puts the copy into the table and drops its references. -/
def publishItem (w : ℕ) : List UpdateAction := [.advance w 0, .advance w 0, .advance w 0]

theorem updatesKept_along_movedItem :
    Transition.Along (step pageSettings fun _ => 0) (UpdatesKept fun _ => 0)
      (initial (fun _ => 0) pageLog 2)
      (firstSet 0 64 [1] [7] ++ copyItem 1 64 128 ++ firstSet 0 192 [2] [5] ++ publishItem 1 ++
        laterSet 0 [1] [8]) :=
  updatesKept_along pageSettings (fun _ => 0) (fun _ => 0) pageLog 2 _ (by decide +kernel)

/-- The outcome of a run for a key: whether all workers are idle, the value of the
last SET, and the value that a lookup finds. -/
def outcome (hash : List UInt8 → UInt32) (key : List UInt8) (t : Updates) :
    Bool × Option (List UInt8) × Option (List UInt8) :=
  (t.workers.all (· = .idle), t.last key,
    (t.items.get hash key).map fun found => (found.1.contentAt found.2).value)

/-- A SET that falls between the copy and its publication is lost. -/
theorem not_updatesKept :
    ∃ t, Transition.run (step pageSettings fun _ => 0) (initial (fun _ => 0) pageLog 2)
        (firstSet 0 64 [1] [7] ++ copyItem 1 64 128 ++ laterSet 0 [1] [8] ++ publishItem 1) =
          some t ∧
      ¬UpdatesKept (fun _ => 0) t := by
  have hrun : (Transition.run (step pageSettings fun _ => 0) (initial (fun _ => 0) pageLog 2)
      (firstSet 0 64 [1] [7] ++ copyItem 1 64 128 ++ laterSet 0 [1] [8] ++ publishItem 1)).map
        (outcome (fun _ => 0) [1]) = some (true, some [8], some [7]) := by decide +kernel
  obtain ⟨t, ht, houtcome⟩ := Option.map_eq_some_iff.mp hrun
  obtain ⟨hidle, hrest⟩ := Prod.mk.inj houtcome
  obtain ⟨hlast, hfound⟩ := Prod.mk.inj hrest
  refine ⟨t, ht, fun hkept => ?_⟩
  have hall : ∀ pc ∈ t.workers, pc = .idle :=
    fun pc hpc => of_decide_eq_true (List.all_eq_true.mp hidle pc hpc)
  obtain ⟨items, it, hget, hvalue⟩ := hkept.2 hall [1]
  rw [hlast] at hvalue
  rw [hget] at hfound
  have hwrong := hvalue.2.2.symm.trans (Option.some.inj hfound)
  exact absurd hwrong (by decide)

end Updates

end ArmsTiering.Flexkvs
