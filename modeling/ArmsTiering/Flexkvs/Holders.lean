import ArmsTiering.Core.Counting
import ArmsTiering.Core.Transition
import ArmsTiering.Flexkvs.References
import ArmsTiering.Flexkvs.Request

/-!
# The holders of references

Connections that wait for room in the transmit buffer hold a reference on the item
of their GET, and so does an entry of a cleanup queue.  A connection keeps the
pointer to its item when the request is finished, and drops a reference through it
when it is closed.
-/

namespace ArmsTiering.Flexkvs

inductive Operation
  | get
  | set
  deriving DecidableEq

/-- The part of `struct connection` that references depend on, with the operation of
its last request. -/
structure Client where
  it : ℕ
  reqDone : Bool
  operation : Operation
  deriving DecidableEq

/-- The connection after `calloc` -/
def Client.new : Client := ⟨0, false, .get⟩

/-- The unfinished request of the connection holds a reference on the item. -/
def Client.holds (c : Client) (p : ℕ) : Bool :=
  c.reqDone && c.operation = .get && c.it = p && p ≠ 0

/-- Of a connection that may have been closed. -/
def holdsRef (p : ℕ) (c : Option Client) : Bool := c.any fun c => c.holds p

inductive ClientAction
  | accept
  /-- a request, with `c->tx_len`, and the address that `ialloc_alloc` returns if it
  is called -/
  | get (i : ℕ) (key : List UInt8) (txLen : ℕ)
  | set (i : ℕ) (key value : List UInt8) (txLen nit : ℕ)
  /-- the request that has been waiting is processed again -/
  | resume (i txLen : ℕ)
  | close (i : ℕ)
  /-- `item_tryref` of the thread that fills the cleanup queues -/
  | queue (it : ℕ)
  /-- `clean_log` with an item from the queue -/
  | clean (it nit : ℕ)

/-- The connections of all workers, and the entries of all cleanup queues. -/
structure Clients where
  items : ItemStore
  connections : List (Option Client)
  queued : List ℕ
  /-- an assertion has failed, or a loop does not end -/
  failed : Bool

namespace Clients

section

variable (settings : Settings) (hash : List UInt8 → UInt32)

/-- The response to a GET whose item is known. -/
def respondGet (items : ItemStore) (it txLen : ℕ) : Option (ItemStore × Client) :=
  if maxMsgsize - txLen < getResponseLength items.store.mem it then some (items, ⟨it, true, .get⟩)
  else
    (if it ≠ 0 then items.unref settings it else some items).map fun items =>
      (items, ⟨it, false, .get⟩)

def processGet (items : ItemStore) (key : List UInt8) (txLen : ℕ) : Option (ItemStore × Client) :=
  (items.get hash key).bind fun (items, it) => respondGet settings items it txLen

/-- The response to a SET whose item is known. -/
def respondSet (it txLen : ℕ) : Client :=
  ⟨it, decide (maxMsgsize - txLen < sizeofResponse), .set⟩

/-- The assignments of a SET, and the release of its item. -/
def assign (items : ItemStore) (key value : List UInt8) (nit : ℕ) : Option (ItemStore × ℕ) :=
  (items.get hash key).bind fun (items, it) =>
    if it ≠ 0 then
      ((items.overwrite it (hash key).toNat key value).unref settings it).map fun items =>
        (items, it)
    else
      ((items.alloc nit (hash key).toNat key value).put settings nit 0).bind fun items =>
        (items.unref settings nit).map fun items => (items, nit)

def processSet (items : ItemStore) (key value : List UInt8) (txLen nit : ℕ) :
    Option (ItemStore × Client) :=
  (assign settings hash items key value nit).map fun (items, it) => (items, respondSet it txLen)

/-- `conn_req_process`, the second time -/
def processAgain (items : ItemStore) (c : Client) (txLen : ℕ) : Option (ItemStore × Client) :=
  match c.operation with
  | .get => respondGet settings items c.it txLen
  | .set => some (items, respondSet c.it txLen)

/-- `conn_close` -/
def connClose (items : ItemStore) (c : Client) : Option ItemStore :=
  if c.it ≠ 0 then items.unref settings c.it else some items

/-- The loop body of `clean_log` -/
def cleanItem (items : ItemStore) (it nit : ℕ) : Option ItemStore :=
  let moved :=
    if items.refcount it ≠ 1 then
      let c := items.contentAt it
      ((items.alloc nit c.hv c.key c.value).put settings nit it).bind fun items =>
        items.unref settings nit
    else some items
  moved.bind fun items => items.unref settings it

end

def initial (mem : Memory) (log : Log) : Clients := ⟨.initial mem log, [], [], false⟩

/-- The connection after a request has been processed. -/
def answer (t : Clients) (i : ℕ) : Option (ItemStore × Client) → Clients
  | some (items, c) => { t with items := items, connections := t.connections.set i (some c) }
  | none => { t with failed := true }

/-- The item of a SET and the copy of an item fit where `ialloc_alloc` puts them. -/
def Room (settings : Settings) (items : ItemStore) (nit : ℕ) (key value : List UInt8) : Prop :=
  items.Free settings nit (sizeofItem + value.length + key.length)

instance (settings : Settings) (items : ItemStore) (nit : ℕ) (key value : List UInt8) :
    Decidable (Room settings items nit key value) :=
  inferInstanceAs (Decidable (items.Free _ _ _))

def step (settings : Settings) (hash : List UInt8 → UInt32) (t : Clients) :
    ClientAction → Option Clients
  | .accept =>
      if t.failed = false then some { t with connections := t.connections ++ [some .new] } else none
  | .get i key txLen =>
      t.connections[i]?.join.bind fun c =>
        if t.failed = false ∧ c.reqDone = false then
          some (t.answer i (processGet settings hash t.items key txLen))
        else none
  | .set i key value txLen nit =>
      t.connections[i]?.join.bind fun c =>
        if t.failed = false ∧ c.reqDone = false ∧ key.length < 65536 ∧ value.length < 2 ^ 32 ∧
            (t.items.lookup hash key = 0 → Room settings t.items nit key value) then
          some (t.answer i (processSet settings hash t.items key value txLen nit))
        else none
  | .resume i txLen =>
      t.connections[i]?.join.bind fun c =>
        if t.failed = false ∧ c.reqDone = true then
          some (t.answer i (processAgain settings t.items c txLen))
        else none
  | .close i =>
      t.connections[i]?.join.bind fun c =>
        if t.failed = false then
          match connClose settings t.items c with
          | some items => some { t with items := items, connections := t.connections.set i none }
          | none => some { t with failed := true }
        else none
  | .queue it =>
      if t.failed = false ∧ t.items.extent it ≠ 0 then
        some { t with items := t.items.tryref it, queued := it :: t.queued }
      else none
  | .clean it nit =>
      if t.failed = false ∧ it ∈ t.queued ∧ (t.items.refcount it ≠ 1 →
          Room settings t.items nit (t.items.contentAt it).key (t.items.contentAt it).value) then
        match cleanItem settings t.items it nit with
        | some items => some { t with items := items, queued := t.queued.erase it }
        | none => some { t with failed := true }
      else none

/-- The connections whose unfinished request holds the item, and its entries in the
cleanup queues. -/
def held (t : Clients) (p : ℕ) : ℕ := t.connections.countP (holdsRef p) + t.queued.count p

/-- No assertion fails, and the references of an item are that of the table and those
of its holders. -/
structure RefcountsExact (hash : List UInt8 → UInt32) (t : Clients) : Prop where
  running : t.failed = false
  counts : ∃ chains, TableInv hash t.items.store t.items.extent chains ∧
    (∀ p, t.items.store.Linked chains p → t.items.extent p ≠ 0 ∧
      t.items.refcount p = 1 + t.held p) ∧
    ∀ p, t.items.extent p ≠ 0 → ¬t.items.store.Linked chains p → t.items.refcount p = t.held p

/-- A connection is closed while its GET waits, or with no item; a SET has an item
that is long enough for its value; no reference count is full when a reference is
taken. -/
def Settled (hash : List UInt8 → UInt32) (t : Clients) : ClientAction → Prop
  | .get _ key _ =>
      t.items.lookup hash key ≠ 0 → t.items.refcount (t.items.lookup hash key) ≠ 65535
  | .set _ key value _ _ =>
      t.items.lookup hash key ≠ 0 → t.items.refcount (t.items.lookup hash key) ≠ 65535 ∧
        sizeofItem + value.length + key.length ≤ t.items.extent (t.items.lookup hash key)
  | .close i => ∀ c ∈ t.connections[i]?.join, c.it ≠ 0 → c.reqDone = true ∧ c.operation = .get
  | .queue it => t.items.refcount it ≠ 65535
  | _ => True

instance (hash : List UInt8 → UInt32) (t : Clients) (action : ClientAction) :
    Decidable (t.Settled hash action) := by
  cases action <;> unfold Settled <;> infer_instance

/-! ## What the operations do to the references -/

variable {settings : Settings} {hash : List UInt8 → UInt32} {items : ItemStore}
  {chains : ℕ → List ℕ} {held : ℕ → ℕ} {key value : List UInt8} {it nit : ℕ}

/-- One reference on `it`, if that is not `NULL`. -/
def refOn (it p : ℕ) : ℕ := Counting.one (decide (p = it ∧ p ≠ 0))

theorem refOn_zero (p : ℕ) : refOn 0 p = 0 := by
  have hfalse : ¬(p = 0 ∧ p ≠ 0) := fun hp => hp.2 hp.1
  rw [refOn, decide_eq_false hfalse, Counting.one_false]

theorem refOn_self (hit : it ≠ 0) : refOn it it = 1 := by
  rw [refOn, decide_eq_true ⟨rfl, hit⟩, Counting.one_true]

theorem refOn_of_ne {p : ℕ} (hne : p ≠ it) : refOn it p = 0 := by
  have hfalse : ¬(p = it ∧ p ≠ 0) := fun hp => hne hp.1
  rw [refOn, decide_eq_false hfalse, Counting.one_false]

theorem update_add_eq (held : ℕ → ℕ) (hit : it ≠ 0) :
    Function.update held it (held it + 1) = fun p => held p + refOn it p := by
  funext p
  rcases eq_or_ne p it with rfl | hne
  · rw [Function.update_self, refOn_self hit]
  · rw [Function.update_of_ne hne, refOn_of_ne hne, Nat.add_zero]

theorem update_sub_eq (held : ℕ → ℕ) (hit : it ≠ 0) :
    Function.update held it (held it - 1) = fun p => held p - refOn it p := by
  funext p
  rcases eq_or_ne p it with rfl | hne
  · rw [Function.update_self, refOn_self hit]
  · rw [Function.update_of_ne hne, refOn_of_ne hne, Nat.sub_zero]

/-- The unfinished GET of a connection is all it holds a reference for. -/
theorem one_holdsRef (c : Client) (p : ℕ) : Counting.one (holdsRef p (some c)) =
    if c.reqDone = true ∧ c.operation = .get then refOn c.it p else 0 := by
  unfold holdsRef Client.holds refOn
  rw [Option.any_some]
  split
  · rename_i hwaits
    have hit : decide (c.it = p) = decide (p = c.it) := decide_eq_decide.mpr eq_comm
    rw [hwaits.1, hwaits.2, hit, Bool.decide_and]
    rfl
  · rename_i hwaits
    cases hdone : c.reqDone with
    | false => rfl
    | true =>
        have hset : c.operation ≠ .get := fun hget => hwaits ⟨hdone, hget⟩
        rw [decide_eq_false hset]
        rfl

/-- Dropping a reference, if there is one to drop. -/
theorem unref_spec (hcounted : ItemStore.Counted settings hash items chains held)
    (hheld : refOn it it ≤ held it) :
    ∃ items', (if it ≠ 0 then items.unref settings it else some items) = some items' ∧
      ItemStore.Counted settings hash items' chains fun p => held p - refOn it p := by
  by_cases hit : it = 0
  · subst hit
    refine ⟨items, rfl, ?_⟩
    simp only [refOn_zero, Nat.sub_zero]
    exact hcounted
  · rw [refOn_self hit] at hheld
    obtain ⟨store, hunref, _, _, hnext⟩ := hcounted.unref (p := it) (by omega)
    rw [if_pos hit]
    rw [update_sub_eq held hit] at hnext
    exact ⟨_, hunref, hnext⟩

/-- The response to a GET drops its reference, or the connection keeps it. -/
theorem respondGet_spec (hcounted : ItemStore.Counted settings hash items chains held)
    (it txLen : ℕ) (hheld : refOn it it ≤ held it) :
    ∃ items' c, respondGet settings items it txLen = some (items', c) ∧
      ItemStore.Counted settings hash items' chains
        fun p => held p - refOn it p + Counting.one (holdsRef p (some c)) := by
  have hle : ∀ p, refOn it p ≤ held p := by
    intro p
    rcases eq_or_ne p it with rfl | hne
    · exact hheld
    · rw [refOn_of_ne hne]
      exact Nat.zero_le _
  unfold respondGet
  split
  · refine ⟨items, _, rfl, ?_⟩
    have hsame : (fun p => held p - refOn it p +
        Counting.one (holdsRef p (some ⟨it, true, .get⟩))) = held := by
      funext p
      rw [one_holdsRef, if_pos ⟨rfl, rfl⟩]
      exact Nat.sub_add_cancel (hle p)
    rw [hsame]
    exact hcounted
  · obtain ⟨items', hunref, hnext⟩ := unref_spec hcounted hheld
    rw [hunref]
    refine ⟨items', _, rfl, ?_⟩
    have hnone : ∀ p, Counting.one (holdsRef p (some ⟨it, false, .get⟩)) = 0 := by
      intro p
      rw [one_holdsRef]
      exact if_neg fun hwaits => Bool.false_ne_true hwaits.1
    simp only [hnone, Nat.add_zero]
    exact hnext

/-- A new item is put into the table and released. -/
theorem insertNew_spec (hcounted : ItemStore.Counted settings hash items chains held)
    (hroom : Room settings items nit key value) (hkey : key.length < 65536)
    (hvalue : value.length < 2 ^ 32) (cas : ℕ)
    (hcas : cas ≠ 0 → items.extent cas ≠ 0 ∧ (items.contentAt cas).key = key) :
    ∃ items' chains',
      (((items.alloc nit (hash key).toNat key value).put settings nit cas).bind fun items =>
        items.unref settings nit) = some items' ∧
      ItemStore.Counted settings hash items' chains' held := by
  obtain ⟨hzero, hfilled, hcounted₁⟩ := hcounted.alloc hroom hkey hvalue
  have hnone : held nit = 0 := by
    by_contra hne
    exact hcounted.live nit hne hzero
  generalize items.alloc nit (hash key).toNat key value = items₁ at *
  have habsent : ¬items₁.store.Linked chains nit := by
    rw [hfilled.linked]
    exact fun hlinked => hcounted.table.live hlinked hzero
  have hone : Function.update held nit 1 nit = 1 := Function.update_self ..
  have hlive : items₁.extent nit ≠ 0 := hcounted₁.live nit (by rw [hone]; exact Nat.one_ne_zero)
  have hcount : items₁.refcount nit = 1 := (hcounted₁.unlinked nit hlive habsent).trans hone
  obtain ⟨store, chains', hput, hkept, hcounted₂, _⟩ := hcounted₁.put
    (by rw [hone]; exact Nat.one_ne_zero) habsent (by omega) cas fun hne => by
      obtain ⟨hcasLive, hcasKey⟩ := hcas hne
      have hother : cas ≠ nit := by
        rintro rfl
        exact hcasLive hzero
      rw [hfilled.content, hfilled.others cas hcasLive hother, hcounted.formed cas hcasLive,
        hcasKey]
  obtain ⟨store', hunref, hkept', _, hcounted₃⟩ := hcounted₂.unref (p := nit)
    (by rw [hone]; exact Nat.one_ne_zero)
  rw [hone, Function.update_idem, Nat.sub_self, ← hnone, Function.update_eq_self] at hcounted₃
  refine ⟨_, chains', ?_, hcounted₃⟩
  rw [hput]
  exact hunref

/-- A SET leaves no reference behind. -/
theorem assign_spec (hcounted : ItemStore.Counted settings hash items chains held)
    (hkey : key.length < 65536) (hvalue : value.length < 2 ^ 32)
    (hroom : items.lookup hash key = 0 → Room settings items nit key value)
    (hfits : items.lookup hash key ≠ 0 → items.refcount (items.lookup hash key) ≠ 65535 ∧
      sizeofItem + value.length + key.length ≤ items.extent (items.lookup hash key)) :
    ∃ items' it chains', assign settings hash items key value nit = some (items', it) ∧
      ItemStore.Counted settings hash items' chains' held := by
  unfold assign
  rcases hcounted.get_cases key with ⟨p, hlookup, hp, hpKey, hget⟩ | ⟨hlookup, _, hget⟩
  · have hlive := hcounted.table.live hp
    have hne := hcounted.laid.ne_zero hlive
    have hbound : items.refcount p < 65536 := itemRefcount_lt items.store.mem p
    rw [hlookup] at hfits
    obtain ⟨hfull, hfits⟩ := hfits hne
    have hlt : items.refcount p < 65535 := by omega
    have hcounted₁ := hcounted.addRef hlive hlt
    have hkept := ItemStore.kept_setCount hcounted.laid hlive (items.refcount p + 1)
      items.store.log p hlive
    rw [hget hlt, Option.bind_some]
    dsimp only
    rw [if_pos hne]
    have hfits₁ : sizeofItem + value.length + key.length ≤
        (items.setCount p (items.refcount p + 1) items.store.log).extent p := hfits
    generalize items.setCount p (items.refcount p + 1) items.store.log = items₁ at *
    have hone : Function.update held p (held p + 1) p = held p + 1 := Function.update_self ..
    have hlive₁ := hcounted₁.live p (by rw [hone]; exact Nat.succ_ne_zero _)
    have hkey₁ : (items₁.contentAt p).key = key := by rw [hkept, hpKey]
    obtain ⟨_, hcounted₂⟩ := hcounted₁.overwrite hlive₁ hkey₁ hfits₁ hvalue
    obtain ⟨store, hunref, _, _, hcounted₃⟩ := hcounted₂.unref (p := p)
      (by rw [hone]; exact Nat.succ_ne_zero _)
    rw [hone, Function.update_idem, Nat.add_sub_cancel, Function.update_eq_self] at hcounted₃
    rw [hunref]
    exact ⟨_, p, chains, rfl, hcounted₃⟩
  · obtain ⟨items', chains', hinsert, hnext⟩ := insertNew_spec hcounted (hroom hlookup) hkey hvalue
      0 (absurd rfl)
    rw [hget, Option.bind_some]
    dsimp only
    rw [if_neg (not_not.mpr rfl)]
    obtain ⟨items₂, hput, hunref⟩ := Option.bind_eq_some_iff.mp hinsert
    rw [hput, Option.bind_some, hunref]
    exact ⟨items', nit, chains', rfl, hnext⟩

/-- The cleaner drops the reference of its queue. -/
theorem cleanItem_spec (hcounted : ItemStore.Counted settings hash items chains held)
    (hheld : held it ≠ 0) (hroom : items.refcount it ≠ 1 →
      Room settings items nit (items.contentAt it).key (items.contentAt it).value) :
    ∃ items' chains', cleanItem settings items it nit = some items' ∧
      ItemStore.Counted settings hash items' chains'
        (Function.update held it (held it - 1)) := by
  have hlive := hcounted.live it hheld
  have hmoved : ∃ items' chains', (if items.refcount it ≠ 1 then
        (((items.alloc nit (items.contentAt it).hv (items.contentAt it).key
          (items.contentAt it).value).put settings nit it).bind fun items =>
            items.unref settings nit)
      else some items) = some items' ∧
      ItemStore.Counted settings hash items' chains' held := by
    split
    · rename_i hne
      rw [hcounted.formed it hlive]
      exact insertNew_spec hcounted (hroom hne) (items.key_length_lt it)
        (items.value_length_lt it) it fun _ => ⟨hlive, rfl⟩
    · exact ⟨items, chains, rfl, hcounted⟩
  obtain ⟨items', chains', hsome, hcounted'⟩ := hmoved
  obtain ⟨store, hunref, _, _, hnext⟩ := hcounted'.unref hheld
  refine ⟨_, chains', ?_, hnext⟩
  unfold cleanItem
  dsimp only
  rw [hsome]
  exact hunref

/-! ## Runs -/

structure Inv (settings : Settings) (hash : List UInt8 → UInt32) (t : Clients) : Prop where
  running : t.failed = false
  counted : ∃ chains, ItemStore.Counted settings hash t.items chains t.held

variable {t next : Clients} {i : ℕ} {c : Client}

theorem inv_initial (settings : Settings) (hash : List UInt8 → UInt32) (mem : Memory) (log : Log) :
    Inv settings hash (initial mem log) :=
  ⟨rfl, _, ItemStore.counted_initial settings hash mem log⟩

/-- The holders after a connection has changed. -/
theorem held_connection (hc : t.connections[i]? = some (some c)) (items : ItemStore)
    (new : Option Client) (p : ℕ) :
    ({ t with items := items, connections := t.connections.set i new } : Clients).held p +
        Counting.one (holdsRef p (some c)) =
      t.held p + Counting.one (holdsRef p new) := by
  have hset := Counting.countP_set (holdsRef p) hc new
  unfold held
  dsimp only
  omega

theorem refOn_le (hc : t.connections[i]? = some (some c))
    (hwaits : c.reqDone = true ∧ c.operation = .get) : refOn c.it c.it ≤ t.held c.it := by
  have hheld := held_connection hc t.items none c.it
  rw [one_holdsRef, if_pos hwaits] at hheld
  have hnone : Counting.one (holdsRef c.it none) = 0 := rfl
  omega

/-- A connection answers a request. -/
theorem Inv.answer {items : ItemStore} {chains : ℕ → List ℕ} {held : ℕ → ℕ} {c' : Client}
    (hinv : Inv settings hash t) (hc : t.connections[i]? = some (some c))
    (hcounted : ItemStore.Counted settings hash items chains held)
    (hheld : ∀ p, held p + Counting.one (holdsRef p (some c)) =
      t.held p + Counting.one (holdsRef p (some c'))) :
    Inv settings hash (t.answer i (some (items, c'))) := by
  refine ⟨hinv.running, chains, ?_⟩
  have hsame : (t.answer i (some (items, c'))).held = held := by
    funext p
    have hset := held_connection hc items (some c') p
    have hp := hheld p
    change ({ t with items := items, connections := t.connections.set i (some c') } :
      Clients).held p = held p
    omega
  rw [hsame]
  exact hcounted

theorem one_holdsRef_idle (hidle : c.reqDone = false) (p : ℕ) :
    Counting.one (holdsRef p (some c)) = 0 := by
  rw [one_holdsRef, if_neg]
  rw [hidle]
  exact fun hwaits => Bool.false_ne_true hwaits.1

theorem one_holdsRef_set (it txLen p : ℕ) :
    Counting.one (holdsRef p (some (respondSet it txLen))) = 0 := by
  rw [one_holdsRef, if_neg]
  exact fun hwaits => nomatch hwaits.2

theorem Inv.get {txLen : ℕ} (hinv : Inv settings hash t)
    (hc : t.connections[i]? = some (some c)) (hidle : c.reqDone = false)
    (hfull : t.items.lookup hash key ≠ 0 →
      t.items.refcount (t.items.lookup hash key) ≠ 65535) :
    Inv settings hash (t.answer i (processGet settings hash t.items key txLen)) := by
  obtain ⟨chains, hcounted⟩ := hinv.counted
  unfold processGet
  rcases hcounted.get_cases key with ⟨p, hlookup, hp, _, hget⟩ | ⟨_, _, hget⟩
  · have hlive := hcounted.table.live hp
    have hne := hcounted.laid.ne_zero hlive
    have hbound : t.items.refcount p < 65536 := itemRefcount_lt t.items.store.mem p
    rw [hlookup] at hfull
    have hroom := hfull hne
    have hlt : t.items.refcount p < 65535 := by omega
    have hcounted' := hcounted.addRef hlive hlt
    rw [update_add_eq t.held hne] at hcounted'
    obtain ⟨items, c', hrespond, hnext⟩ := respondGet_spec hcounted' p txLen
      (Nat.le_add_left (refOn p p) (t.held p))
    rw [hget hlt, Option.bind_some]
    dsimp only
    rw [hrespond]
    refine hinv.answer hc hnext fun q => ?_
    rw [one_holdsRef_idle hidle]
    omega
  · obtain ⟨items, c', hrespond, hnext⟩ := respondGet_spec hcounted 0 txLen
      (by rw [refOn_zero]; exact Nat.zero_le _)
    rw [hget, Option.bind_some]
    dsimp only
    rw [hrespond]
    refine hinv.answer hc hnext fun q => ?_
    rw [one_holdsRef_idle hidle, refOn_zero]
    omega

theorem Inv.set {txLen : ℕ} (hinv : Inv settings hash t)
    (hc : t.connections[i]? = some (some c)) (hidle : c.reqDone = false)
    (hkey : key.length < 65536) (hvalue : value.length < 2 ^ 32)
    (hroom : t.items.lookup hash key = 0 → Room settings t.items nit key value)
    (hfits : t.items.lookup hash key ≠ 0 → t.items.refcount (t.items.lookup hash key) ≠ 65535 ∧
      sizeofItem + value.length + key.length ≤ t.items.extent (t.items.lookup hash key)) :
    Inv settings hash (t.answer i (processSet settings hash t.items key value txLen nit)) := by
  obtain ⟨chains, hcounted⟩ := hinv.counted
  obtain ⟨items, it, chains', hassign, hnext⟩ := assign_spec hcounted hkey hvalue hroom hfits
  unfold processSet
  rw [hassign, Option.map_some]
  refine hinv.answer hc hnext fun p => ?_
  rw [one_holdsRef_idle hidle, one_holdsRef_set]

theorem Inv.resume {txLen : ℕ} (hinv : Inv settings hash t)
    (hc : t.connections[i]? = some (some c)) (hdone : c.reqDone = true) :
    Inv settings hash (t.answer i (processAgain settings t.items c txLen)) := by
  obtain ⟨chains, hcounted⟩ := hinv.counted
  unfold processAgain
  cases hoperation : c.operation with
  | get =>
      have hwaits := And.intro hdone hoperation
      have hle := refOn_le hc hwaits
      obtain ⟨items, c', hrespond, hnext⟩ := respondGet_spec hcounted c.it txLen hle
      dsimp only
      rw [hrespond]
      refine hinv.answer hc hnext fun p => ?_
      have hrefs : refOn c.it p ≤ t.held p := by
        rcases eq_or_ne p c.it with rfl | hne
        · exact hle
        · rw [refOn_of_ne hne]
          exact Nat.zero_le _
      rw [one_holdsRef c, if_pos hwaits]
      omega
  | set =>
      refine hinv.answer hc hcounted fun p => ?_
      rw [one_holdsRef_set, one_holdsRef, if_neg]
      exact fun hwaits => nomatch hoperation.symm.trans hwaits.2

theorem Inv.close (hinv : Inv settings hash t) (hc : t.connections[i]? = some (some c))
    (hwaits : c.it ≠ 0 → c.reqDone = true ∧ c.operation = .get) :
    ∃ items, connClose settings t.items c = some items ∧
      Inv settings hash { t with items := items, connections := t.connections.set i none } := by
  obtain ⟨chains, hcounted⟩ := hinv.counted
  have hnone : ∀ p, Counting.one (holdsRef p none) = 0 := fun p => rfl
  have hholds : ∀ p, Counting.one (holdsRef p (some c)) = refOn c.it p := by
    intro p
    rw [one_holdsRef]
    by_cases hit : c.it = 0
    · rw [hit, refOn_zero, ite_self]
    · rw [if_pos (hwaits hit)]
  have hle : refOn c.it c.it ≤ t.held c.it := by
    have hset := held_connection hc t.items none c.it
    rw [hholds, hnone] at hset
    omega
  obtain ⟨items, hunref, hnext⟩ := unref_spec hcounted hle
  refine ⟨items, hunref, hinv.running, chains, ?_⟩
  have hsame : ({ t with items := items, connections := t.connections.set i none } :
      Clients).held = fun p => t.held p - refOn c.it p := by
    funext p
    have hset := held_connection hc items none p
    rw [hholds, hnone] at hset
    omega
  rw [hsame]
  exact hnext

theorem Inv.accept (hinv : Inv settings hash t) :
    Inv settings hash { t with connections := t.connections ++ [some .new] } := by
  obtain ⟨chains, hcounted⟩ := hinv.counted
  refine ⟨hinv.running, chains, ?_⟩
  have hsame : ({ t with connections := t.connections ++ [some .new] } : Clients).held =
      t.held := by
    funext p
    unfold held
    dsimp only
    rw [Counting.countP_append_singleton, one_holdsRef_idle rfl, Nat.add_zero]
  rw [hsame]
  exact hcounted

theorem Inv.queue (hinv : Inv settings hash t) (hlive : t.items.extent it ≠ 0)
    (hfull : t.items.refcount it ≠ 65535) :
    Inv settings hash { t with items := t.items.tryref it, queued := it :: t.queued } := by
  obtain ⟨chains, hcounted⟩ := hinv.counted
  have hbound : t.items.refcount it < 65536 := itemRefcount_lt t.items.store.mem it
  refine ⟨hinv.running, chains, ?_⟩
  have hsame : ({ t with items := t.items.tryref it, queued := it :: t.queued } :
      Clients).held = Function.update t.held it (t.held it + 1) := by
    funext p
    unfold held
    dsimp only
    rcases eq_or_ne p it with rfl | hne
    · rw [Function.update_self, List.count_cons_self, Nat.add_assoc]
    · rw [Function.update_of_ne hne, List.count_cons_of_ne hne.symm]
  rw [hsame, hcounted.tryref_eq hlive]
  exact hcounted.addRef hlive (by omega)

theorem Inv.clean (hinv : Inv settings hash t) (hqueued : it ∈ t.queued)
    (hroom : t.items.refcount it ≠ 1 →
      Room settings t.items nit (t.items.contentAt it).key (t.items.contentAt it).value) :
    ∃ items, cleanItem settings t.items it nit = some items ∧
      Inv settings hash { t with items := items, queued := t.queued.erase it } := by
  obtain ⟨chains, hcounted⟩ := hinv.counted
  have hpos := List.count_pos_iff.mpr hqueued
  have hheld : t.held it ≠ 0 := by
    unfold held
    omega
  obtain ⟨items, chains', hclean, hnext⟩ := cleanItem_spec hcounted hheld hroom
  refine ⟨items, hclean, hinv.running, chains', ?_⟩
  have hsame : ({ t with items := items, queued := t.queued.erase it } : Clients).held =
      Function.update t.held it (t.held it - 1) := by
    funext p
    unfold held
    dsimp only
    rcases eq_or_ne p it with rfl | hne
    · rw [Function.update_self, List.count_erase_self]
      omega
    · rw [Function.update_of_ne hne, List.count_erase_of_ne hne]
  rw [hsame]
  exact hnext

/-- A settled step keeps the invariant. -/
theorem Inv.step {action : ClientAction} (hinv : Inv settings hash t)
    (hsettled : t.Settled hash action) (hstep : step settings hash t action = some next) :
    Inv settings hash next := by
  have hopen : ∀ {i : ℕ} {c : Client}, t.connections[i]?.join = some c →
      t.connections[i]? = some (some c) := Option.join_eq_some_iff.mp
  cases action with
  | accept =>
      dsimp only [Clients.step] at hstep
      rw [if_pos hinv.running] at hstep
      obtain rfl := Option.some.inj hstep
      exact hinv.accept
  | get i key txLen =>
      obtain ⟨c, hc, hrest⟩ := Option.bind_eq_some_iff.mp hstep
      split at hrest
      case isFalse => cases hrest
      case isTrue hguard =>
        obtain rfl := Option.some.inj hrest
        exact hinv.get (hopen hc) hguard.2 hsettled
  | set i key value txLen nit =>
      obtain ⟨c, hc, hrest⟩ := Option.bind_eq_some_iff.mp hstep
      split at hrest
      case isFalse => cases hrest
      case isTrue hguard =>
        obtain ⟨_, hidle, hkey, hvalue, hroom⟩ := hguard
        obtain rfl := Option.some.inj hrest
        exact hinv.set (hopen hc) hidle hkey hvalue hroom hsettled
  | resume i txLen =>
      obtain ⟨c, hc, hrest⟩ := Option.bind_eq_some_iff.mp hstep
      split at hrest
      case isFalse => cases hrest
      case isTrue hguard =>
        obtain rfl := Option.some.inj hrest
        exact hinv.resume (hopen hc) hguard.2
  | close i =>
      obtain ⟨c, hc, hrest⟩ := Option.bind_eq_some_iff.mp hstep
      obtain ⟨items, hclose, hnext⟩ := hinv.close (hopen hc) (hsettled c hc)
      rw [if_pos hinv.running, hclose] at hrest
      obtain rfl := Option.some.inj hrest
      exact hnext
  | queue it =>
      dsimp only [Clients.step] at hstep
      split at hstep
      case isFalse => cases hstep
      case isTrue hguard =>
        obtain rfl := Option.some.inj hstep
        exact hinv.queue hguard.2 hsettled
  | clean it nit =>
      dsimp only [Clients.step] at hstep
      split at hstep
      case isFalse => cases hstep
      case isTrue hguard =>
        obtain ⟨items, hclean, hnext⟩ := hinv.clean hguard.2.1 hguard.2.2
        rw [hclean] at hstep
        obtain rfl := Option.some.inj hstep
        exact hnext

theorem Inv.refcountsExact (hinv : Inv settings hash t) : RefcountsExact hash t := by
  obtain ⟨hrunning, chains, hcounted⟩ := hinv
  refine ⟨hrunning, chains, hcounted.table, fun p hp => ⟨hcounted.table.live hp, ?_⟩,
    hcounted.unlinked⟩
  rw [hcounted.linked p hp, Nat.add_comm]

/-- The counts are exact in runs of settled steps. -/
theorem refcountsExact_along (settings : Settings) (hash : List UInt8 → UInt32) (mem : Memory)
    (log : Log) (actions : List ClientAction)
    (hmeets : Transition.Meets (step settings hash) (Settled hash) (initial mem log) actions) :
    Transition.Along (step settings hash) (RefcountsExact hash) (initial mem log) actions :=
  Transition.along_of_meets (Inv settings hash) (fun _ => Inv.refcountsExact)
    (fun _ _ _ => Inv.step) (inv_initial settings hash mem log) hmeets

/-- A GET waits while its item is moved, and its connection is closed. -/
theorem refcountsExact_along_movedItem :
    Transition.Along (step pageSettings fun _ => 0) (RefcountsExact fun _ => 0)
      (initial (fun _ => 0) pageLog)
      [.accept, .accept, .set 0 [1] [7] 0 64, .get 1 [1] maxMsgsize, .queue 64, .clean 64 128,
        .get 0 [1] 0, .set 0 [1] [8] 0 0, .close 1, .get 0 [2] 0, .close 0] :=
  refcountsExact_along pageSettings (fun _ => 0) (fun _ => 0) pageLog _ (by decide +kernel)

/-- Closing a connection after its SET drops the reference of the table, and the next
lookup finds an item without references. -/
theorem not_refcountsExact :
    ∃ t, Transition.run (step pageSettings fun _ => 0) (initial (fun _ => 0) pageLog)
        [.accept, .set 0 [1] [7] 0 64, .close 0, .accept, .get 1 [1] 0] = some t ∧
      ¬RefcountsExact (fun _ => 0) t := by
  have hrun : (Transition.run (step pageSettings fun _ => 0) (initial (fun _ => 0) pageLog)
      [.accept, .set 0 [1] [7] 0 64, .close 0, .accept, .get 1 [1] 0]).map Clients.failed =
        some true := by decide +kernel
  obtain ⟨t, ht, hfailed⟩ := Option.map_eq_some_iff.mp hrun
  refine ⟨t, ht, fun hexact => ?_⟩
  exact Bool.false_ne_true (hexact.running.symm.trans hfailed)

end Clients

end ArmsTiering.Flexkvs
