import ArmsTiering.Flexkvs.Serving

/-!
# Running out of memory

A SET of a new key for which there is no room is to be answered with an error.
The code that writes the response is there, but the item is used before.
-/

namespace ArmsTiering.Flexkvs

/-- The items that the table leads to. -/
inductive Store.InTable (s : Store) : ℕ → Prop
  | slot (j : ℕ) (i : Fin bucketNitems) (hne : (s.buckets j).items i ≠ 0) :
      InTable s ((s.buckets j).items i)
  | next (it : ℕ) (hit : InTable s it) (hne : itemNext s.mem it ≠ 0) :
      InTable s (itemNext s.mem it)

/-- The table, the stored values and their reference counts are unchanged. -/
structure Store.LeftAlone (s s' : Store) : Prop where
  buckets : s'.buckets = s.buckets
  next : ∀ it, s.InTable it → itemNext s'.mem it = itemNext s.mem it
  content : ∀ it, s.InTable it → contentAt s'.mem it = contentAt s.mem it
  refcount : ∀ it, s.InTable it → itemRefcount s'.mem it = itemRefcount s.mem it

section

variable (settings : Settings) (hash : List UInt8 → UInt32)

/-- What `ialloc_alloc` returns for a SET, if the key is new. -/
def setAllocation (s : Store) (ia : ItemAllocator) (key value : List UInt8) (mapped : Bool) :
    Option ℕ :=
  (hashtGet s key (hash key).toNat).bind fun (s, it) =>
    if it = 0 then
      (iallocAlloc settings s.mem s.log ia (sizeofItem + key.length + value.length) false
        mapped).map fun allocated => allocated.2.2.2
    else none

/-- The request is a SET that has not been begun, and `ialloc_alloc` returns `NULL`
for it. -/
def SetWithoutRoom (s : Store) (ia : ItemAllocator) (rx : Memory) (c : Connection)
    (mapped : Bool) : Prop :=
  (requestHeader rx c.rxOff).command = some .set ∧ c.reqDone = false ∧
    setAllocation settings hash s ia
      ((Command.set.key c.rxOff (requestHeader rx c.rxOff)).read rx)
      ((Command.set.value c.rxOff (requestHeader rx c.rxOff)).read rx) mapped = some 0

instance (s : Store) (ia : ItemAllocator) (rx : Memory) (c : Connection) (mapped : Bool) :
    Decidable (SetWithoutRoom settings hash s ia rx c mapped) := by
  unfold SetWithoutRoom; infer_instance

/-- The request is answered with the error, and the store is left alone. -/
def ReportsEnomem (s : Store) (ia : ItemAllocator) (rx : Memory) (c : Connection)
    (mapped : Bool) : Prop :=
  ∃ s' ia' c' response,
    handle settings hash s ia rx c mapped = some (s', ia', c', .answered response) ∧
      response.status = statusEnomem ∧ s.LeftAlone s'

end

variable {settings : Settings} {hash : List UInt8 → UInt32} {s : Store} {ia : ItemAllocator}
  {rx : Memory} {c : Connection} {key value : List UInt8} {mapped : Bool}

/-- The item is written to whether there is one or not. -/
theorem beginSet_none (hnull : setAllocation settings hash s ia key value mapped = some 0) :
    beginSet settings hash s ia key value mapped = none := by
  obtain ⟨⟨s₁, it⟩, hget, hrest⟩ := Option.bind_eq_some_iff.mp hnull
  obtain ⟨hzero, hrest⟩ := Option.ite_none_right_eq_some.mp hrest
  obtain ⟨⟨m, log, ia', it'⟩, halloc, hit⟩ := Option.map_eq_some_iff.mp hrest
  obtain rfl : it' = 0 := hit
  have hnew : setNew settings hash s₁ ia key value mapped = none := by
    rw [setNew, halloc, Option.bind_some]
    exact if_pos rfl
  rw [beginSet, hget, Option.bind_some]
  dsimp only
  rw [if_pos hzero, hnew]
  rfl

/-- A SET that gets through has an item. -/
theorem beginSet_ne_zero {s' : Store} {ia' : ItemAllocator} {it : ℕ}
    (hbegin : beginSet settings hash s ia key value mapped = some (s', ia', it)) : it ≠ 0 := by
  obtain ⟨⟨s₁, found⟩, _, hrest⟩ := Option.bind_eq_some_iff.mp hbegin
  obtain ⟨⟨s₂, ia₂, it₂⟩, hfilled, hrest⟩ := Option.bind_eq_some_iff.mp hrest
  obtain ⟨s₃, _, hpair⟩ := Option.map_eq_some_iff.mp hrest
  cases hpair
  dsimp only at hfilled
  split at hfilled
  · obtain ⟨allocated, _, hput⟩ := Option.bind_eq_some_iff.mp hfilled
    dsimp only at hput
    split at hput
    · cases hput
    · rename_i hne
      obtain ⟨s₄, _, hpair⟩ := Option.map_eq_some_iff.mp hput
      cases hpair
      exact hne
  · rename_i hne
    cases hfilled
    exact hne

/-- So the error is no answer to a SET that is begun with it. -/
theorem processSet_success {header : RequestHeader} {s' : Store} {ia' : ItemAllocator}
    {c' : Connection} {response : Response} (hdone : c.reqDone = false)
    (hprocess : processSet settings hash s ia c header key value mapped =
      some (s', ia', c', .answered response)) : response.status = statusSuccess := by
  rw [processSet, hdone] at hprocess
  dsimp only at hprocess
  rw [if_neg Bool.false_ne_true] at hprocess
  obtain ⟨⟨s₁, ia₁, it⟩, hbegin, hpair⟩ := Option.map_eq_some_iff.mp hprocess
  dsimp only at hpair
  split at hpair
  · cases hpair
  · cases hpair
    exact if_neg (beginSet_ne_zero hbegin)

theorem connReqProcess_none (hset : SetWithoutRoom settings hash s ia rx c mapped) :
    connReqProcess settings hash s ia rx c mapped = none := by
  obtain ⟨hcommand, hdone, hnull⟩ := hset
  unfold connReqProcess
  simp only [hcommand]
  rw [processSet, hdone]
  dsimp only
  rw [if_neg Bool.false_ne_true, beginSet_none hnull]
  rfl

theorem handle_none (hset : SetWithoutRoom settings hash s ia rx c mapped) :
    handle settings hash s ia rx c mapped = none := by
  rw [handle, connReqProcess_none hset]
  rfl

def twoSegments : Settings := ⟨64, 64, 2, by decide⟩

def fillingRequests : List ServingAction :=
  [.start 0 true true, Serving.setRequest [1] [7], Serving.setRequest [2] [8]]

/-- The receive buffer with the third request. -/
def thirdRequest : Memory := fun x =>
  (Serving.requestBytes 0x01 (List.replicate 8 0) [3] [9]).getD x 0

theorem setWithoutRoom_third :
    ∃ t ia, Transition.run (Serving.step twoSegments fun _ => 0) (Serving.initial fun _ => 0)
        fillingRequests = some t ∧ t.failed = false ∧ t.allocators 0 = some ia ∧
      SetWithoutRoom twoSegments (fun _ => 0) t.store ia thirdRequest ⟨0, 0, 0, false⟩ true := by
  have hrun : (Transition.run (Serving.step twoSegments fun _ => 0) (Serving.initial fun _ => 0)
      fillingRequests).map (fun t => (t.failed, (t.allocators 0).map fun ia =>
        decide (SetWithoutRoom twoSegments (fun _ => 0) t.store ia thirdRequest ⟨0, 0, 0, false⟩
          true))) = some (false, some true) := by decide +kernel
  obtain ⟨t, ht, hstate⟩ := Option.map_eq_some_iff.mp hrun
  obtain ⟨hfailed, hthird⟩ := Prod.mk.inj hstate
  obtain ⟨ia, hia, hset⟩ := Option.map_eq_some_iff.mp hthird
  exact ⟨t, ia, ht, hfailed, hia, of_decide_eq_true hset⟩

end ArmsTiering.Flexkvs
