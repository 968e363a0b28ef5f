import ArmsTiering.Core.Simulation
import ArmsTiering.Khash.Rehash

/-!
# The hash table is a finite map

`kh_put` makes room before it stores, so that every search ends at a bucket that
has never been used.  The answers of all calls are those of a finite map.
-/

namespace ArmsTiering

open KhFlags Probing Transition Simulation

variable {K V : Type}

/-- The first part of `kh_put`: a table that is used up is rehashed, into a larger one
unless half of its buckets are without an entry. -/
def khGrow (hash : K → UInt32) (alloc : KhAlloc) (t : Khash K V) : Option (Khash K V × ℤ) :=
  if t.upperBound ≤ t.nOccupied then
    if (t.size <<< 1) % 2 ^ 32 < t.nBuckets then khResize hash alloc t (t.nBuckets - 1)
    else khResize hash alloc t (t.nBuckets + 1)
  else some (t, 0)

/-- `kh_put`; the result names the bucket and `*ret`. -/
def khPut [DecidableEq K] (hash : K → UInt32) (alloc : KhAlloc) (t : Khash K V) (key : K) :
    Option (Khash K V × ℕ × ℤ) :=
  (khGrow hash alloc t).bind fun (t, ret) =>
    if ret < 0 then some (t, t.nBuckets, -1)
    else (khPutBucket hash t key).map (khPutAt t key)

/-- `kh_foreach` -/
def khForeach (t : Khash K V) : List (K × V) :=
  ((List.range t.nBuckets).filter (khExist t)).map fun i => (t.keys i, t.vals i)

/-- The calls of a user: `kh_put` and the assignment of the value, `kh_get`,
`kh_get` and `kh_del`, `kh_resize`, `kh_clear`. -/
inductive KhCall (K V : Type)
  | put (key : K) (v : V) (alloc : KhAlloc)
  | get (key : K)
  | del (key : K)
  | resize (n : ℕ) (alloc : KhAlloc)
  | clear

/-- A call with its answer. -/
inductive KhEvent (K V : Type)
  | put (key : K) (v : V) (allocated : Bool) (ret : ℤ)
  | get (key : K) (answer : Option V)
  | del (key : K) (found : Bool)
  | resize (allocated : Bool) (ret : ℤ)
  | clear

/-- A call on the table.  Tables have at most `2 ^ 31` buckets, and `kh_put` grows
them in time up to `2 ^ 30` entries. -/
def khApply [DecidableEq K] (hash : K → UInt32) (t : Khash K V) :
    KhCall K V → Option (Khash K V × KhEvent K V)
  | .put key v alloc =>
      if t.size < 2 ^ 30 then
        (khPut hash alloc t key).map fun (t, x, ret) =>
          (if ret = -1 then t else khSetValue t x v, .put key v alloc.all ret)
      else none
  | .get key =>
      (khGet hash t key).map fun x =>
        (t, .get key (if x = t.nBuckets then none else some (t.vals x)))
  | .del key =>
      (khGet hash t key).map fun x => (khDel t x, .del key (decide (x ≠ t.nBuckets)))
  | .resize n alloc =>
      if n ≤ 2 ^ 31 then
        (khResize hash alloc t n).map fun (t, ret) => (t, .resize alloc.all ret)
      else none
  | .clear => some (khClear t, .clear)

/-- The same on a finite map.  It accepts an answer that is right, and the failure of a
call whose allocations do not all succeed. -/
def mapStep [DecidableEq K] [DecidableEq V] (m : K → Option V) : KhEvent K V → Option (K → Option V)
  | .put key v allocated ret =>
      if ret = -1 ∧ allocated = false then some m
      else if ret = 0 ∧ m key ≠ none ∨ (ret = 1 ∨ ret = 2) ∧ m key = none then
        some (Function.update m key (some v))
      else none
  | .get key answer => if answer = m key then some m else none
  | .del key found => if found = (m key).isSome then some (Function.update m key none) else none
  | .resize allocated ret => if ret = 0 ∨ allocated = false then some m else none
  | .clear => some fun _ => none

def khStep [DecidableEq K] (hash : K → UInt32) (t : Khash K V) (call : KhCall K V) :
    Option (Khash K V) :=
  (khApply hash t call).map Prod.fst

def khObserve [DecidableEq K] (hash : K → UInt32) (t : Khash K V) (call : KhCall K V) :
    Option (KhEvent K V) :=
  (khApply hash t call).map Prod.snd

namespace Khash

variable {hash : K → UInt32} {t t' : Khash K V} {key : K} {v : V} {x k : ℕ} {m : K → Option V}

/-! ## Growth -/

theorem khNewBuckets_pred (hk : 2 ≤ k) (hk31 : k ≤ 31) : khNewBuckets (2 ^ k - 1) = 2 ^ k := by
  obtain ⟨j, rfl⟩ := Nat.exists_eq_add_of_le' (show 1 ≤ k by omega)
  have hpow : 2 ^ (j + 1) = 2 * 2 ^ j := Nat.pow_succ'
  have htwo : 2 ^ 1 ≤ 2 ^ j := Nat.pow_le_pow_right Nat.two_pos (by omega)
  have hround := kroundup32_succ (y := 2 ^ (j + 1) - 2) (k := j) (by omega) (by omega) (by omega)
  rw [show 2 ^ (j + 1) - 2 + 1 = 2 ^ (j + 1) - 1 by omega] at hround
  rw [khNewBuckets, hround, if_neg (by omega)]

theorem khNewBuckets_succ (hk : 2 ≤ k) (hk30 : k ≤ 30) : khNewBuckets (2 ^ k + 1) = 2 ^ (k + 1) := by
  have hpow : 2 ^ (k + 1) = 2 * 2 ^ k := Nat.pow_succ'
  have hfour := four_le hk
  have hround := kroundup32_succ (le_refl (2 ^ k)) (by omega) (by omega)
  rw [khNewBuckets, hround, if_neg (by omega)]

theorem Wf.size_le (hwf : t.Wf hash) : t.size ≤ t.nOccupied := by
  rw [hwf.size, hwf.occupied]
  refine Finset.card_le_card fun i hi => ?_
  rw [Finset.mem_filter] at hi ⊢
  exact ⟨hi.1, hi.2.2.1⟩

/-- With room for the number of entries, `kh_put` has a bucket never used, unless an
allocation fails. -/
theorem Wf.grow (hwf : t.Wf hash) (hsize : t.size < 2 ^ 30) (alloc : KhAlloc) :
    ∃ t' ret, khGrow hash alloc t = some (t', ret) ∧ t'.Wf hash ∧ t'.size = t.size ∧
      (∀ key v, t'.Holds key v ↔ t.Holds key v) ∧
      (t' = t ∧ ret = -1 ∧ alloc.all = false ∨ ret = 0 ∧ t'.nOccupied < t'.upperBound) := by
  unfold khGrow
  by_cases hfull : t.upperBound ≤ t.nOccupied
  · rw [if_pos hfull, Nat.shiftLeft_eq, Nat.mod_eq_of_lt (by omega)]
    have hle := hwf.size_le
    have hbound := hwf.bound
    have hresize : ∀ n, n ≤ 2 ^ 31 → t.size < acHashUpper (khNewBuckets n) →
        ∃ t' ret, ArmsTiering.khResize hash alloc t n = some (t', ret) ∧ t'.Wf hash ∧ t'.size = t.size ∧
          (∀ key v, t'.Holds key v ↔ t.Holds key v) ∧
          (t' = t ∧ ret = -1 ∧ alloc.all = false ∨ ret = 0 ∧ t'.nOccupied < t'.upperBound) := by
      intro n hn hroom
      obtain ⟨t', ret, heq, hwf', hsame, hholds, ⟨rfl, hfailed | ⟨_, hsmall⟩⟩ | ⟨hret, _, hcount, _, hlt⟩⟩ :=
        hwf.khResize alloc hn
      · exact ⟨t', ret, heq, hwf', hsame, hholds, .inl ⟨rfl, hfailed⟩⟩
      · omega
      · exact ⟨t', ret, heq, hwf', hsame, hholds, .inr ⟨hret, by omega⟩⟩
    rcases hwf.sized with ⟨hzero, hupper⟩ | ⟨k, hk, hk31, hpow, hupper⟩
    · have hsizeZero : t.size = 0 := by omega
      rw [hzero, if_neg (Nat.not_lt_zero _)]
      refine hresize (0 + 1) (by decide) ?_
      rw [hsizeZero]
      decide
    · have hfour := four_le hk
      rw [hpow]
      rw [hupper, acHashUpper] at hbound
      unfold acHashUpper at hresize
      split
      · rename_i hhalf
        refine hresize (2 ^ k - 1) ?_ ?_
        · exact (Nat.sub_le _ _).trans (Nat.pow_le_pow_right Nat.two_pos hk31)
        · rw [khNewBuckets_pred hk hk31]
          omega
      · rename_i hhalf
        have hk30 : k ≤ 30 := by
          by_contra hlt
          have hle31 : 2 ^ 31 ≤ 2 ^ k := Nat.pow_le_pow_right Nat.two_pos (by omega)
          omega
        have hpow30 : 2 ^ k ≤ 2 ^ 30 := Nat.pow_le_pow_right Nat.two_pos hk30
        refine hresize (2 ^ k + 1) (by omega) ?_
        rw [khNewBuckets_succ hk hk30, Nat.pow_succ']
        omega
  · rw [if_neg hfull]
    exact ⟨t, 0, rfl, hwf, rfl, fun _ _ => Iff.rfl, .inr ⟨rfl, by omega⟩⟩

/-! ## Storing -/

/-- What a call of `kh_put` has done. -/
inductive PutResult (t : Khash K V) (key : K) (alloc : KhAlloc) : Khash K V → ℕ → ℤ → Prop
  | failed (x : ℕ) (hfailed : alloc.all = false) : PutResult t key alloc t x (-1)
  | present (t' : Khash K V) (x : ℕ) (hlive : t'.Live x) (hkey : t'.keys x = key)
      (hholds : ∀ k v, t'.Holds k v ↔ t.Holds k v) : PutResult t key alloc t' x 0
  | inserted (t' : Khash K V) (x : ℕ) (ret : ℤ) (hret : ret = 1 ∨ ret = 2) (hlive : t'.Live x)
      (hkey : t'.keys x = key) (hnew : ∀ v, ¬t.Holds key v)
      (hholds : ∀ k v, k ≠ key → (t'.Holds k v ↔ t.Holds k v)) : PutResult t key alloc t' x ret

theorem Stored.holds (hstored : Stored t t' key x) (hlive : ¬t.Live x) {k : K} (hk : k ≠ key) (v : V) :
    t'.Holds k v ↔ t.Holds k v := by
  constructor
  · rintro ⟨i, hi, rfl, hval⟩
    rw [hstored.keys] at hk
    have hne : i ≠ x := by
      rintro rfl
      exact hk (Function.update_self ..)
    refine ⟨i, ((hstored.live i).mp hi).resolve_right hne, ?_, by rw [← hval, hstored.vals]⟩
    rw [hstored.keys, Function.update_of_ne hne]
  · rintro ⟨i, hi, hkey, hval⟩
    have hne : i ≠ x := fun heq => hlive (heq ▸ hi)
    refine ⟨i, (hstored.live i).mpr (.inl hi), ?_, by rw [hstored.vals, hval]⟩
    rw [hstored.keys, Function.update_of_ne hne, hkey]

theorem putAt_ret (t : Khash K V) (key : K) (hlive : ¬t.Live x) (hx : x < t.nBuckets) :
    (khPutAt t key x).2.2 = 1 ∨ (khPutAt t key x).2.2 = 2 := by
  unfold khPutAt
  split
  · exact .inl rfl
  · split
    · exact .inr rfl
    · rename_i hempty hdel
      exact absurd ⟨hx, (Bool.not_eq_true _).mp hempty, (Bool.not_eq_true _).mp hdel⟩ hlive

theorem putAt_bucket (t : Khash K V) (key : K) (x : ℕ) : (khPutAt t key x).2.1 = x := by
  unfold khPutAt
  split
  · rfl
  · split <;> rfl

/-- `kh_put` ends, with the bucket of the key if there is memory. -/
theorem Wf.khPut [DecidableEq K] (hwf : t.Wf hash) (hsize : t.size < 2 ^ 30) (alloc : KhAlloc) (key : K) :
    ∃ t' x ret, khPut hash alloc t key = some (t', x, ret) ∧ t'.Wf hash ∧
      PutResult t key alloc t' x ret := by
  unfold ArmsTiering.khPut
  obtain ⟨t₁, ret, hgrow, hwf₁, _, hholds, ⟨rfl, rfl, hfailed⟩ | ⟨rfl, hroom⟩⟩ :=
    hwf.grow hsize alloc
  · rw [hgrow, Option.bind_some]
    exact ⟨t₁, _, -1, if_pos (by decide), hwf₁, .failed _ hfailed⟩
  · rw [hgrow, Option.bind_some]
    have hpos : t₁.nBuckets ≠ 0 := by
      intro hzero
      rcases hwf₁.sized with ⟨_, hupper⟩ | ⟨k, _, _, hpow, _⟩
      · omega
      · have hpowPos := Nat.two_pow_pos k
        omega
    obtain ⟨k, _, _, hpow, _⟩ := hwf₁.sized.pow hpos
    obtain ⟨x, hbucket, hx, ⟨hlive, hkey⟩ | ⟨hlive, hnew, hreaches⟩⟩ :=
      khPutBucket_cases hpow (hwf₁.exists_isempty hpos) hwf₁.reaches key
    · have hat : khPutAt t₁ key x = (t₁, x, 0) := by
        rw [khPutAt, hlive.2.1, hlive.2.2, if_neg Bool.false_ne_true, if_neg Bool.false_ne_true]
      dsimp only
      rw [if_neg (by decide), hbucket, Option.map_some, hat]
      exact ⟨t₁, x, 0, rfl, hwf₁, .present t₁ x hlive hkey hholds⟩
    · obtain ⟨hwf', _⟩ := hwf₁.putAt hroom hx hlive hnew hreaches
      have hstored := stored_putAt hx hlive key
      have hret := putAt_ret t₁ key hlive hx
      have hself := putAt_bucket t₁ key x
      obtain ⟨⟨t', y, ret⟩, hput⟩ : ∃ result, khPutAt t₁ key x = result := ⟨_, rfl⟩
      rw [hput] at hwf' hstored hret hself
      obtain rfl : y = x := hself
      dsimp only
      rw [if_neg (by decide), hbucket, Option.map_some, hput]
      refine ⟨t', y, ret, rfl, hwf', .inserted t' y ret hret ?_ ?_ ?_ ?_⟩
      · exact (hstored.live y).mpr (.inr rfl)
      · rw [hstored.keys, Function.update_self]
      · rintro v hv
        obtain ⟨i, hi, hkey, _⟩ := (hholds key v).mpr hv
        exact hnew i hi hkey
      · exact fun k' v hk' => (hstored.holds hlive hk' v).trans (hholds k' v)

/-! ## The map -/

/-- The entries of the table are those of the map. -/
def Represents (t : Khash K V) (m : K → Option V) : Prop := ∀ key v, m key = some v ↔ t.Holds key v

/-- The value is assigned to the bucket of its key. -/
theorem Wf.represents_setValue [DecidableEq K] (hwf : t.Wf hash) (hlive : t.Live x) (hkey : t.keys x = key)
    (hm : ∀ k, k ≠ key → ∀ v, m k = some v ↔ t.Holds k v) (v : V) :
    (khSetValue t x v).Represents (Function.update m key (some v)) := by
  intro k w
  have hself : (khSetValue t x v).vals x = v := by simp [khSetValue]
  have hvals : ∀ i, i ≠ x → (khSetValue t x v).vals i = t.vals i := by
    intro i hi
    simp [khSetValue, hi]
  rcases eq_or_ne k key with rfl | hne
  · rw [Function.update_self, Option.some.injEq]
    constructor
    · intro heq
      exact ⟨x, hlive, hkey, hself.trans heq⟩
    · rintro ⟨i, hi, hkeyI, rfl⟩
      rw [hwf.distinct i x hi hlive (hkeyI.trans hkey.symm)]
      exact hself.symm
  · rw [Function.update_of_ne hne, hm k hne w]
    constructor
    · rintro ⟨i, hi, hkeyI, hval⟩
      have hix : i ≠ x := by
        rintro rfl
        exact hne (hkeyI.symm.trans hkey)
      exact ⟨i, hi, hkeyI, (hvals i hix).trans hval⟩
    · rintro ⟨i, hi, hkeyI, hval⟩
      have hix : i ≠ x := by
        rintro rfl
        exact hne (hkeyI.symm.trans hkey)
      exact ⟨i, hi, hkeyI, (hvals i hix).symm.trans hval⟩

theorem Represents.eq_none (hrep : t.Represents m) (hnone : ∀ i, t.Live i → t.keys i ≠ key) :
    m key = none := by
  cases hkey : m key with
  | none => rfl
  | some v =>
      obtain ⟨i, hi, hkeyI, _⟩ := (hrep key v).mp hkey
      exact absurd hkeyI (hnone i hi)

theorem Represents.eq_some (hrep : t.Represents m) (hlive : t.Live x) (hkey : t.keys x = key) :
    m key = some (t.vals x) :=
  (hrep key _).mpr ⟨x, hlive, hkey, rfl⟩

theorem Wf.represents_del [DecidableEq K] (hwf : t.Wf hash) (hrep : t.Represents m)
    (hlive : t.Live x) (hkey : t.keys x = key) :
    (khDel t x).Represents (Function.update m key none) := by
  intro k w
  have hdel := live_khDel hlive
  have hcond : x ≠ t.nBuckets ∧ iseither t.flags x = false :=
    ⟨Nat.ne_of_lt hlive.1, iseither_eq_false.mpr hlive.2⟩
  have harrays : (khDel t x).keys = t.keys ∧ (khDel t x).vals = t.vals := by
    rw [khDel, if_pos hcond]
    exact ⟨rfl, rfl⟩
  unfold Holds
  rw [harrays.1, harrays.2]
  rcases eq_or_ne k key with rfl | hne
  · rw [Function.update_self]
    refine ⟨fun h => absurd h.symm (Option.some_ne_none w), ?_⟩
    rintro ⟨i, hi, hkeyI, _⟩
    obtain ⟨hold, hix⟩ := (hdel i).mp hi
    exact absurd (hwf.distinct i x hold hlive (hkeyI.trans hkey.symm)) hix
  · rw [Function.update_of_ne hne, hrep k w]
    constructor
    · rintro ⟨i, hi, hkeyI, hval⟩
      have hix : i ≠ x := by
        rintro rfl
        exact hne (hkeyI.symm.trans hkey)
      exact ⟨i, (hdel i).mpr ⟨hi, hix⟩, hkeyI, hval⟩
    · rintro ⟨i, hi, hkeyI, hval⟩
      exact ⟨i, ((hdel i).mp hi).1, hkeyI, hval⟩

/-- The table and the map after the same calls. -/
def Refines (hash : K → UInt32) (t : Khash K V) (m : K → Option V) : Prop :=
  t.Wf hash ∧ t.Represents m

/-! ## One call -/

theorem live_ne_end (hlive : t.Live x) : x ≠ t.nBuckets := Nat.ne_of_lt hlive.1

theorem Represents.of_holds (hrep : t.Represents m) (hholds : ∀ k v, t'.Holds k v ↔ t.Holds k v) :
    t'.Represents m := fun k v => (hrep k v).trans (hholds k v).symm

section

variable [DecidableEq K]

/-- After `kh_put`, the map has the value that the user assigned. -/
theorem Refines.put [DecidableEq V] {ret : ℤ} {alloc : KhAlloc} (href : Refines hash t m)
    (hwf' : t'.Wf hash) (hput : PutResult t key alloc t' x ret) (v : V) :
    ∃ m', mapStep m (.put key v alloc.all ret) = some m' ∧
      Refines hash (if ret = -1 then t' else khSetValue t' x v) m' := by
  obtain ⟨_, hrep⟩ := href
  cases hput with
  | failed x hfailed => exact ⟨m, if_pos ⟨rfl, hfailed⟩, hwf', hrep⟩
  | present _ _ hlive hkey hholds =>
      have hold : m key = some (t'.vals x) :=
        (hrep key _).mpr ((hholds key _).mp ⟨x, hlive, hkey, rfl⟩)
      refine ⟨Function.update m key (some v), ?_, hwf'.setValue x v, ?_⟩
      · rw [mapStep, if_neg (by omega), if_pos (.inl ⟨rfl, by rw [hold]; exact Option.some_ne_none _⟩)]
      · exact hwf'.represents_setValue hlive hkey
          (fun k _ w => (hrep k w).trans (hholds k w).symm) v
  | inserted _ _ _ hret hlive hkey hnew hholds =>
      have hnone : m key = none := by
        cases hold : m key with
        | none => rfl
        | some w => exact absurd ((hrep key w).mp hold) (hnew w)
      have hfail : ret ≠ -1 := by omega
      rw [if_neg hfail]
      refine ⟨Function.update m key (some v), ?_, hwf'.setValue x v, ?_⟩
      · rw [mapStep, if_neg fun h => hfail h.1, if_pos (.inr ⟨hret, hnone⟩)]
      · exact hwf'.represents_setValue hlive hkey
          (fun k hk w => (hrep k w).trans (hholds k w hk).symm) v

/-- The answer of `kh_get` is that of the map. -/
theorem Refines.get (href : Refines hash t m) (key : K) :
    ∃ x, khGet hash t key = some x ∧
      (t.Live x ∧ t.keys x = key ∧ m key = some (t.vals x) ∨ x = t.nBuckets ∧ m key = none) := by
  obtain ⟨x, hget, ⟨hlive, hkey⟩ | ⟨hend, hnone⟩⟩ := href.1.khGet key
  · exact ⟨x, hget, .inl ⟨hlive, hkey, href.2.eq_some hlive hkey⟩⟩
  · exact ⟨x, hget, .inr ⟨hend, href.2.eq_none hnone⟩⟩

/-- The calls for which there is room in the type of sizes. -/
def Admits (t : Khash K V) : KhCall K V → Prop
  | .put _ _ _ => t.size < 2 ^ 30
  | .resize n _ => n ≤ 2 ^ 31
  | _ => True

/-- Every call that is admitted ends, and its answer is that of the map. -/
theorem Refines.khApply [DecidableEq V] (href : Refines hash t m) (call : KhCall K V)
    (hadmits : t.Admits call) :
    ∃ t' event m', khApply hash t call = some (t', event) ∧ mapStep m event = some m' ∧
      Refines hash t' m' := by
  cases call with
  | put key v alloc =>
      have hroom : t.size < 2 ^ 30 := hadmits
      obtain ⟨t', x, ret, hput, hwf', hresult⟩ := href.1.khPut hroom alloc key
      obtain ⟨m', hstep, href'⟩ := href.put hwf' hresult v
      refine ⟨_, _, m', ?_, hstep, href'⟩
      rw [ArmsTiering.khApply, if_pos hroom, hput, Option.map_some]
  | get key =>
      obtain ⟨x, hget, ⟨hlive, _, hsome⟩ | ⟨hend, hnone⟩⟩ := href.get key
      · refine ⟨t, .get key (some (t.vals x)), m, ?_, if_pos hsome.symm, href⟩
        rw [ArmsTiering.khApply, hget, Option.map_some, if_neg (live_ne_end hlive)]
      · refine ⟨t, .get key none, m, ?_, if_pos hnone.symm, href⟩
        rw [ArmsTiering.khApply, hget, Option.map_some, if_pos hend]
  | del key =>
      obtain ⟨x, hget, ⟨hlive, hkey, hsome⟩ | ⟨hend, hnone⟩⟩ := href.get key
      · refine ⟨khDel t x, .del key true, Function.update m key none, ?_, ?_, (href.1.del hlive).1,
          href.1.represents_del href.2 hlive hkey⟩
        · rw [ArmsTiering.khApply, hget, Option.map_some, decide_eq_true (live_ne_end hlive)]
        · rw [mapStep, hsome, Option.isSome_some, if_pos rfl]
      · refine ⟨t, .del key false, m, ?_, ?_, href⟩
        · rw [ArmsTiering.khApply, hget, Option.map_some, khDel, if_neg fun h => h.1 hend,
            decide_eq_false (not_not.mpr hend)]
        · rw [mapStep, hnone, Option.isSome_none, if_pos rfl, ← hnone, Function.update_eq_self]
  | resize n alloc =>
      have hroom : n ≤ 2 ^ 31 := hadmits
      obtain ⟨t', ret, hresize, hwf', _, hholds, hret⟩ := href.1.khResize alloc hroom
      refine ⟨t', .resize alloc.all ret, m, ?_, if_pos ?_, hwf', href.2.of_holds hholds⟩
      · rw [ArmsTiering.khApply, if_pos hroom, hresize, Option.map_some]
      · rcases hret with ⟨_, ⟨_, hfailed⟩ | ⟨hzero, _⟩⟩ | ⟨hzero, _⟩
        · exact .inr hfailed
        · exact .inl hzero
        · exact .inl hzero
  | clear =>
      obtain ⟨hwf', hnone⟩ := href.1.clear
      refine ⟨khClear t, .clear, fun _ => none, rfl, rfl, hwf',
        fun k v => ⟨fun h => absurd h.symm (Option.some_ne_none v), ?_⟩⟩
      rintro ⟨i, hi, _⟩
      exact absurd hi (hnone i)

theorem khApply_admits {result : Khash K V × KhEvent K V} {call : KhCall K V}
    (happly : ArmsTiering.khApply hash t call = some result) : t.Admits call := by
  cases call with
  | put key v alloc => exact (Option.ite_none_right_eq_some.mp happly).1
  | resize n alloc => exact (Option.ite_none_right_eq_some.mp happly).1
  | get _ => trivial
  | del _ => trivial
  | clear => trivial

/-! ## Runs -/

theorem khash_simulates [DecidableEq V] (hash : K → UInt32) :
    ForwardSimulation (khStep hash) (khObserve hash) (mapStep (K := K) (V := V))
      (Refines hash) where
  silent := by
    intro t call next m _ hstep hobserve
    obtain ⟨⟨next', event⟩, happly, rfl⟩ := Option.map_eq_some_iff.mp hstep
    rw [khObserve, happly] at hobserve
    cases hobserve
  visible := by
    intro t call next m event href hstep hobserve
    obtain ⟨⟨next', event'⟩, happly, rfl⟩ := Option.map_eq_some_iff.mp hstep
    rw [khObserve, happly] at hobserve
    obtain rfl : event' = event := Option.some.inj hobserve
    obtain ⟨t', event, m', hcall, hmap, href'⟩ := href.khApply call (khApply_admits happly)
    rw [happly, Option.some.injEq, Prod.mk.injEq] at hcall
    obtain ⟨rfl, rfl⟩ := hcall
    exact ⟨m', hmap, href'⟩

omit [DecidableEq K] in
theorem refines_init (hash : K → UInt32) (keys : ℕ → K) (vals : ℕ → V) :
    Refines hash (khInit keys vals) fun _ => none :=
  ⟨wf_khInit keys vals, fun _ _ => ⟨nofun, fun ⟨i, hi, _⟩ => absurd hi.1 (Nat.not_lt_zero i)⟩⟩

end

/-! ## Iteration -/

theorem khExist_iff (hx : x < t.nBuckets) : khExist t x = true ↔ t.Live x := by
  rw [khExist, Bool.not_eq_true', iseither_eq_false]
  exact (and_iff_right hx).symm

theorem mem_khForeach : (key, v) ∈ khForeach t ↔ t.Holds key v := by
  rw [khForeach, List.mem_map]
  constructor
  · rintro ⟨i, hi, hpair⟩
    obtain ⟨hlt, hexist⟩ := List.mem_filter.mp hi
    exact ⟨i, (khExist_iff (List.mem_range.mp hlt)).mp hexist, Prod.mk.inj hpair⟩
  · rintro ⟨i, hi, rfl, rfl⟩
    exact ⟨i, List.mem_filter.mpr ⟨List.mem_range.mpr hi.1, (khExist_iff hi.1).mpr hi⟩, rfl⟩

theorem Wf.nodup_khForeach (hwf : t.Wf hash) : ((khForeach t).map Prod.fst).Nodup := by
  rw [khForeach, List.map_map]
  refine List.Nodup.map_on ?_ (List.nodup_range.filter _)
  intro i hi j hj hkeys
  obtain ⟨hltI, hexistI⟩ := List.mem_filter.mp hi
  obtain ⟨hltJ, hexistJ⟩ := List.mem_filter.mp hj
  exact hwf.distinct i j ((khExist_iff (List.mem_range.mp hltI)).mp hexistI)
    ((khExist_iff (List.mem_range.mp hltJ)).mp hexistJ) hkeys

theorem Wf.length_khForeach (hwf : t.Wf hash) : (khForeach t).length = t.size := by
  rw [khForeach, List.length_map, hwf.size]
  refine congrArg List.length (List.filter_congr fun i hi => ?_)
  rw [Bool.eq_iff_iff, decide_eq_true_iff]
  exact khExist_iff (List.mem_range.mp hi)

end Khash

open Khash

variable [DecidableEq K] [DecidableEq V]

/-- In every state that calls can lead to, each call that is admitted ends, and
`kh_foreach` comes to each entry that `kh_get` finds, once. -/
theorem khash_complete (hash : K → UInt32) (keys : ℕ → K) (vals : ℕ → V)
    (calls : List (KhCall K V)) (t : Khash K V)
    (hrun : run (khStep hash) (khInit keys vals) calls = some t) :
    (∀ call, t.Admits call → ∃ result, khApply hash t call = some result) ∧
      ((khForeach t).map Prod.fst).Nodup ∧ (khForeach t).length = t.size ∧
      ∀ key v, (key, v) ∈ khForeach t ↔
        khApply hash t (.get key) = some (t, .get key (some v)) := by
  obtain ⟨m, _, hfinal⟩ := (khash_simulates hash).accepts (refines_init hash keys vals) calls
  have href := hfinal t hrun
  refine ⟨fun call hadmits => ?_, href.1.nodup_khForeach, href.1.length_khForeach, fun key v => ?_⟩
  · obtain ⟨t', event, _, happly, _⟩ := href.khApply call hadmits
    exact ⟨_, happly⟩
  · rw [mem_khForeach, ← href.2 key v]
    obtain ⟨x, hget, ⟨hlive, _, hsome⟩ | ⟨hend, hnone⟩⟩ := href.get key
    · rw [hsome, khApply, hget, Option.map_some, if_neg (live_ne_end hlive)]
      simp
    · rw [hnone, khApply, hget, Option.map_some, if_pos hend]
      simp

/-- Two keys are put, and one of them is deleted. -/
theorem khash_complete_del :
    ∃ t, run (khStep khInt64HashFunc) (khInit (fun _ => 0) fun _ => 0)
        [.put 0x200000 7 ⟨true, true, true⟩, .put 0x400000 8 ⟨true, true, true⟩, .del 0x200000] =
          some t ∧ ((khForeach t).map Prod.fst).Nodup ∧ (khForeach t).length = t.size ∧ t.size = 1 := by
  have hsome : (run (khStep khInt64HashFunc) (khInit (fun _ => 0) fun _ => (0 : ℕ))
      [.put 0x200000 7 ⟨true, true, true⟩, .put 0x400000 8 ⟨true, true, true⟩,
        .del 0x200000]).map Khash.size = some 1 := by decide
  obtain ⟨t, hrun, hsize⟩ := Option.map_eq_some_iff.mp hsome
  obtain ⟨_, hnodup, hlength, _⟩ := khash_complete _ _ _ _ t hrun
  exact ⟨t, hrun, hnodup, hlength, hsize⟩

end ArmsTiering
