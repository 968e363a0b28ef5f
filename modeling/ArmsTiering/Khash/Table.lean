import ArmsTiering.Core.Probing
import ArmsTiering.Khash.Flags

/-!
# The hash table of `khash.h`

Open addressing with triangular probing.  Deleted entries keep their bucket until
the table is rehashed, so that a search can go on behind them.
-/

namespace ArmsTiering

open KhFlags Probing

variable {K V : Type}

/-- `khash_t(name)` -/
structure Khash (K V : Type) where
  nBuckets : ℕ
  size : ℕ
  nOccupied : ℕ
  upperBound : ℕ
  flags : KhFlags
  keys : ℕ → K
  vals : ℕ → V

/-- `kh_int64_hash_func` -/
def khInt64HashFunc (key : UInt64) : UInt32 := (key >>> 33 ^^^ key ^^^ key <<< 11).toUInt32

/-- `kh_init`; the last two arguments are what the arrays hold that are not yet allocated. -/
def khInit (keys : ℕ → K) (vals : ℕ → V) : Khash K V where
  nBuckets := 0
  size := 0
  nOccupied := 0
  upperBound := 0
  flags := allEmpty
  keys := keys
  vals := vals

/-- `kh_clear` -/
def khClear (t : Khash K V) : Khash K V :=
  if t.nBuckets = 0 then t else { t with flags := allEmpty, size := 0, nOccupied := 0 }

section

variable [DecidableEq K]

/-- The loop of `kh_get`.  The sum is taken modulo `2 ^ 32`, above the mask. -/
def khGetFrom (t : Khash K V) (key : K) (last : ℕ) : ℕ → ℕ → ℕ → Option ℕ
  | 0, _, _ => none
  | fuel + 1, i, step =>
      if isempty t.flags i = false ∧ (isdel t.flags i = true ∨ t.keys i ≠ key) then
        let i := (i + (step + 1)) &&& (t.nBuckets - 1)
        if i = last then some t.nBuckets else khGetFrom t key last fuel i (step + 1)
      else some (if iseither t.flags i = true then t.nBuckets else i)

/-- `kh_get`; undefined if the loop has not ended after all buckets. -/
def khGet (hash : K → UInt32) (t : Khash K V) (key : K) : Option ℕ :=
  if t.nBuckets = 0 then some 0
  else
    let i := (hash key).toNat &&& (t.nBuckets - 1)
    khGetFrom t key i (2 * t.nBuckets) i 0

/-- The bucket on which `kh_put` settles after its loop. -/
def khPutTarget (t : Khash K V) (i site x : ℕ) : ℕ :=
  if x = t.nBuckets then
    if isempty t.flags i = true ∧ site ≠ t.nBuckets then site else i
  else x

/-- The loop of `kh_put`. -/
def khPutFrom (t : Khash K V) (key : K) (last : ℕ) : ℕ → ℕ → ℕ → ℕ → Option ℕ
  | 0, _, _, _ => none
  | fuel + 1, i, step, site =>
      if isempty t.flags i = false ∧ (isdel t.flags i = true ∨ t.keys i ≠ key) then
        let site := if isdel t.flags i = true then i else site
        let i := (i + (step + 1)) &&& (t.nBuckets - 1)
        if i = last then some (khPutTarget t i site site)
        else khPutFrom t key last fuel i (step + 1) site
      else some (khPutTarget t i site t.nBuckets)

/-- The bucket that `kh_put` finds for the key. -/
def khPutBucket (hash : K → UInt32) (t : Khash K V) (key : K) : Option ℕ :=
  let i := (hash key).toNat &&& (t.nBuckets - 1)
  if isempty t.flags i = true then some i
  else khPutFrom t key i (2 * t.nBuckets) i 0 t.nBuckets

end

/-- The end of `kh_put`: the key is stored in the bucket.  The result names the
bucket and `*ret`. -/
def khPutAt (t : Khash K V) (key : K) (x : ℕ) : Khash K V × ℕ × ℤ :=
  if isempty t.flags x = true then
    ({ t with
      keys := Function.update t.keys x key
      flags := setIsbothFalse t.flags x
      size := t.size + 1
      nOccupied := t.nOccupied + 1 }, x, 1)
  else if isdel t.flags x = true then
    ({ t with
      keys := Function.update t.keys x key
      flags := setIsbothFalse t.flags x
      size := t.size + 1 }, x, 2)
  else (t, x, 0)

/-- `kh_del` -/
def khDel (t : Khash K V) (x : ℕ) : Khash K V :=
  if x ≠ t.nBuckets ∧ iseither t.flags x = false then
    { t with flags := setIsdelTrue t.flags x, size := t.size - 1 }
  else t

/-- `kh_exist` -/
def khExist (t : Khash K V) (x : ℕ) : Bool := !iseither t.flags x

/-- The assignment `kh_value(h, x) = v`. -/
def khSetValue (t : Khash K V) (x : ℕ) (v : V) : Khash K V :=
  { t with vals := Function.update t.vals x v }

/-- `(khint_t)(n * __ac_HASH_UPPER + 0.5)`.  For the powers of two up to `2 ^ 31` the
product and the sum of doubles have this integer part. -/
def acHashUpper (n : ℕ) : ℕ := (77 * n + 50) / 100

namespace Khash

/-- The bucket holds an entry. -/
def Live (t : Khash K V) (i : ℕ) : Prop :=
  i < t.nBuckets ∧ isempty t.flags i = false ∧ isdel t.flags i = false

instance (t : Khash K V) (i : ℕ) : Decidable (t.Live i) := inferInstanceAs (Decidable (_ ∧ _ ∧ _))

/-- The table has the value for the key. -/
def Holds (t : Khash K V) (key : K) (v : V) : Prop := ∃ i, t.Live i ∧ t.keys i = key ∧ t.vals i = v

/-- A search for the key comes to the bucket without passing a bucket never used. -/
def Reaches (hash : K → UInt32) (t : Khash K V) (key : K) (i : ℕ) : Prop :=
  ∃ s, probeAt t.nBuckets (hash key).toNat s = i ∧
    ∀ r < s, isempty t.flags (probeAt t.nBuckets (hash key).toNat r) = false

/-- The table has one of the sizes that `kh_resize` chooses, or none yet. -/
def Sized (t : Khash K V) : Prop :=
  (t.nBuckets = 0 ∧ t.upperBound = 0) ∨
    ∃ k, 2 ≤ k ∧ k ≤ 31 ∧ t.nBuckets = 2 ^ k ∧ t.upperBound = acHashUpper (2 ^ k)

structure Wf (hash : K → UInt32) (t : Khash K V) : Prop where
  sized : t.Sized
  size : t.size = ((Finset.range t.nBuckets).filter t.Live).card
  occupied : t.nOccupied =
    ((Finset.range t.nBuckets).filter fun i => isempty t.flags i = false).card
  bound : t.nOccupied ≤ t.upperBound
  reaches : ∀ i, t.Live i → t.Reaches hash (t.keys i) i
  distinct : ∀ i j, t.Live i → t.Live j → t.keys i = t.keys j → i = j

variable {hash : K → UInt32} {t : Khash K V} {key : K} {i s k : ℕ}

theorem iseither_eq_false : iseither t.flags i = false ↔
    isempty t.flags i = false ∧ isdel t.flags i = false := by
  rw [iseither_eq, Bool.or_eq_false_iff]

theorem and_mask (hpow : t.nBuckets = 2 ^ k) (i : ℕ) : i &&& (t.nBuckets - 1) = i % t.nBuckets := by
  rw [hpow, Nat.and_two_pow_sub_one_eq_mod]

/-! ## The loops -/

/-- The bucket does not end a search for the key. -/
abbrev Passes (t : Khash K V) (key : K) (i : ℕ) : Prop :=
  isempty t.flags i = false ∧ (isdel t.flags i = true ∨ t.keys i ≠ key)

section

variable [DecidableEq K]

/-- A table with a bucket that has never been used has room behind every search. -/
theorem exists_stop (hpow : t.nBuckets = 2 ^ k) (key : K) (start : ℕ)
    (hempty : ∃ i < t.nBuckets, isempty t.flags i = true) :
    ∃ s < t.nBuckets, ¬t.Passes key (probeAt t.nBuckets start s) ∧
      (∀ r < s, t.Passes key (probeAt t.nBuckets start r)) ∧
      ∀ r < s, probeAt t.nBuckets start (r + 1) ≠ probeAt t.nBuckets start 0 := by
  obtain ⟨i, hi, hflag⟩ := hempty
  rw [hpow] at hi ⊢
  have hstop : ¬t.Passes key i := fun hpasses => by rw [hpasses.1] at hflag; cases hflag
  obtain ⟨s, hs, hfirst, hbefore, hnot⟩ := exists_first (fun i => ¬t.Passes key i) start hi hstop
  exact ⟨s, hs, hfirst, fun r hr => not_not.mp (hbefore r hr), hnot⟩

variable {start : ℕ}

theorem khGetFrom_eq (hpow : t.nBuckets = 2 ^ k)
    (hpass : ∀ r < s, t.Passes key (probeAt t.nBuckets start r))
    (hstop : ¬t.Passes key (probeAt t.nBuckets start s))
    (hnot : ∀ r < s, probeAt t.nBuckets start (r + 1) ≠ probeAt t.nBuckets start 0)
    (fuel step : ℕ) (hstep : step ≤ s) (hfuel : s - step < fuel) :
    khGetFrom t key (probeAt t.nBuckets start 0) fuel (probeAt t.nBuckets start step) step =
      some (if iseither t.flags (probeAt t.nBuckets start s) = true then t.nBuckets
        else probeAt t.nBuckets start s) := by
  induction fuel generalizing step with
  | zero => omega
  | succ fuel ih =>
      rw [khGetFrom]
      rcases Nat.lt_or_eq_of_le hstep with hlt | rfl
      · rw [if_pos (hpass step hlt), and_mask hpow, probeAt_succ]
        dsimp only
        rw [if_neg (hnot step hlt)]
        exact ih (step + 1) hlt (by omega)
      · exact if_neg hstop

/-- Where the loop of `kh_put` ends: at its last bucket, or at one with a deleted
entry on the way there. -/
theorem khPutFrom_cases (hpow : t.nBuckets = 2 ^ k)
    (hpass : ∀ r < s, t.Passes key (probeAt t.nBuckets start r))
    (hstop : ¬t.Passes key (probeAt t.nBuckets start s))
    (hnot : ∀ r < s, probeAt t.nBuckets start (r + 1) ≠ probeAt t.nBuckets start 0)
    (fuel step site : ℕ) (hstep : step ≤ s) (hfuel : s - step < fuel)
    (hsite : site = t.nBuckets ∨
      ∃ r < step, probeAt t.nBuckets start r = site ∧ isdel t.flags site = true) :
    ∃ x, khPutFrom t key (probeAt t.nBuckets start 0) fuel (probeAt t.nBuckets start step) step
        site = some x ∧
      (x = probeAt t.nBuckets start s ∨
        isempty t.flags (probeAt t.nBuckets start s) = true ∧
          ∃ r < s, probeAt t.nBuckets start r = x ∧ isdel t.flags x = true) := by
  induction fuel generalizing step site with
  | zero => omega
  | succ fuel ih =>
      rw [khPutFrom]
      rcases Nat.lt_or_eq_of_le hstep with hlt | rfl
      · rw [if_pos (hpass step hlt), and_mask hpow, probeAt_succ]
        dsimp only
        rw [if_neg (hnot step hlt)]
        refine ih (step + 1) _ hlt (by omega) ?_
        by_cases hdel : isdel t.flags (probeAt t.nBuckets start step) = true
        · rw [if_pos hdel]
          exact .inr ⟨step, Nat.lt_succ_self step, rfl, hdel⟩
        · rw [if_neg hdel]
          exact hsite.imp_right fun ⟨r, hr, hat⟩ => ⟨r, Nat.lt_succ_of_lt hr, hat⟩
      · rw [if_neg hstop, khPutTarget, if_pos rfl]
        refine ⟨_, rfl, ?_⟩
        split
        · rename_i hor
          exact .inr ⟨hor.1, hsite.resolve_left hor.2⟩
        · exact .inl rfl

end

/-! ## Lookup -/

theorem acHashUpper_lt {n : ℕ} (hn : 4 ≤ n) : acHashUpper n < n := by
  unfold acHashUpper
  omega

theorem Sized.pow (hsized : t.Sized) (hpos : t.nBuckets ≠ 0) :
    ∃ k, 2 ≤ k ∧ k ≤ 31 ∧ t.nBuckets = 2 ^ k ∧ t.upperBound = acHashUpper (2 ^ k) :=
  hsized.resolve_left fun hnone => hpos hnone.1

theorem four_le {k : ℕ} (hk : 2 ≤ k) : 4 ≤ 2 ^ k := Nat.pow_le_pow_right Nat.two_pos hk

theorem exists_isempty {flags : KhFlags} {n : ℕ}
    (hlt : ((Finset.range n).filter fun i => isempty flags i = false).card < n) :
    ∃ i < n, isempty flags i = true := by
  by_contra hnone
  rw [Finset.filter_true_of_mem, Finset.card_range] at hlt
  · exact Nat.lt_irrefl _ hlt
  · intro i hi
    by_contra hflag
    exact hnone ⟨i, Finset.mem_range.mp hi, (Bool.not_eq_false _).mp hflag⟩

theorem Wf.exists_isempty (hwf : t.Wf hash) (hpos : t.nBuckets ≠ 0) :
    ∃ i < t.nBuckets, isempty t.flags i = true := by
  obtain ⟨k, hk, _, hpow, hupper⟩ := hwf.sized.pow hpos
  refine Khash.exists_isempty ?_
  have hbound := hwf.bound
  have hlt := acHashUpper_lt (four_le hk)
  have hcount := hwf.occupied
  omega

/-- A search that has not passed the entry of the key at its end has not missed it. -/
theorem not_live_of_search {n : ℕ} (hn : t.nBuckets = n) (hreaches : ∀ i, t.Live i → t.Reaches hash (t.keys i) i)
    (hpass : ∀ r < s, t.Passes key (probeAt n (hash key).toNat r))
    (hempty : isempty t.flags (probeAt n (hash key).toNat s) = true) :
    ∀ i, t.Live i → t.keys i ≠ key := by
  rintro i hlive rfl
  obtain ⟨s', hat, hpath⟩ := hreaches i hlive
  rw [hn] at hat hpath
  rcases Nat.lt_trichotomy s' s with hlt | rfl | hlt
  · have hpasses := hpass s' hlt
    rw [hat] at hpasses
    rcases hpasses.2 with hdel | hkey
    · rw [hlive.2.2] at hdel
      cases hdel
    · exact hkey rfl
  · rw [hat, hlive.2.1] at hempty
    cases hempty
  · rw [hpath s hlt] at hempty
    cases hempty

/-- `kh_get` ends, with the bucket of the key or with `kh_end`. -/
theorem Wf.khGet [DecidableEq K] (hwf : t.Wf hash) (key : K) : ∃ x, khGet hash t key = some x ∧
    (t.Live x ∧ t.keys x = key ∨ x = t.nBuckets ∧ ∀ i, t.Live i → t.keys i ≠ key) := by
  unfold ArmsTiering.khGet
  by_cases hzero : t.nBuckets = 0
  · rw [if_pos hzero]
    refine ⟨0, rfl, .inr ⟨hzero.symm, fun i hlive => ?_⟩⟩
    have hlt := hlive.1
    omega
  · rw [if_neg hzero]
    obtain ⟨k, hk, _, hpow, hupper⟩ := hwf.sized.pow hzero
    obtain ⟨s, hs, hstop, hpass, hnot⟩ :=
      exists_stop hpow key (hash key).toNat (hwf.exists_isempty hzero)
    have hresult := khGetFrom_eq hpow hpass hstop hnot (2 * t.nBuckets) 0 (Nat.zero_le s) (by omega)
    dsimp only
    rw [and_mask hpow]
    refine ⟨_, hresult, ?_⟩
    have hlt := probeAt_lt (Nat.pos_of_ne_zero hzero) (hash key).toNat s
    cases hempty : isempty t.flags (probeAt t.nBuckets (hash key).toNat s) with
    | true =>
        rw [iseither_eq, hempty, Bool.true_or, if_pos rfl]
        exact .inr ⟨rfl, not_live_of_search rfl hwf.reaches hpass hempty⟩
    | false =>
        unfold Passes at hstop
        rw [hempty, not_and_or, not_or, Bool.not_eq_true, not_not] at hstop
        obtain ⟨hdel, hkey⟩ := hstop.resolve_left fun hne => hne rfl
        rw [iseither_eq, hempty, hdel, Bool.or_false, if_neg Bool.false_ne_true]
        exact .inl ⟨⟨hlt, hempty, hdel⟩, hkey⟩

/-! ## Storing a key -/

/-- `kh_put` finds the bucket of the key, or one without an entry that searches for
the key will come to. -/
theorem khPutBucket_cases [DecidableEq K] (hpow : t.nBuckets = 2 ^ k)
    (hempty : ∃ i < t.nBuckets, isempty t.flags i = true)
    (hreaches : ∀ i, t.Live i → t.Reaches hash (t.keys i) i) (key : K) :
    ∃ x, khPutBucket hash t key = some x ∧ x < t.nBuckets ∧
      (t.Live x ∧ t.keys x = key ∨
        ¬t.Live x ∧ (∀ i, t.Live i → t.keys i ≠ key) ∧ t.Reaches hash key x) := by
  obtain ⟨s, hs, hstop, hpass, hnot⟩ := exists_stop hpow key (hash key).toNat hempty
  have hpos : 0 < t.nBuckets := hpow ▸ Nat.two_pow_pos k
  have hpath : ∀ r ≤ s, ∀ r' < r, isempty t.flags (probeAt t.nBuckets (hash key).toNat r') = false :=
    fun r hr r' hr' => (hpass r' (hr'.trans_le hr)).1
  have hnew : ∀ r ≤ s, ¬t.Live (probeAt t.nBuckets (hash key).toNat r) →
      isempty t.flags (probeAt t.nBuckets (hash key).toNat s) = true →
      ¬t.Live (probeAt t.nBuckets (hash key).toNat r) ∧ (∀ i, t.Live i → t.keys i ≠ key) ∧
        t.Reaches hash key (probeAt t.nBuckets (hash key).toNat r) :=
    fun r hr hlive hend =>
      ⟨hlive, not_live_of_search rfl hreaches hpass hend, r, rfl, hpath r hr⟩
  unfold khPutBucket
  dsimp only
  rw [and_mask hpow]
  by_cases hstart : isempty t.flags (probeAt t.nBuckets (hash key).toNat 0) = true
  · refine ⟨probeAt t.nBuckets (hash key).toNat 0, if_pos hstart, probeAt_lt hpos _ _, .inr ?_⟩
    have hzero : s = 0 := by
      by_contra hne
      rw [(hpass 0 (Nat.pos_of_ne_zero hne)).1] at hstart
      cases hstart
    refine hnew 0 (Nat.zero_le s) (fun hlive => ?_) (hzero ▸ hstart)
    rw [hlive.2.1] at hstart
    cases hstart
  · obtain ⟨x, hfrom, hx⟩ := khPutFrom_cases hpow hpass hstop hnot (2 * t.nBuckets) 0 t.nBuckets
      (Nat.zero_le s) (by omega) (.inl rfl)
    refine ⟨x, (if_neg hstart).trans hfrom, ?_⟩
    rcases hx with rfl | ⟨hend, r, hr, rfl, hdel⟩
    · refine ⟨probeAt_lt hpos _ _, ?_⟩
      by_cases hend : isempty t.flags (probeAt t.nBuckets (hash key).toNat s) = true
      · refine .inr (hnew s le_rfl (fun hlive => ?_) hend)
        rw [hlive.2.1] at hend
        cases hend
      · rw [Bool.not_eq_true] at hend
        unfold Passes at hstop
        rw [hend, not_and_or, not_or, Bool.not_eq_true, not_not] at hstop
        obtain ⟨hdel, hkey⟩ := hstop.resolve_left fun hne => hne rfl
        exact .inl ⟨⟨probeAt_lt hpos _ _, hend, hdel⟩, hkey⟩
    · refine ⟨probeAt_lt hpos _ _, .inr (hnew r hr.le (fun hlive => ?_) hend)⟩
      rw [hlive.2.2] at hdel
      cases hdel

theorem Reaches.mono {t' : Khash K V} (hn : t'.nBuckets = t.nBuckets)
    (hflags : ∀ i, isempty t.flags i = false → isempty t'.flags i = false)
    (hreaches : t.Reaches hash key i) : t'.Reaches hash key i := by
  obtain ⟨s, hat, hpath⟩ := hreaches
  exact ⟨s, by rw [hn]; exact hat, fun r hr => by rw [hn]; exact hflags _ (hpath r hr)⟩

theorem isempty_putAt (t : Khash K V) (key : K) (x i : ℕ) :
    isempty (khPutAt t key x).1.flags i = (isempty t.flags i && !decide (i = x)) := by
  unfold khPutAt
  split
  · exact isempty_setIsbothFalse t.flags x i
  · split
    · exact isempty_setIsbothFalse t.flags x i
    · rename_i hempty _
      rcases eq_or_ne i x with rfl | hne
      · rw [(Bool.not_eq_true _).mp hempty, Bool.false_and]
      · rw [decide_eq_false hne, Bool.not_false, Bool.and_true]

/-- The bucket gets an entry for the key. -/
structure Stored (t t' : Khash K V) (key : K) (x : ℕ) : Prop where
  nBuckets : t'.nBuckets = t.nBuckets
  live : ∀ i, t'.Live i ↔ t.Live i ∨ i = x
  keys : t'.keys = Function.update t.keys x key
  vals : t'.vals = t.vals

theorem stored_putAt {x : ℕ} (hx : x < t.nBuckets) (hlive : ¬t.Live x) (key : K) :
    Stored t (khPutAt t key x).1 key x := by
  have hflags : ∀ i, isempty (setIsbothFalse t.flags x) i = false ∧
      isdel (setIsbothFalse t.flags x) i = false ↔
        isempty t.flags i = false ∧ isdel t.flags i = false ∨ i = x := by
    intro i
    rw [isempty_setIsbothFalse, isdel_setIsbothFalse]
    rcases eq_or_ne i x with rfl | hne
    · simp
    · simp [hne]
  have hnew : ∀ i, (i < t.nBuckets ∧ isempty (setIsbothFalse t.flags x) i = false ∧
      isdel (setIsbothFalse t.flags x) i = false) ↔ t.Live i ∨ i = x := by
    intro i
    rw [hflags i, Live, and_or_left]
    exact or_congr Iff.rfl ⟨And.right, fun heq => ⟨heq ▸ hx, heq⟩⟩
  unfold khPutAt
  split
  · exact ⟨rfl, hnew, rfl, rfl⟩
  · split
    · exact ⟨rfl, hnew, rfl, rfl⟩
    · rename_i hempty hdel
      exact absurd ⟨hx, (Bool.not_eq_true _).mp hempty, (Bool.not_eq_true _).mp hdel⟩ hlive

/-- A key that was not in the table is stored, and the counts grow with it. -/
theorem Wf.putAt {x : ℕ} (hwf : t.Wf hash) (hroom : t.nOccupied < t.upperBound)
    (hx : x < t.nBuckets) (hlive : ¬t.Live x) (hnew : ∀ i, t.Live i → t.keys i ≠ key)
    (hreaches : t.Reaches hash key x) :
    (khPutAt t key x).1.Wf hash ∧ (khPutAt t key x).1.size = t.size + 1 := by
  have hstored := stored_putAt hx hlive key
  have hempty := isempty_putAt t key x
  have hsize : (khPutAt t key x).1.size = t.size + 1 := by
    unfold khPutAt
    split
    · rfl
    · split
      · rfl
      · rename_i hused hdel
        exact absurd ⟨hx, (Bool.not_eq_true _).mp hused, (Bool.not_eq_true _).mp hdel⟩ hlive
  have hupper : (khPutAt t key x).1.upperBound = t.upperBound := by
    unfold khPutAt
    split
    · rfl
    · split <;> rfl
  have hmono : ∀ i, isempty t.flags i = false → isempty (khPutAt t key x).1.flags i = false := by
    intro i hi
    rw [hempty i, hi, Bool.false_and]
  have hoccupied : (khPutAt t key x).1.nOccupied =
      ((Finset.range t.nBuckets).filter fun i =>
        isempty (khPutAt t key x).1.flags i = false).card ∧
        (khPutAt t key x).1.nOccupied ≤ t.nOccupied + 1 := by
    by_cases hused : isempty t.flags x = true
    · have hcount : (khPutAt t key x).1.nOccupied = t.nOccupied + 1 := by
        rw [khPutAt, if_pos hused]
      refine ⟨?_, hcount.le⟩
      rw [hcount, hwf.occupied]
      refine (card_filter_add hx (by simp [hused]) fun i _ => ?_).symm
      rw [hempty i]
      rcases eq_or_ne i x with rfl | hne
      · simp
      · simp [hne]
    · have hcount : (khPutAt t key x).1.nOccupied = t.nOccupied := by
        rw [khPutAt, if_neg hused]
        split <;> rfl
      refine ⟨?_, by omega⟩
      rw [hcount, hwf.occupied]
      refine (card_filter_congr fun i _ => ?_).symm
      rw [hempty i]
      rcases eq_or_ne i x with rfl | hne
      · simp [(Bool.not_eq_true _).mp hused]
      · simp [hne]
  refine ⟨⟨?_, ?_, ?_, ?_, fun i hi => ?_, fun i j hi hj heq => ?_⟩, hsize⟩
  · unfold Sized
    rw [hstored.nBuckets, hupper]
    exact hwf.sized
  · rw [hsize, hstored.nBuckets, hwf.size]
    exact (card_filter_add hx hlive fun i _ => hstored.live i).symm
  · rw [hstored.nBuckets]
    exact hoccupied.1
  · rw [hupper]
    have hle := hoccupied.2
    omega
  · rw [hstored.keys]
    refine Reaches.mono hstored.nBuckets hmono ?_
    rcases eq_or_ne i x with rfl | hne
    · rw [Function.update_self]
      exact hreaches
    · rw [Function.update_of_ne hne]
      exact hwf.reaches i (((hstored.live i).mp hi).resolve_right hne)
  · have hold := fun k (hk : (khPutAt t key x).1.Live k) hne => ((hstored.live k).mp hk).resolve_right hne
    rw [hstored.keys] at heq
    rcases eq_or_ne i x with rfl | hiNe
    · rcases eq_or_ne j i with rfl | hjNe
      · rfl
      · rw [Function.update_self, Function.update_of_ne hjNe] at heq
        exact absurd heq.symm (hnew j (hold j hj hjNe))
    · rcases eq_or_ne j x with rfl | hjNe
      · rw [Function.update_self, Function.update_of_ne hiNe] at heq
        exact absurd heq (hnew i (hold i hi hiNe))
      · rw [Function.update_of_ne hiNe, Function.update_of_ne hjNe] at heq
        exact hwf.distinct i j (hold i hi hiNe) (hold j hj hjNe) heq

/-! ## Deleting, clearing and writing a value -/

theorem Wf.setValue (hwf : t.Wf hash) (x : ℕ) (v : V) : (khSetValue t x v).Wf hash :=
  ⟨hwf.sized, hwf.size, hwf.occupied, hwf.bound, hwf.reaches, hwf.distinct⟩

theorem live_khDel {x : ℕ} (hx : t.Live x) (i : ℕ) :
    (khDel t x).Live i ↔ t.Live i ∧ i ≠ x := by
  have hcond : x ≠ t.nBuckets ∧ iseither t.flags x = false :=
    ⟨Nat.ne_of_lt hx.1, iseither_eq_false.mpr hx.2⟩
  rw [khDel, if_pos hcond]
  unfold Live
  dsimp only
  rw [isempty_setIsdelTrue, isdel_setIsdelTrue, Bool.or_eq_false_iff, decide_eq_false_iff_not]
  tauto

/-- The entry of a bucket is deleted; the bucket stays occupied. -/
theorem Wf.del {x : ℕ} (hwf : t.Wf hash) (hx : t.Live x) :
    (khDel t x).Wf hash ∧ (khDel t x).size + 1 = t.size := by
  have hlive := live_khDel hx
  have hcond : x ≠ t.nBuckets ∧ iseither t.flags x = false :=
    ⟨Nat.ne_of_lt hx.1, iseither_eq_false.mpr hx.2⟩
  have hdel : khDel t x = { t with flags := setIsdelTrue t.flags x, size := t.size - 1 } :=
    if_pos hcond
  have hcount : ((Finset.range t.nBuckets).filter t.Live).card =
      ((Finset.range t.nBuckets).filter (khDel t x).Live).card + 1 := by
    refine card_filter_add hx.1 (fun hself => ((hlive x).mp hself).2 rfl) fun i _ => ?_
    rw [hlive i]
    rcases eq_or_ne i x with rfl | hne
    · exact ⟨fun _ => .inr rfl, fun _ => hx⟩
    · exact ⟨fun hi => .inl ⟨hi, hne⟩, fun hor => (hor.resolve_right hne).1⟩
  rw [hdel] at hlive hcount ⊢
  have hsize := hwf.size
  refine ⟨⟨hwf.sized, ?_, ?_, hwf.bound, fun i hi => ?_, fun i j hi hj => ?_⟩, ?_⟩
  · dsimp only
    omega
  · exact hwf.occupied.trans (card_filter_congr fun i _ => by rw [isempty_setIsdelTrue]).symm
  · refine Reaches.mono (t := t) rfl (fun k hk => ?_) (hwf.reaches i ((hlive i).mp hi).1)
    dsimp only
    rw [isempty_setIsdelTrue]
    exact hk
  · exact hwf.distinct i j ((hlive i).mp hi).1 ((hlive j).mp hj).1
  · dsimp only
    omega

theorem Wf.clear (hwf : t.Wf hash) :
    (khClear t).Wf hash ∧ ∀ i, ¬(khClear t).Live i := by
  unfold khClear
  split
  · rename_i hzero
    refine ⟨hwf, fun i hi => ?_⟩
    have hlt := hi.1
    omega
  · have hnone : ∀ i, ¬Live { t with flags := allEmpty, size := 0, nOccupied := 0 } i := by
      rintro i ⟨_, hused, _⟩
      rw [isempty_allEmpty] at hused
      cases hused
    refine ⟨⟨hwf.sized, ?_, ?_, Nat.zero_le _, fun i hi => absurd hi (hnone i),
      fun i _ hi => absurd hi (hnone i)⟩, hnone⟩
    · rw [Finset.filter_false_of_mem fun i _ => hnone i]
      rfl
    · rw [Finset.filter_false_of_mem fun i _ => by simp]
      rfl

theorem wf_khInit (keys : ℕ → K) (vals : ℕ → V) : (khInit keys vals).Wf hash := by
  have hnone : ∀ i, ¬(khInit keys vals).Live i := fun i hi => Nat.not_lt_zero i hi.1
  exact ⟨.inl ⟨rfl, rfl⟩, rfl, rfl, le_rfl, fun i hi => absurd hi (hnone i),
    fun i _ hi => absurd hi (hnone i)⟩

end Khash

end ArmsTiering
