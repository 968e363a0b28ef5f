import ArmsTiering.Khash.Table
import Mathlib.Data.Nat.Log

/-!
# Rehashing

`kh_resize` works in place: an entry that is moved to the bucket of one that has not
been moved yet kicks that one out, which is moved next.
-/

namespace ArmsTiering

open KhFlags Probing

variable {K V : Type}

/-- `kroundup32` -/
def kroundup32 (x : ℕ) : ℕ :=
  let x := (x + (2 ^ 32 - 1)) % 2 ^ 32
  let x := x ||| (x >>> 1)
  let x := x ||| (x >>> 2)
  let x := x ||| (x >>> 4)
  let x := x ||| (x >>> 8)
  let x := x ||| (x >>> 16)
  (x + 1) % 2 ^ 32

/-- The number of buckets for a requested one. -/
def khNewBuckets (n : ℕ) : ℕ := if kroundup32 n < 4 then 4 else kroundup32 n

/-- The arrays while the table is rehashed. -/
structure Rehash (K V : Type) where
  flags : KhFlags
  newFlags : KhFlags
  keys : ℕ → K
  vals : ℕ → V

/-- The loop that looks for a bucket that is empty in the new table. -/
def findEmpty (newFlags : KhFlags) (newMask : ℕ) : ℕ → ℕ → ℕ → Option ℕ
  | 0, _, _ => none
  | fuel + 1, i, step =>
      if isempty newFlags i = true then some i
      else findEmpty newFlags newMask fuel ((i + (step + 1)) &&& newMask) (step + 1)

/-- The kick-out process with an entry in hand. -/
def kickOut (hash : K → UInt32) (nBuckets newMask : ℕ) :
    ℕ → Rehash K V → K → V → Option (Rehash K V)
  | 0, _, _, _ => none
  | fuel + 1, r, key, val =>
      (findEmpty r.newFlags newMask (newMask + 1) ((hash key).toNat &&& newMask) 0).bind fun i =>
        let placed : Rehash K V :=
          { r with
            newFlags := setIsemptyFalse r.newFlags i
            keys := Function.update r.keys i key
            vals := Function.update r.vals i val }
        if i < nBuckets ∧ iseither r.flags i = false then
          kickOut hash nBuckets newMask fuel { placed with flags := setIsdelTrue r.flags i }
            (r.keys i) (r.vals i)
        else some placed

/-- The loop over the first buckets of the old table. -/
def rehashFirst (hash : K → UInt32) (nBuckets newMask : ℕ) :
    ℕ → Rehash K V → Option (Rehash K V)
  | 0, r => some r
  | j + 1, r =>
      (rehashFirst hash nBuckets newMask j r).bind fun r =>
        if iseither r.flags j = false then
          kickOut hash nBuckets newMask (nBuckets + 1) { r with flags := setIsdelTrue r.flags j }
            (r.keys j) (r.vals j)
        else some r

/-- Which allocations of a call of `kh_resize` succeed. -/
structure KhAlloc where
  flags : Bool
  keys : Bool
  vals : Bool

def KhAlloc.all (alloc : KhAlloc) : Bool := alloc.flags && alloc.keys && alloc.vals

/-- `kh_resize` -/
def khResize (hash : K → UInt32) (alloc : KhAlloc) (t : Khash K V) (n : ℕ) :
    Option (Khash K V × ℤ) :=
  let newBuckets := khNewBuckets n
  if acHashUpper newBuckets ≤ t.size then some (t, 0)
  else if alloc.flags = false then some (t, -1)
  else if t.nBuckets < newBuckets ∧ (alloc.keys = false ∨ alloc.vals = false) then some (t, -1)
  else
    (rehashFirst hash t.nBuckets (newBuckets - 1) t.nBuckets
      ⟨t.flags, allEmpty, t.keys, t.vals⟩).map fun r =>
        ({ nBuckets := newBuckets
           size := t.size
           nOccupied := t.size
           upperBound := acHashUpper newBuckets
           flags := r.newFlags
           keys := r.keys
           vals := r.vals }, 0)

/-! ## Rounding up -/

/-- The bits of `z` are those of `y` and the `m - 1` below each. -/
def Smeared (y z m : ℕ) : Prop := ∀ i, z.testBit i = true ↔ ∃ j < m, y.testBit (i + j) = true

theorem Smeared.self (y : ℕ) : Smeared y y 1 := by
  intro i
  constructor
  · exact fun hbit => ⟨0, Nat.zero_lt_one, hbit⟩
  · rintro ⟨j, hj, hbit⟩
    obtain rfl := Nat.lt_one_iff.mp hj
    exact hbit

theorem Smeared.or_shift {y z m : ℕ} (hsmeared : Smeared y z m) :
    Smeared y (z ||| (z >>> m)) (m + m) := by
  intro i
  rw [Nat.testBit_or, Nat.testBit_shiftRight, Bool.or_eq_true, hsmeared i, hsmeared (m + i)]
  constructor
  · rintro (⟨j, hj, hbit⟩ | ⟨j, hj, hbit⟩)
    · exact ⟨j, by omega, hbit⟩
    · exact ⟨m + j, by omega, by rwa [show i + (m + j) = m + i + j by omega]⟩
  · rintro ⟨j, hj, hbit⟩
    by_cases hlow : j < m
    · exact .inl ⟨j, hlow, hbit⟩
    · exact .inr ⟨j - m, by omega, by rwa [show m + i + (j - m) = i + j by omega]⟩

/-- All bits below the highest one are set. -/
theorem Smeared.eq_two_pow_sub_one {y z k : ℕ} (hsmeared : Smeared y z 32) (hlow : 2 ^ k ≤ y)
    (hhigh : y < 2 ^ (k + 1)) (hk : k < 32) : z = 2 ^ (k + 1) - 1 := by
  refine Nat.eq_of_testBit_eq fun i => ?_
  rw [Nat.testBit_two_pow_sub_one, Bool.eq_iff_iff, hsmeared i, decide_eq_true_iff]
  constructor
  · rintro ⟨j, _, hbit⟩
    by_contra hle
    have hpow : 2 ^ (k + 1) ≤ 2 ^ (i + j) := Nat.pow_le_pow_right Nat.two_pos (by omega)
    rw [Nat.testBit_lt_two_pow (hhigh.trans_le hpow)] at hbit
    cases hbit
  · intro hi
    refine ⟨k - i, by omega, ?_⟩
    rw [Nat.add_sub_cancel' (by omega)]
    exact Nat.testBit_of_two_pow_le_and_two_pow_add_one_gt hlow hhigh

theorem kroundup32_succ {y k : ℕ} (hlow : 2 ^ k ≤ y) (hhigh : y < 2 ^ (k + 1)) (hk : k < 31) :
    kroundup32 (y + 1) = 2 ^ (k + 1) := by
  have hle : 2 ^ (k + 1) ≤ 2 ^ 31 := Nat.pow_le_pow_right Nat.two_pos (by omega)
  have hpos := Nat.two_pow_pos (k + 1)
  have hfirst : (y + 1 + (2 ^ 32 - 1)) % 2 ^ 32 = y := by omega
  have hsmeared := (((((Smeared.self y).or_shift).or_shift).or_shift).or_shift).or_shift
  have hz := hsmeared.eq_two_pow_sub_one hlow hhigh (by omega)
  unfold kroundup32
  rw [hfirst]
  dsimp only
  rw [hz, Nat.sub_add_cancel hpos, Nat.mod_eq_of_lt (by omega)]

/-- The number of buckets is a power of two, and enough. -/
theorem khNewBuckets_pow {n : ℕ} (hn : n ≤ 2 ^ 31) :
    ∃ k, 2 ≤ k ∧ k ≤ 31 ∧ khNewBuckets n = 2 ^ k ∧ n ≤ 2 ^ k := by
  by_cases hsmall : n ≤ 4
  · have hfour : ∀ n ≤ 4, khNewBuckets n = 2 ^ 2 := by decide
    exact ⟨2, le_rfl, by decide, hfour n hsmall, hsmall⟩
  · obtain ⟨y, rfl⟩ := Nat.exists_eq_succ_of_ne_zero (show n ≠ 0 by omega)
    have hpos : y ≠ 0 := by omega
    have hlow := Nat.pow_log_le_self 2 hpos
    have hhigh := Nat.lt_pow_succ_log_self Nat.one_lt_two y
    have hk : Nat.log 2 y < 31 := Nat.log_lt_of_lt_pow hpos (by omega)
    have hk2 : 2 ≤ Nat.log 2 y := Nat.le_log_of_pow_le Nat.one_lt_two (by omega)
    have hround := kroundup32_succ hlow hhigh hk
    have hfour : 4 ≤ 2 ^ (Nat.log 2 y + 1) := Khash.four_le (by omega)
    refine ⟨Nat.log 2 y + 1, by omega, by omega, ?_, hhigh⟩
    rw [khNewBuckets, Nat.succ_eq_add_one, hround, if_neg (by omega)]

/-! ## The kick-out process -/

namespace Rehash

/-- The bucket has an entry that is still to be moved. -/
def Old (n : ℕ) (r : Rehash K V) (i : ℕ) : Prop :=
  i < n ∧ isempty r.flags i = false ∧ isdel r.flags i = false

/-- The bucket has an entry of the new table. -/
def New (n : ℕ) (r : Rehash K V) (i : ℕ) : Prop := i < n ∧ isempty r.newFlags i = false

instance (n : ℕ) (r : Rehash K V) (i : ℕ) : Decidable (r.Old n i) :=
  inferInstanceAs (Decidable (_ ∧ _ ∧ _))

instance (n : ℕ) (r : Rehash K V) (i : ℕ) : Decidable (r.New n i) :=
  inferInstanceAs (Decidable (_ ∧ _))

/-- The entries of the table are those in its buckets and those in hand.  The
moved ones can be found in the new table. -/
structure Inv (hash : K → UInt32) (n newBuckets size : ℕ) (entries : K → V → Prop)
    (r : Rehash K V) (hand : List (K × V)) : Prop where
  apart : ∀ i, r.Old n i → ¬r.New newBuckets i
  fresh : ∀ i, isdel r.newFlags i = false
  entries : ∀ key v, entries key v ↔
    (∃ i, (r.Old n i ∨ r.New newBuckets i) ∧ r.keys i = key ∧ r.vals i = v) ∨ (key, v) ∈ hand
  distinct : ∀ i j, r.Old n i ∨ r.New newBuckets i → r.Old n j ∨ r.New newBuckets j →
    r.keys i = r.keys j → i = j
  handDistinct : (hand.map Prod.fst).Nodup
  handNew : ∀ e ∈ hand, ∀ i, r.Old n i ∨ r.New newBuckets i → r.keys i ≠ e.1
  reaches : ∀ i, r.New newBuckets i → ∃ s, probeAt newBuckets (hash (r.keys i)).toNat s = i ∧
    ∀ q < s, isempty r.newFlags (probeAt newBuckets (hash (r.keys i)).toNat q) = false
  count : ((Finset.range n).filter (r.Old n)).card +
    ((Finset.range newBuckets).filter (r.New newBuckets)).card + hand.length = size

variable {hash : K → UInt32} {n newBuckets size k i : ℕ} {entries : K → V → Prop}
  {r : Rehash K V} {hand extra : List (K × V)} {key : K} {val : V}

theorem old_setIsdelTrue (r : Rehash K V) (i j : ℕ) :
    Old n { r with flags := setIsdelTrue r.flags i } j ↔ r.Old n j ∧ j ≠ i := by
  unfold Old
  dsimp only
  rw [isempty_setIsdelTrue, isdel_setIsdelTrue, Bool.or_eq_false_iff, decide_eq_false_iff_not]
  tauto

/-- An entry that has not been moved is taken in hand. -/
theorem Inv.take (hinv : Inv hash n newBuckets size entries r hand) (hold : r.Old n i) :
    Inv hash n newBuckets size entries { r with flags := setIsdelTrue r.flags i }
        ((r.keys i, r.vals i) :: hand) ∧
      ((Finset.range n).filter (Old n { r with flags := setIsdelTrue r.flags i })).card + 1 =
        ((Finset.range n).filter (r.Old n)).card := by
  have hiff := old_setIsdelTrue (n := n) r i
  have hstored : ∀ j, Old n { r with flags := setIsdelTrue r.flags i } j ∨ r.New newBuckets j ↔
      (r.Old n j ∨ r.New newBuckets j) ∧ j ≠ i := by
    intro j
    rw [hiff j]
    constructor
    · rintro (⟨hj, hne⟩ | hj)
      · exact ⟨.inl hj, hne⟩
      · exact ⟨.inr hj, fun heq => hinv.apart i hold (heq ▸ hj)⟩
    · rintro ⟨hj | hj, hne⟩
      · exact .inl ⟨hj, hne⟩
      · exact .inr hj
  have hcard : ((Finset.range n).filter (r.Old n)).card =
      ((Finset.range n).filter (Old n { r with flags := setIsdelTrue r.flags i })).card + 1 := by
    refine card_filter_add hold.1 (fun hself => ((hiff i).mp hself).2 rfl) fun j _ => ?_
    rw [hiff j]
    rcases eq_or_ne j i with rfl | hne
    · exact ⟨fun _ => .inr rfl, fun _ => hold⟩
    · exact ⟨fun hj => .inl ⟨hj, hne⟩, fun hor => (hor.resolve_right hne).1⟩
  refine ⟨⟨fun j hj => hinv.apart j ((hiff j).mp hj).1, hinv.fresh, fun key v => ?_,
    fun j l hj hl => hinv.distinct j l ((hstored j).mp hj).1 ((hstored l).mp hl).1, ?_,
    fun e he j hj => ?_, hinv.reaches, ?_⟩, hcard.symm⟩
  · rw [hinv.entries key v, List.mem_cons]
    constructor
    · rintro (⟨j, hj, hkey, hval⟩ | hmem)
      · rcases eq_or_ne j i with rfl | hne
        · exact .inr (.inl (by rw [hkey, hval]))
        · exact .inl ⟨j, (hstored j).mpr ⟨hj, hne⟩, hkey, hval⟩
      · exact .inr (.inr hmem)
    · rintro (⟨j, hj, hkey, hval⟩ | heq | hmem)
      · exact .inl ⟨j, ((hstored j).mp hj).1, hkey, hval⟩
      · obtain ⟨hkey, hval⟩ := Prod.mk.inj heq
        exact .inl ⟨i, .inl hold, hkey.symm, hval.symm⟩
      · exact .inr hmem
  · rw [List.map_cons, List.nodup_cons]
    refine ⟨fun hmem => ?_, hinv.handDistinct⟩
    obtain ⟨e, he, hkey⟩ := List.mem_map.mp hmem
    exact hinv.handNew e he i (.inl hold) hkey.symm
  · obtain ⟨hj, hne⟩ := (hstored j).mp hj
    rcases List.mem_cons.mp he with rfl | he
    · exact fun heq => hne (hinv.distinct j i hj (.inl hold) heq)
    · exact hinv.handNew e he j hj
  · have hcount := hinv.count
    rw [hcard] at hcount
    rw [List.length_cons]
    exact Eq.trans (by ac_rfl) hcount

/-- The last entry in hand is put into a bucket that is empty in the new table. -/
theorem Inv.place (hinv : Inv hash n newBuckets size entries r (extra ++ [(key, val)]))
    (hi : i < newBuckets) (hempty : isempty r.newFlags i = true) (hold : ¬r.Old n i)
    (hpath : ∃ s, probeAt newBuckets (hash key).toNat s = i ∧
      ∀ q < s, isempty r.newFlags (probeAt newBuckets (hash key).toNat q) = false) :
    Inv hash n newBuckets size entries
      { r with
        newFlags := setIsemptyFalse r.newFlags i
        keys := Function.update r.keys i key
        vals := Function.update r.vals i val } extra := by
  have hnewIff : ∀ j, j < newBuckets ∧ isempty (setIsemptyFalse r.newFlags i) j = false ↔
      r.New newBuckets j ∨ j = i := by
    intro j
    rw [isempty_setIsemptyFalse, New]
    rcases eq_or_ne j i with rfl | hne
    · simp [hi]
    · simp [hne]
  have hstored : ∀ j, r.Old n j ∨ (j < newBuckets ∧ isempty (setIsemptyFalse r.newFlags i) j = false) ↔
      (r.Old n j ∨ r.New newBuckets j) ∨ j = i := by
    intro j
    rw [hnewIff j, or_assoc]
  have hnot : ¬(r.Old n i ∨ r.New newBuckets i) := by
    rintro (hi | ⟨_, hi⟩)
    · exact hold hi
    · rw [hempty] at hi
      cases hi
  have hlast : (key, val) ∈ extra ++ [(key, val)] := List.mem_append_right _ List.mem_cons_self
  have hmono : ∀ j, isempty r.newFlags j = false →
      isempty (setIsemptyFalse r.newFlags i) j = false := by
    intro j hj
    rw [isempty_setIsemptyFalse, hj, Bool.false_and]
  have hkeyOther : ∀ j, j ≠ i → Function.update r.keys i key j = r.keys j :=
    fun j hj => Function.update_of_ne hj ..
  have hdistinct := hinv.handDistinct
  rw [List.map_append, List.nodup_append] at hdistinct
  refine ⟨fun j hj hnew => ?_, fun j => ?_, fun k v => ?_, fun j l hj hl heq => ?_,
    hdistinct.1, fun e he j hj => ?_, fun j hj => ?_, ?_⟩
  · rcases (hnewIff j).mp hnew with hnew | rfl
    · exact hinv.apart j hj hnew
    · exact hold hj
  · dsimp only
    rw [isdel_setIsemptyFalse]
    exact hinv.fresh j
  · rw [hinv.entries k v, List.mem_append, List.mem_singleton]
    constructor
    · rintro (⟨j, hj, hkey, hval⟩ | hmem | heq)
      · have hne : j ≠ i := fun heq => hnot (heq ▸ hj)
        refine .inl ⟨j, (hstored j).mpr (.inl hj), ?_, ?_⟩
        · exact (Function.update_of_ne hne ..).trans hkey
        · exact (Function.update_of_ne hne ..).trans hval
      · exact .inr hmem
      · obtain ⟨rfl, rfl⟩ := Prod.mk.inj heq
        exact .inl ⟨i, (hstored i).mpr (.inr rfl), Function.update_self .., Function.update_self ..⟩
    · rintro (⟨j, hj, hkey, hval⟩ | hmem)
      · rcases (hstored j).mp hj with hkept | rfl
        · have hne : j ≠ i := fun heq => hnot (heq ▸ hkept)
          refine .inl ⟨j, hkept, ?_, ?_⟩
          · exact (Function.update_of_ne hne ..).symm.trans hkey
          · exact (Function.update_of_ne hne ..).symm.trans hval
        · have hkeySelf : key = k := (Function.update_self ..).symm.trans hkey
          have hvalSelf : val = v := (Function.update_self ..).symm.trans hval
          exact .inr (.inr (by rw [hkeySelf, hvalSelf]))
      · exact .inr (.inl hmem)
  · dsimp only at heq
    have hself : ∀ l, r.Old n l ∨ r.New newBuckets l → r.keys l ≠ key :=
      hinv.handNew _ hlast
    rcases (hstored j).mp hj with hjKept | rfl
    · have hjNe : j ≠ i := fun heq => hnot (heq ▸ hjKept)
      rcases (hstored l).mp hl with hlKept | rfl
      · have hlNe : l ≠ i := fun heq => hnot (heq ▸ hlKept)
        rw [hkeyOther j hjNe, hkeyOther l hlNe] at heq
        exact hinv.distinct j l hjKept hlKept heq
      · rw [hkeyOther j hjNe, Function.update_self] at heq
        exact absurd heq (hself j hjKept)
    · rcases (hstored l).mp hl with hlKept | rfl
      · have hlNe : l ≠ j := fun heq => hnot (heq ▸ hlKept)
        rw [hkeyOther l hlNe, Function.update_self] at heq
        exact absurd heq.symm (hself l hlKept)
      · rfl
  · dsimp only
    rcases (hstored j).mp hj with hkept | rfl
    · rw [hkeyOther j fun heq => hnot (heq ▸ hkept)]
      exact hinv.handNew e (List.mem_append_left _ he) j hkept
    · rw [Function.update_self]
      exact fun heq => hdistinct.2.2 _ (List.mem_map_of_mem he) _ List.mem_cons_self heq.symm
  · dsimp only
    rcases (hnewIff j).mp hj with hkept | rfl
    · rw [hkeyOther j fun heq => hnot (heq ▸ .inr hkept)]
      obtain ⟨s, hat, hbefore⟩ := hinv.reaches j hkept
      exact ⟨s, hat, fun q hq => hmono _ (hbefore q hq)⟩
    · rw [Function.update_self]
      obtain ⟨s, hat, hbefore⟩ := hpath
      exact ⟨s, hat, fun q hq => hmono _ (hbefore q hq)⟩
  · have hcount := hinv.count
    rw [List.length_append, List.length_singleton] at hcount
    have hadd := card_filter_add hi (fun hnew => hnot (.inr hnew)) fun j _ => hnewIff j
    have hgoal : ((Finset.range newBuckets).filter fun j =>
        j < newBuckets ∧ isempty (setIsemptyFalse r.newFlags i) j = false).card =
          ((Finset.range newBuckets).filter (r.New newBuckets)).card + 1 := hadd
    change ((Finset.range n).filter (r.Old n)).card +
      ((Finset.range newBuckets).filter fun j =>
        j < newBuckets ∧ isempty (setIsemptyFalse r.newFlags i) j = false).card + extra.length = size
    rw [hgoal]
    omega

/-- The search for an empty bucket ends. -/
theorem findEmpty_spec {newFlags : KhFlags} (hempty : ∃ i < 2 ^ k, isempty newFlags i = true)
    (start : ℕ) : ∃ s, probeAt (2 ^ k) start s < 2 ^ k ∧
      isempty newFlags (probeAt (2 ^ k) start s) = true ∧
      (∀ q < s, isempty newFlags (probeAt (2 ^ k) start q) = false) ∧
      findEmpty newFlags (2 ^ k - 1) (2 ^ k - 1 + 1) (start &&& (2 ^ k - 1)) 0 =
        some (probeAt (2 ^ k) start s) := by
  obtain ⟨i, hi, hflag⟩ := hempty
  obtain ⟨s, hs, hfirst, hbefore, _⟩ :=
    exists_first (fun i => isempty newFlags i = true) start hi hflag
  have hused : ∀ q < s, isempty newFlags (probeAt (2 ^ k) start q) = false :=
    fun q hq => (Bool.not_eq_true _).mp (hbefore q hq)
  have hfrom : ∀ fuel step, step ≤ s → s - step < fuel →
      findEmpty newFlags (2 ^ k - 1) fuel (probeAt (2 ^ k) start step) step =
        some (probeAt (2 ^ k) start s) := by
    intro fuel
    induction fuel with
    | zero => intro step _ hfuel; omega
    | succ fuel ih =>
        intro step hstep hfuel
        rw [findEmpty]
        rcases Nat.lt_or_eq_of_le hstep with hlt | rfl
        · rw [hused step hlt, if_neg Bool.false_ne_true, Nat.and_two_pow_sub_one_eq_mod,
            probeAt_succ]
          exact ih (step + 1) hlt (by omega)
        · rw [if_pos hfirst]
  refine ⟨s, probeAt_lt (Nat.two_pow_pos k) start s, hfirst, hused, ?_⟩
  rw [Nat.and_two_pow_sub_one_eq_mod]
  exact hfrom _ 0 (Nat.zero_le s) (by omega)

theorem Inv.exists_isempty (hinv : Inv hash n newBuckets size entries r [(key, val)])
    (hsize : size < newBuckets) : ∃ i < newBuckets, isempty r.newFlags i = true := by
  refine Khash.exists_isempty ?_
  have hcount := hinv.count
  have hcongr : ((Finset.range newBuckets).filter (r.New newBuckets)).card =
      ((Finset.range newBuckets).filter fun i => isempty r.newFlags i = false).card :=
    card_filter_congr fun i hi => and_iff_right hi
  rw [List.length_singleton] at hcount
  omega

/-- The kick-out process ends with all entries in buckets. -/
theorem Inv.kickOut (hsize : size < 2 ^ k) (fuel : ℕ)
    (hinv : Inv hash n (2 ^ k) size entries r [(key, val)])
    (hfuel : ((Finset.range n).filter (r.Old n)).card < fuel) :
    ∃ r', kickOut hash n (2 ^ k - 1) fuel r key val = some r' ∧
      Inv hash n (2 ^ k) size entries r' [] ∧ ∀ i, r'.Old n i → r.Old n i := by
  induction fuel generalizing r key val with
  | zero => omega
  | succ fuel ih =>
      obtain ⟨s, hlt, hempty, hbefore, hfind⟩ :=
        findEmpty_spec (hinv.exists_isempty hsize) (hash key).toNat
      rw [ArmsTiering.kickOut, hfind, Option.bind_some]
      by_cases hold : r.Old n (probeAt (2 ^ k) (hash key).toNat s)
      · have hcond : probeAt (2 ^ k) (hash key).toNat s < n ∧
            iseither r.flags (probeAt (2 ^ k) (hash key).toNat s) = false := by
          rw [iseither_eq, hold.2.1, hold.2.2]
          exact ⟨hold.1, rfl⟩
        obtain ⟨htaken, hcard⟩ := hinv.take hold
        have hleft : ¬Old n { r with flags := setIsdelTrue r.flags (probeAt (2 ^ k) (hash key).toNat s) }
            (probeAt (2 ^ k) (hash key).toNat s) :=
          fun hself => ((old_setIsdelTrue r _ _).mp hself).2 rfl
        have hhand : ∀ e : K × V, [e, (key, val)] = [e] ++ [(key, val)] := fun _ => rfl
        rw [hhand] at htaken
        have hplaced := htaken.place hlt hempty hleft ⟨s, rfl, hbefore⟩
        have hless : ((Finset.range n).filter (Old n { r with
            flags := setIsdelTrue r.flags (probeAt (2 ^ k) (hash key).toNat s) })).card < fuel := by
          omega
        obtain ⟨r', hkick, hinv', hkept⟩ := ih hplaced hless
        refine ⟨r', (if_pos hcond).trans hkick, hinv', fun i hi => ?_⟩
        exact ((old_setIsdelTrue r _ i).mp (hkept i hi)).1
      · have hcond : ¬(probeAt (2 ^ k) (hash key).toNat s < n ∧
            iseither r.flags (probeAt (2 ^ k) (hash key).toNat s) = false) := by
          rw [iseither_eq, Bool.or_eq_false_iff]
          exact hold
        have hhand : [(key, val)] = [] ++ [(key, val)] := rfl
        rw [hhand] at hinv
        have hplaced := hinv.place hlt hempty hold ⟨s, rfl, hbefore⟩
        exact ⟨_, if_neg hcond, hplaced, fun i hi => hi⟩

/-- After the loop over the first buckets none of them has an entry to be moved. -/
theorem Inv.rehashFirst (hsize : size < 2 ^ k)
    (hinv : Inv hash n (2 ^ k) size entries r []) (j : ℕ) (hj : j ≤ n) :
    ∃ r', rehashFirst hash n (2 ^ k - 1) j r = some r' ∧
      Inv hash n (2 ^ k) size entries r' [] ∧ ∀ i < j, ¬r'.Old n i := by
  induction j with
  | zero => exact ⟨r, rfl, hinv, fun i hi => absurd hi (Nat.not_lt_zero i)⟩
  | succ j ih =>
      obtain ⟨r₁, hfirst, hinv₁, hmoved⟩ := ih (by omega)
      rw [ArmsTiering.rehashFirst, hfirst, Option.bind_some]
      by_cases hold : r₁.Old n j
      · have hcond : iseither r₁.flags j = false := by
          rw [iseither_eq, hold.2.1, hold.2.2]
          rfl
        obtain ⟨htaken, hcard⟩ := hinv₁.take hold
        have hle := Finset.card_filter_le (Finset.range n) (r₁.Old n)
        rw [Finset.card_range] at hle
        obtain ⟨r', hkick, hinv', hkept⟩ := htaken.kickOut hsize (n + 1) (by omega)
        refine ⟨r', (if_pos hcond).trans hkick, hinv', fun i hi hi' => ?_⟩
        obtain ⟨hiOld, hne⟩ := (old_setIsdelTrue r₁ j i).mp (hkept i hi')
        exact hmoved i (by omega) hiOld
      · have hcond : ¬iseither r₁.flags j = false := by
          rw [iseither_eq, Bool.or_eq_false_iff]
          exact fun hflags => hold ⟨by omega, hflags⟩
        refine ⟨r₁, if_neg hcond, hinv₁, fun i hi hi' => ?_⟩
        rcases Nat.lt_succ_iff_lt_or_eq.mp hi with hlt | rfl
        · exact hmoved i hlt hi'
        · exact hold hi'

end Rehash

/-! ## Resizing -/

namespace Khash

variable {hash : K → UInt32} {t : Khash K V}

/-- The state in which the loop of `kh_resize` starts. -/
theorem Wf.rehashInv (hwf : t.Wf hash) (newBuckets : ℕ) :
    Rehash.Inv hash t.nBuckets newBuckets t.size t.Holds ⟨t.flags, allEmpty, t.keys, t.vals⟩ [] := by
  have hnone : ∀ i, ¬Rehash.New newBuckets
      (⟨t.flags, allEmpty, t.keys, t.vals⟩ : Rehash K V) i := by
    rintro i ⟨_, hused⟩
    rw [isempty_allEmpty] at hused
    cases hused
  refine ⟨fun i _ => hnone i, isdel_allEmpty, fun key v => ?_, fun i j hi hj => ?_, List.nodup_nil,
    nofun, fun i hi => absurd hi (hnone i), ?_⟩
  · constructor
    · rintro ⟨i, hlive, hkey, hval⟩
      exact .inl ⟨i, .inl hlive, hkey, hval⟩
    · rintro (⟨i, hi, hkey, hval⟩ | hmem)
      · exact ⟨i, hi.resolve_right (hnone i), hkey, hval⟩
      · cases hmem
  · exact hwf.distinct i j (hi.resolve_right (hnone i)) (hj.resolve_right (hnone j))
  · rw [Finset.filter_false_of_mem fun i _ => hnone i, hwf.size]
    rfl

/-- `kh_resize` keeps the entries, whatever size is asked for and whichever
allocations succeed.  It makes room, or returns -1, or leaves the table alone. -/
theorem Wf.khResize (hwf : t.Wf hash) (alloc : KhAlloc) {n : ℕ} (hn : n ≤ 2 ^ 31) :
    ∃ t' ret, khResize hash alloc t n = some (t', ret) ∧ t'.Wf hash ∧ t'.size = t.size ∧
      (∀ key v, t'.Holds key v ↔ t.Holds key v) ∧
      (t' = t ∧ (ret = -1 ∧ alloc.all = false ∨
          ret = 0 ∧ acHashUpper (khNewBuckets n) ≤ t.size) ∨
        ret = 0 ∧ t'.nBuckets = khNewBuckets n ∧ t'.nOccupied = t.size ∧
          t'.upperBound = acHashUpper (khNewBuckets n) ∧ t.size < t'.upperBound) := by
  obtain ⟨k, hk, hk31, hpow, _⟩ := khNewBuckets_pow hn
  unfold ArmsTiering.khResize
  dsimp only
  by_cases hlarge : acHashUpper (khNewBuckets n) ≤ t.size
  · rw [if_pos hlarge]
    exact ⟨t, 0, rfl, hwf, rfl, fun _ _ => Iff.rfl, .inl ⟨rfl, .inr ⟨rfl, hlarge⟩⟩⟩
  · rw [if_neg hlarge]
    by_cases hflags : alloc.flags = false
    · rw [if_pos hflags]
      have hall : alloc.all = false := by rw [KhAlloc.all, hflags, Bool.false_and, Bool.false_and]
      exact ⟨t, -1, rfl, hwf, rfl, fun _ _ => Iff.rfl, .inl ⟨rfl, .inl ⟨rfl, hall⟩⟩⟩
    · rw [if_neg hflags]
      split
      · rename_i hfail
        have hall : alloc.all = false := by
          rcases hfail.2 with hkeys | hvals
          · rw [KhAlloc.all, hkeys, Bool.and_false, Bool.false_and]
          · rw [KhAlloc.all, hvals, Bool.and_false]
        exact ⟨t, -1, rfl, hwf, rfl, fun _ _ => Iff.rfl, .inl ⟨rfl, .inl ⟨rfl, hall⟩⟩⟩
      · have hupper := acHashUpper_lt (four_le hk)
        rw [hpow] at hlarge ⊢
        have hsize : t.size < 2 ^ k := by omega
        obtain ⟨r, hrehash, hinv, hmoved⟩ :=
          (hwf.rehashInv (2 ^ k)).rehashFirst hsize t.nBuckets le_rfl
        rw [hrehash, Option.map_some]
        have hnone : ∀ i, ¬r.Old t.nBuckets i := fun i hi => hmoved i hi.1 hi
        have hstored : ∀ i, i < 2 ^ k ∧ isempty r.newFlags i = false ∧ isdel r.newFlags i = false ↔
            r.Old t.nBuckets i ∨ r.New (2 ^ k) i := by
          intro i
          rw [hinv.fresh i]
          exact ⟨fun hi => .inr ⟨hi.1, hi.2.1⟩, fun hor =>
            have hi := hor.resolve_left (hnone i)
            ⟨hi.1, hi.2, rfl⟩⟩
        have hcount := hinv.count
        rw [Finset.filter_false_of_mem fun i _ => hnone i] at hcount
        have hnew : t.size = ((Finset.range (2 ^ k)).filter (r.New (2 ^ k))).card := by
          rw [← hcount]
          simp
        refine ⟨_, 0, rfl, ⟨.inr ⟨k, hk, hk31, rfl, rfl⟩, ?_, ?_, ?_, fun i hi => ?_,
          fun i j hi hj => ?_⟩, rfl, fun key v => ?_, .inr ⟨rfl, rfl, rfl, rfl, ?_⟩⟩
        · refine hnew.trans (card_filter_congr fun i _ => ?_)
          exact ⟨fun hi => ⟨hi.1, hi.2, hinv.fresh i⟩, fun hi => ⟨hi.1, hi.2.1⟩⟩
        · refine hnew.trans (card_filter_congr fun i hi => ?_)
          exact and_iff_right hi
        · dsimp only
          omega
        · exact hinv.reaches i (((hstored i).mp hi).resolve_left (hnone i))
        · exact hinv.distinct i j ((hstored i).mp hi) ((hstored j).mp hj)
        · rw [hinv.entries key v]
          constructor
          · rintro ⟨i, hi, hkey, hval⟩
            exact .inl ⟨i, (hstored i).mp hi, hkey, hval⟩
          · rintro (⟨i, hi, hkey, hval⟩ | hmem)
            · exact ⟨i, (hstored i).mpr hi, hkey, hval⟩
            · cases hmem
        · dsimp only
          omega

end Khash

end ArmsTiering
