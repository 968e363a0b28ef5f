import Mathlib.Algebra.Order.Ring.Rat
import Mathlib.Tactic.NormNum
import Mathlib.Tactic.Push

/-!
# The keys that the benchmark draws

`draw_key` of `workload.c` searches the cumulative distribution by bisection
and returns the midpoint it probed last.  That is the key it looks for only
where a probe hits it: once the bounds have met, the midpoint is the one of the
interval before.
-/

namespace ArmsTiering.Flexkvs.Workload

/-- `struct key` -/
structure Key where
  key : List UInt8
  keylen : ℕ
  cdf : ℚ

/-- `key_in_range`; undefined for an index out of bounds. -/
def keyInRange (keys : List Key) (n i : ℕ) (x : ℚ) : Option ℤ :=
  keys[i]?.bind fun key =>
    if x < key.cdf then
      if i = 0 then some 0
      else keys[i - 1]?.map fun before => if x ≤ before.cdf then -1 else 0
    else if key.cdf < x then
      if i = n - 1 then some 0 else some 1
    else some 0

/-- The loop of `draw_key`; undefined where it does not end within the given
rounds, reads out of bounds or lets `mid - 1` underflow. -/
def drawLoop (keys : List Key) (n : ℕ) (x : ℚ) : ℕ → ℕ → ℕ → ℕ → Option ℕ
  | 0, _, _, _ => none
  | rounds + 1, l, r, mid =>
      if l < r then
        let mid := (l + r) / 2
        (keyInRange keys n mid x).bind fun res =>
          if res < 0 then
            if mid = 0 then none else drawLoop keys n x rounds l (mid - 1) mid
          else if 0 < res then drawLoop keys n x rounds (mid + 1) r mid
          else some mid
      else some mid

/-- `draw_key` for the random number `x`: the index of the key.  A round per key
is enough. -/
def drawKey (keys : List Key) (x : ℚ) : Option ℕ :=
  drawLoop keys keys.length x keys.length 0 (keys.length - 1) 0

/-- The index that the distribution prescribes for `x`. -/
def Prescribed (keys : List Key) (x : ℚ) (i : ℕ) : Prop :=
  ∃ h : i < keys.length,
    (x ≤ keys[i].cdf ∧ ∀ (k : ℕ) (hk : k < keys.length), k + 1 = i → keys[k].cdf < x) ∨
      (i = keys.length - 1 ∧ ∀ key ∈ keys, key.cdf < x)

/-- The distribution is cumulative. -/
def Cumulative (keys : List Key) : Prop :=
  keys.Pairwise fun left right => left.cdf < right.cdf

/-- The index is the middle of an interval of at least two indices that repeated
halving makes of `l` to `r`, the middle itself being left out. -/
inductive Halved : ℕ → ℕ → ℕ → Prop
  | middle {l r : ℕ} (h : l < r) : Halved l r ((l + r) / 2)
  | left {l r i : ℕ} (h : l < r) (hi : Halved l ((l + r) / 2 - 1) i) : Halved l r i
  | right {l r i : ℕ} (h : l < r) (hi : Halved ((l + r) / 2 + 1) r i) : Halved l r i

variable {keys : List Key} {x : ℚ} {i t l r : ℕ}

theorem Halved.bounds (h : Halved l r i) : l ≤ i ∧ i ≤ r := by
  induction h with
  | middle h => omega
  | left h _ ih => omega
  | right h _ ih => omega

theorem Halved.lt (h : Halved l r i) : l < r := by
  cases h <;> assumption

theorem halved_iff (hlr : l < r) :
    Halved l r i ↔ (l + r) / 2 = i ∨ Halved l ((l + r) / 2 - 1) i ∨
      Halved ((l + r) / 2 + 1) r i := by
  constructor
  · intro h
    cases h with
    | middle _ => exact Or.inl rfl
    | left _ hi => exact Or.inr (Or.inl hi)
    | right _ hi => exact Or.inr (Or.inr hi)
  · rintro (rfl | hi | hi)
    · exact Halved.middle hlr
    · exact Halved.left hlr hi
    · exact Halved.right hlr hi

/-! ## One probe -/

theorem Cumulative.le (hcdf : Cumulative keys) {i k : ℕ} (hi : i < keys.length)
    (hk : k < keys.length) (hik : i ≤ k) : keys[i].cdf ≤ keys[k].cdf := by
  obtain rfl | hlt := Nat.eq_or_lt_of_le hik
  · exact le_rfl
  · exact (List.pairwise_iff_getElem.mp hcdf i k hi hk hlt).le

theorem Cumulative.lt (hcdf : Cumulative keys) {i k : ℕ} (hi : i < keys.length)
    (hk : k < keys.length) (hik : i < k) : keys[i].cdf < keys[k].cdf :=
  List.pairwise_iff_getElem.mp hcdf i k hi hk hik

theorem Prescribed.below (h : Prescribed keys x t) (hcdf : Cumulative keys) {k : ℕ}
    (hk : k < keys.length) (hkt : k < t) : keys[k].cdf < x := by
  obtain ⟨ht, ⟨-, hbefore⟩ | ⟨-, habove⟩⟩ := h
  · have hlast := hbefore (t - 1) (by omega) (by omega)
    exact lt_of_le_of_lt (hcdf.le hk (by omega) (by omega)) hlast
  · exact habove _ (List.getElem_mem hk)

theorem Prescribed.above (h : Prescribed keys x t) (hcdf : Cumulative keys) {k : ℕ}
    (hk : k < keys.length) (htk : t < k) :
    x < keys[k].cdf ∧ ∃ before, keys[k - 1]? = some before ∧ x ≤ before.cdf := by
  obtain ⟨ht, ⟨hle, -⟩ | ⟨hlast, -⟩⟩ := h
  · have hbefore : k - 1 < keys.length := by omega
    refine ⟨lt_of_le_of_lt hle (hcdf.lt ht hk htk), keys[k - 1],
      List.getElem?_eq_getElem hbefore, ?_⟩
    exact hle.trans (hcdf.le ht hbefore (by omega))
  · omega

/-- A probe tells on which side of it the prescribed index lies. -/
theorem keyInRange_eq (h : Prescribed keys x t) (hcdf : Cumulative keys) {k : ℕ}
    (hk : k < keys.length) :
    keyInRange keys keys.length k x = some (if t < k then -1 else if k < t then 1 else 0) := by
  have hget : keys[k]? = some keys[k] := List.getElem?_eq_getElem hk
  rw [keyInRange, hget, Option.bind_some]
  obtain hlt | rfl | hgt := lt_trichotomy k t
  · have hbelow := h.below hcdf hk hlt
    obtain ⟨ht, -⟩ := h
    rw [if_neg hbelow.not_gt, if_pos hbelow, if_neg (by omega), if_neg (by omega), if_pos hlt]
  · rw [if_neg (lt_irrefl k), if_neg (lt_irrefl k)]
    obtain ⟨_, ⟨hle, hbefore⟩ | ⟨hlast, habove⟩⟩ := h
    · by_cases hx : x < keys[k].cdf
      · rw [if_pos hx]
        split
        · rfl
        · have hback : k - 1 < keys.length := by omega
          rw [List.getElem?_eq_getElem hback, Option.map_some,
            if_neg (hbefore (k - 1) hback (by omega)).not_ge]
      · rw [if_neg hx, if_neg (not_lt.mpr hle)]
    · have hx := habove _ (List.getElem_mem hk)
      rw [if_neg hx.not_gt, if_pos hx, if_pos hlast]
  · obtain ⟨hx, before, hbefore, hle⟩ := h.above hcdf hk hgt
    rw [if_pos hx, if_neg (by omega), hbefore, Option.map_some, if_pos hle, if_pos hgt]

/-! ## The search -/

/-- The search ends within a round for each index between its bounds. -/
theorem drawLoop_isSome (h : Prescribed keys x t) (hcdf : Cumulative keys) {rounds : ℕ}
    (mid : ℕ) (hrounds : r - l < rounds) (hl : l ≤ t) (ht : t ≤ r) (hr : r < keys.length) :
    ∃ i, drawLoop keys keys.length x rounds l r mid = some i := by
  induction rounds generalizing l r mid with
  | zero => exact absurd hrounds (Nat.not_lt_zero _)
  | succ rounds ih =>
      unfold drawLoop
      by_cases hlr : l < r
      · have hprobe := keyInRange_eq h hcdf (show (l + r) / 2 < keys.length by omega)
        rw [if_pos hlr]
        dsimp only
        obtain hlt | heq | hgt := lt_trichotomy ((l + r) / 2) t
        · rw [if_neg (by omega), if_pos hlt] at hprobe
          rw [hprobe, Option.bind_some, if_neg (by decide), if_pos (by decide)]
          exact ih _ (by omega) hlt ht hr
        · rw [if_neg (by omega), if_neg (by omega)] at hprobe
          rw [hprobe, Option.bind_some, if_neg (by decide), if_neg (by decide)]
          exact ⟨_, rfl⟩
        · rw [if_pos hgt] at hprobe
          rw [hprobe, Option.bind_some, if_pos (by decide), if_neg (by omega)]
          exact ih _ (by omega) hl (by omega) (by omega)
      · rw [if_neg hlr]
        exact ⟨mid, rfl⟩

/-- The search finds the prescribed index exactly where a probe hits it. -/
theorem drawLoop_eq_iff (h : Prescribed keys x t) (hcdf : Cumulative keys) {rounds mid : ℕ}
    (hrounds : r - l < rounds) (hl : l ≤ t) (ht : t ≤ r) (hr : r < keys.length)
    (hmid : l < r ∨ mid ≠ t) :
    drawLoop keys keys.length x rounds l r mid = some t ↔ Halved l r t := by
  induction rounds generalizing l r mid with
  | zero => exact absurd hrounds (Nat.not_lt_zero _)
  | succ rounds ih =>
      unfold drawLoop
      by_cases hlr : l < r
      · have hprobe := keyInRange_eq h hcdf (show (l + r) / 2 < keys.length by omega)
        rw [if_pos hlr, halved_iff hlr]
        dsimp only
        obtain hlt | heq | hgt := lt_trichotomy ((l + r) / 2) t
        · have hleft : ¬Halved l ((l + r) / 2 - 1) t := fun hhalved => by
            have hbounds := hhalved.bounds
            omega
          rw [if_neg (by omega), if_pos hlt] at hprobe
          rw [hprobe, Option.bind_some, if_neg (by decide), if_pos (by decide),
            ih (by omega) hlt ht hr (Or.inr hlt.ne)]
          exact ⟨fun hright => Or.inr (Or.inr hright), fun hcases =>
            (hcases.resolve_left hlt.ne).resolve_left hleft⟩
        · rw [if_neg (by omega), if_neg (by omega)] at hprobe
          rw [hprobe, Option.bind_some, if_neg (by decide), if_neg (by decide), heq]
          exact ⟨fun _ => Or.inl rfl, fun _ => rfl⟩
        · have hright : ¬Halved ((l + r) / 2 + 1) r t := fun hhalved => by
            have hbounds := hhalved.bounds
            omega
          rw [if_pos hgt] at hprobe
          rw [hprobe, Option.bind_some, if_pos (by decide), if_neg (by omega),
            ih (by omega) hl (by omega) (by omega) (Or.inr hgt.ne')]
          exact ⟨fun hleft => Or.inr (Or.inl hleft), fun hcases =>
            (hcases.resolve_left hgt.ne').resolve_right hright⟩
      · rw [if_neg hlr]
        have hne := hmid.resolve_left hlr
        refine ⟨fun heq => absurd (Option.some.inj heq) hne, fun hhalved => ?_⟩
        exact absurd hhalved.lt hlr

/-- Every number has a prescribed index. -/
theorem exists_prescribed (hne : keys ≠ []) (x : ℚ) : ∃ t, Prescribed keys x t := by
  have hpos : 0 < keys.length := List.length_pos_iff.mpr hne
  by_cases hall : ∀ key ∈ keys, key.cdf < x
  · exact ⟨keys.length - 1, by omega, Or.inr ⟨rfl, hall⟩⟩
  · have hex : ∃ i, ∃ h : i < keys.length, x ≤ keys[i].cdf := by
      push Not at hall
      obtain ⟨key, hkey, hle⟩ := hall
      obtain ⟨i, hi, rfl⟩ := List.mem_iff_getElem.mp hkey
      exact ⟨i, hi, hle⟩
    classical
    obtain ⟨hi, hle⟩ := Nat.find_spec hex
    refine ⟨Nat.find hex, hi, Or.inl ⟨hle, ?_⟩⟩
    intro k hk hnext
    by_contra hge
    exact Nat.find_min hex (by omega) ⟨hk, not_lt.mp hge⟩

/-- The search returns the key that the distribution prescribes. -/
def DrawsPrescribed (keys : List Key) (x : ℚ) : Prop :=
  ∃ i, drawKey keys x = some i ∧ Prescribed keys x i

/-- The search always ends without an underflow, and it returns the prescribed
key exactly if there is only one key or its index is the middle of an interval. -/
theorem drawsPrescribed_iff (hne : keys ≠ []) (hcdf : Cumulative keys) (x : ℚ) :
    (∃ i, drawKey keys x = some i) ∧
      (DrawsPrescribed keys x ↔
        ∃ i, Prescribed keys x i ∧ (keys.length = 1 ∨ Halved 0 (keys.length - 1) i)) := by
  have hpos : 0 < keys.length := List.length_pos_iff.mpr hne
  obtain ⟨t, ht⟩ := exists_prescribed hne x
  have htlt : t < keys.length := ht.1
  constructor
  · exact drawLoop_isSome ht hcdf 0 (by omega) (Nat.zero_le t) (by omega) (by omega)
  · have hiff : ∀ i, Prescribed keys x i →
        (drawKey keys x = some i ↔ keys.length = 1 ∨ Halved 0 (keys.length - 1) i) := by
      intro i hi
      have hilt : i < keys.length := hi.1
      by_cases hone : keys.length = 1
      · have hzero : i = 0 := by omega
        have hdraw : drawKey keys x = some 0 := by
          rw [drawKey, hone]
          rfl
        simp [hone, hdraw, hzero]
      · simp only [hone, false_or]
        exact drawLoop_eq_iff hi hcdf (by omega) (Nat.zero_le i) (by omega) (by omega)
          (Or.inl (by omega))
    constructor
    · rintro ⟨i, hdraw, hi⟩
      exact ⟨i, hi, (hiff i hi).mp hdraw⟩
    · rintro ⟨i, hi, hhalved⟩
      exact ⟨i, (hiff i hi).mpr hhalved, hi⟩

/-! ## Two keys -/

def twoKeys : List Key := [⟨[1], 1, 1 / 2⟩, ⟨[2], 1, 1⟩]

theorem cumulative_twoKeys : Cumulative twoKeys := by
  refine List.pairwise_pair.mpr ?_
  norm_num

theorem drawsPrescribed_iff_twoKeys :
    (∃ i, drawKey twoKeys (1 / 4) = some i) ∧
      (DrawsPrescribed twoKeys (1 / 4) ↔
        ∃ i, Prescribed twoKeys (1 / 4) i ∧
          (twoKeys.length = 1 ∨ Halved 0 (twoKeys.length - 1) i)) :=
  drawsPrescribed_iff (List.cons_ne_nil _ _) cumulative_twoKeys (1 / 4)

/-- Of two keys the second one is never drawn. -/
theorem not_drawsPrescribed : Cumulative twoKeys ∧ ¬DrawsPrescribed twoKeys (3 / 4) := by
  refine ⟨cumulative_twoKeys, ?_⟩
  rintro ⟨i, hdraw, hi, hprescribed⟩
  have hzero : drawKey twoKeys (3 / 4) = some 0 := by decide +kernel
  obtain rfl := Option.some.inj (hzero.symm.trans hdraw)
  obtain ⟨hle, -⟩ | ⟨hlast, -⟩ := hprescribed
  · change (3 / 4 : ℚ) ≤ 1 / 2 at hle
    norm_num at hle
  · exact absurd hlast (by decide)

end ArmsTiering.Flexkvs.Workload
