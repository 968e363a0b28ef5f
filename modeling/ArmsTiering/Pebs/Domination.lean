import ArmsTiering.Pebs.PageLife
import Mathlib.Algebra.Order.Field.Rat
import Mathlib.Tactic.NormNum

/-!
# What an approved swap says about the two pages

`continue_migration` folds the smallest average of the hot page and the
largest of the cold page in one loop.  The loop starts at index 1; the hot seed
is `w[0]` and the cold seed is the last average, so for more than one window
the cold page's first average is never looked at.
-/

namespace ArmsTiering

section Bounds

variable {ι A : Type*} [LinearOrder A] (hot cold : ι → A)

/-- The body of the loop of `continue_migration` on its two running bounds. -/
def narrow (bounds : A × A) (i : ι) : A × A :=
  (if hot i < bounds.1 then hot i else bounds.1,
    if bounds.2 < cold i then cold i else bounds.2)

theorem narrow_eq (bounds : A × A) (i : ι) :
    narrow hot cold bounds i = (min (hot i) bounds.1, max bounds.2 (cold i)) := by
  rw [min_def_lt, max_def_lt]
  rfl

theorem le_foldl_narrow (indices : List ι) (bounds : A × A) (value : A) :
    value ≤ (indices.foldl (narrow hot cold) bounds).1 ↔
      value ≤ bounds.1 ∧ ∀ i ∈ indices, value ≤ hot i := by
  induction indices generalizing bounds with
  | nil => simp
  | cons index indices ih =>
      rw [List.foldl_cons, ih, narrow_eq, List.forall_mem_cons, le_min_iff, and_assoc]
      exact and_left_comm

theorem foldl_narrow_le (indices : List ι) (bounds : A × A) (value : A) :
    (indices.foldl (narrow hot cold) bounds).2 ≤ value ↔
      bounds.2 ≤ value ∧ ∀ j ∈ indices, cold j ≤ value := by
  induction indices generalizing bounds with
  | nil => simp
  | cons index indices ih =>
      rw [List.foldl_cons, ih, narrow_eq, List.forall_mem_cons, max_le_iff, and_assoc]

end Bounds

variable {n : ℕ}

local instance (priority := 2000) neZeroSucc : @NeZero ℕ Zero.ofOfNat0 (n + 1) :=
  Nat.instNeZeroSucc

/-- Every average of the hot page is at least every average of the cold one. -/
def Dominates (hp cp : ArmsPage ℚ (n + 1)) : Prop :=
  ∀ i j, cp.w j ≤ hp.w i

/-- The benefit that `continue_migration` compares with the cost. -/
def swapBenefit (costs : CostEnv ℚ) (hp cp : ArmsPage ℚ (n + 1)) : ℚ :=
  (hp.score - cp.score) * hp.hotAge * hfSamplePeriod * costs.latencyDiff

/-- The cold averages that the loop covers: all but the first, or the only one. -/
def Compared (j : Fin (n + 1)) : Prop :=
  j ≠ 0 ∨ n = 0

theorem compared_iff (j : Fin (n + 1)) :
    Compared j ↔ j = Fin.last n ∨ ∃ i : Fin n, j = i.succ := by
  constructor
  · intro hcompared
    rcases Fin.eq_zero_or_eq_succ j with hzero | hsucc
    · left
      rcases hcompared with hne | hn
      · exact absurd hzero hne
      · have hlt := j.isLt
        exact Fin.ext (by rw [Fin.val_last]; omega)
    · exact .inr hsucc
  · rintro (hlast | ⟨i, hi⟩)
    · rcases Nat.eq_zero_or_pos n with hn | hn
      · exact .inr hn
      · left
        rw [hlast]
        exact (Fin.pos_iff_ne_zero.mp (Fin.lt_def.mpr hn))
    · left
      rw [hi]
      exact Fin.succ_ne_zero i

/-- The two tests of `continue_migration`, with the averages that the first
one compares written out. -/
theorem continueMigration_iff (costs : CostEnv ℚ) (hp cp : ArmsPage ℚ (n + 1)) :
    continueMigration costs hp cp = true ↔
      (∀ i j, Compared j → cp.w j ≤ hp.w i) ∧
        migrationCost costs ≤ swapBenefit costs hp cp := by
  let bounds := (List.finRange n).foldl (narrow (fun i => hp.w i.succ) fun i => cp.w i.succ)
    (hp.w 0, cp.w (Fin.last n))
  have htests : continueMigration costs hp cp =
      (!decide (bounds.1 < bounds.2) &&
        !decide (swapBenefit costs hp cp < migrationCost costs)) := by
    have hbody : (fun (bounds : ℚ × ℚ) (i : Fin n) =>
        (if CFloat.lt (hp.w i.succ) bounds.1 then hp.w i.succ else bounds.1,
          if CFloat.lt bounds.2 (cp.w i.succ) then cp.w i.succ else bounds.2)) =
        narrow (fun i => hp.w i.succ) fun i => cp.w i.succ := by
      funext bounds i
      simp [narrow, CFloat.lt]
    rw [continueMigration, hbody]
    rfl
  have hcold : ∀ value, bounds.2 ≤ value ↔ ∀ j, Compared j → cp.w j ≤ value := by
    intro value
    rw [foldl_narrow_le]
    simp only [compared_iff, List.mem_finRange, forall_true_left]
    constructor
    · rintro ⟨hlast, hrest⟩ j (rfl | ⟨i, rfl⟩)
      · exact hlast
      · exact hrest i
    · intro hall
      exact ⟨hall _ (.inl rfl), fun i => hall _ (.inr ⟨i, rfl⟩)⟩
  have hhot : ∀ value, value ≤ bounds.1 ↔ ∀ i, value ≤ hp.w i := by
    intro value
    rw [le_foldl_narrow, Fin.forall_fin_succ]
    simp only [List.mem_finRange, forall_true_left]
  rw [htests, Bool.and_eq_true, Bool.not_eq_true', Bool.not_eq_true', decide_eq_false_iff_not,
    decide_eq_false_iff_not, not_lt, not_lt, hhot]
  refine and_congr_left fun _ => forall_congr' fun i => hcold (hp.w i)

/-- Exactly when an approval means domination: there is a single window, the
cold page's first average is below all of the hot page's, or one of the two
tests rejects the swap for another reason. -/
theorem approval_dominates_iff (costs : CostEnv ℚ) (hp cp : ArmsPage ℚ (n + 1)) :
    (continueMigration costs hp cp = true → Dominates hp cp) ↔
      n = 0 ∨ (∀ i, cp.w 0 ≤ hp.w i) ∨ (∃ i j, j ≠ 0 ∧ hp.w i < cp.w j) ∨
        swapBenefit costs hp cp < migrationCost costs := by
  rw [continueMigration_iff]
  constructor
  · intro hdominates
    by_contra hnone
    simp only [not_or, not_exists, not_and, not_lt] at hnone
    obtain ⟨hn, hfirst, hrest, hbenefit⟩ := hnone
    have hcompared : ∀ i j, Compared j → cp.w j ≤ hp.w i := by
      intro i j hj
      exact hrest i j (hj.resolve_right hn)
    exact hfirst fun i => hdominates ⟨hcompared, hbenefit⟩ i 0
  · rintro hcases ⟨hcompared, hbenefit⟩ i j
    rcases hcases with hn | hfirst | ⟨i', j', hj', hlt⟩ | hlt
    · exact hcompared i j (.inr hn)
    · by_cases hj : j = 0
      · rw [hj]
        exact hfirst i
      · exact hcompared i j (.inl hj)
    · exact absurd (hcompared i' j' (.inl hj')) hlt.not_ge
    · exact absurd hbenefit hlt.not_ge

/-- A hot page with flat averages. -/
def flatHotPage : ArmsPage ℚ windowSize :=
  { callocPage (n := windowSize) 0 false with w := ![5, 5], score := 5, hotAge := 2, canPromote := true }

/-- A cold page whose short-term average has just gone up. -/
def risingColdPage : ArmsPage ℚ windowSize :=
  { callocPage (n := windowSize) 0 true with w := ![9, 1], score := 21 / 5 }

def cheapMigration : CostEnv ℚ where
  promotionCostAvg := 600
  demotionCostAvg := 600
  latencyDiff := 1

/-- The swap is approved although the cold page's recent average is above both
of the hot page's. -/
theorem risingColdPage_swapped :
    ¬ (continueMigration cheapMigration flatHotPage risingColdPage = true →
      Dominates flatHotPage risingColdPage) := by
  have happroved : continueMigration cheapMigration flatHotPage risingColdPage = true := by
    decide +kernel
  have hrising : flatHotPage.w (0 : Fin 2) < risingColdPage.w (0 : Fin 2) := by
    decide +kernel
  intro hdominates
  exact absurd (hdominates happroved (0 : Fin 2) (0 : Fin 2)) hrising.not_ge

end ArmsTiering
