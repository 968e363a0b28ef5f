import Mathlib.Data.Finset.Card
import Mathlib.Data.Fintype.EquivFin
import Mathlib.Data.Nat.ModEq
import Mathlib.Data.Nat.Prime.Basic
import Mathlib.Tactic.Linarith
import Mathlib.Tactic.Ring

/-!
# Triangular probing

A table with `2 ^ k` buckets is searched from a first bucket with steps of
length 1, 2, 3, and so on.  The first `2 ^ k` buckets that are looked at are all
the buckets.
-/

namespace ArmsTiering.Probing

/-- The sum of the first step lengths. -/
def triangular : ℕ → ℕ
  | 0 => 0
  | s + 1 => triangular s + (s + 1)

/-- The bucket that is looked at after `s` steps. -/
def probeAt (buckets start s : ℕ) : ℕ := (start + triangular s) % buckets

theorem two_mul_triangular (s : ℕ) : 2 * triangular s = s * (s + 1) := by
  induction s with
  | zero => rfl
  | succ s ih =>
      rw [triangular, Nat.mul_add, ih]
      ring

variable {buckets start s t k : ℕ}

theorem probeAt_lt (hpos : 0 < buckets) (start s : ℕ) : probeAt buckets start s < buckets :=
  Nat.mod_lt _ hpos

theorem probeAt_succ (buckets start s : ℕ) :
    (probeAt buckets start s + (s + 1)) % buckets = probeAt buckets start (s + 1) := by
  unfold probeAt
  rw [Nat.mod_add_mod, triangular, Nat.add_assoc]

/-- A power of two divides one of two factors of which one is odd. -/
theorem two_pow_dvd_of_dvd_mul {a b : ℕ} (hdvd : 2 ^ k ∣ a * b) (hodd : Odd a ∨ Odd b) :
    2 ^ k ∣ a ∨ 2 ^ k ∣ b := by
  rcases hodd with ha | hb
  · exact .inr ((ha.coprime_two_left.pow_left k).dvd_of_dvd_mul_left hdvd)
  · exact .inl ((hb.coprime_two_left.pow_left k).dvd_of_dvd_mul_right hdvd)

theorem odd_or_odd_of_add {a b : ℕ} (hsum : Odd (a + b)) : Odd a ∨ Odd b := by
  by_contra hnone
  rw [not_or, Nat.not_odd_iff_even, Nat.not_odd_iff_even] at hnone
  exact Nat.not_even_iff_odd.mpr hsum (hnone.1.add hnone.2)

/-- Two step numbers that lead to one bucket. -/
theorem dvd_of_probeAt_eq (hst : s ≤ t)
    (heq : probeAt (2 ^ k) start s = probeAt (2 ^ k) start t) :
    2 ^ (k + 1) ∣ (t - s) * (t + s + 1) := by
  have hmod : triangular s ≡ triangular t [MOD 2 ^ k] := Nat.ModEq.add_left_cancel' start heq
  have hdouble := hmod.mul_left' 2
  rw [two_mul_triangular, two_mul_triangular, ← Nat.pow_succ'] at hdouble
  have hfactor : t * (t + 1) - s * (s + 1) = (t - s) * (t + s + 1) := by
    obtain ⟨d, rfl⟩ := Nat.exists_eq_add_of_le hst
    rw [Nat.add_sub_cancel_left, Nat.sub_eq_iff_eq_add (by nlinarith)]
    ring
  rw [← hfactor]
  exact (Nat.modEq_iff_dvd' (by nlinarith)).mp hdouble

/-- The first `2 ^ k` buckets are different ones. -/
theorem probeAt_inj (hs : s < 2 ^ k) (ht : t < 2 ^ k)
    (heq : probeAt (2 ^ k) start s = probeAt (2 ^ k) start t) : s = t := by
  wlog hst : s ≤ t generalizing s t
  · exact (this ht hs heq.symm (by omega)).symm
  have hdvd := dvd_of_probeAt_eq hst heq
  have hpow : 2 ^ (k + 1) = 2 * 2 ^ k := Nat.pow_succ'
  have hodd : Odd (t - s) ∨ Odd (t + s + 1) := by
    refine odd_or_odd_of_add ⟨t, ?_⟩
    omega
  rcases two_pow_dvd_of_dvd_mul hdvd hodd with hleft | hright
  · have hzero := Nat.eq_zero_of_dvd_of_lt hleft (by omega)
    omega
  · have hle := Nat.le_of_dvd (by omega) hright
    omega

/-- The first `2 ^ k` buckets are all the buckets. -/
theorem exists_probeAt (start : ℕ) {i : ℕ} (hi : i < 2 ^ k) :
    ∃ s, s < 2 ^ k ∧ probeAt (2 ^ k) start s = i := by
  let at_ (s : Fin (2 ^ k)) : Fin (2 ^ k) :=
    ⟨probeAt (2 ^ k) start s, probeAt_lt (Nat.two_pow_pos k) start s⟩
  have hinj : Function.Injective at_ := fun s t heq =>
    Fin.ext (probeAt_inj s.isLt t.isLt (congrArg Fin.val heq))
  obtain ⟨s, hs⟩ := Finite.surjective_of_injective hinj ⟨i, hi⟩
  exact ⟨s, s.isLt, congrArg Fin.val hs⟩

/-- If some bucket has the property, the search comes to a first one, and before
that it has not been at its start again. -/
theorem exists_first (p : ℕ → Prop) [DecidablePred p] (start : ℕ) {i : ℕ} (hi : i < 2 ^ k)
    (hp : p i) : ∃ s, s < 2 ^ k ∧ p (probeAt (2 ^ k) start s) ∧
      (∀ r < s, ¬p (probeAt (2 ^ k) start r)) ∧
      ∀ r < s, probeAt (2 ^ k) start (r + 1) ≠ probeAt (2 ^ k) start 0 := by
  obtain ⟨t, ht, hat⟩ := exists_probeAt start hi
  have hexists : ∃ s, p (probeAt (2 ^ k) start s) := ⟨t, hat ▸ hp⟩
  have hle : Nat.find hexists ≤ t := Nat.find_min' hexists (hat ▸ hp)
  refine ⟨Nat.find hexists, by omega, Nat.find_spec hexists, fun r hr => Nat.find_min hexists hr,
    fun r hr heq => ?_⟩
  have hzero := probeAt_inj (by omega) (Nat.two_pow_pos k) heq
  omega

/-! ## Counting buckets -/

variable {n x : ℕ} {p q : ℕ → Prop} [DecidablePred p] [DecidablePred q]

theorem card_filter_congr (hiff : ∀ i < n, q i ↔ p i) :
    ((Finset.range n).filter q).card = ((Finset.range n).filter p).card := by
  rw [Finset.filter_congr fun i hi => hiff i (Finset.mem_range.mp hi)]

/-- One more bucket has the property. -/
theorem card_filter_add (hx : x < n) (hp : ¬p x) (hiff : ∀ i < n, q i ↔ p i ∨ i = x) :
    ((Finset.range n).filter q).card = ((Finset.range n).filter p).card + 1 := by
  have hinsert : (Finset.range n).filter q = insert x ((Finset.range n).filter p) := by
    ext i
    rw [Finset.mem_insert, Finset.mem_filter, Finset.mem_filter, Finset.mem_range]
    constructor
    · rintro ⟨hi, hq⟩
      exact ((hiff i hi).mp hq).symm.imp_right fun hpi => ⟨hi, hpi⟩
    · rintro (rfl | ⟨hi, hpi⟩)
      · exact ⟨hx, (hiff i hx).mpr (.inr rfl)⟩
      · exact ⟨hi, (hiff i hi).mpr (.inl hpi)⟩
  rw [hinsert]
  exact Finset.card_insert_of_notMem fun hmem => hp (Finset.mem_filter.mp hmem).2

end ArmsTiering.Probing
