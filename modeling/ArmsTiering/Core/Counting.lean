import Mathlib.Algebra.GroupWithZero.Nat
import Mathlib.Data.List.Basic

/-!
# Counting in pools of threads

A pool is a list of local states; a thread's step replaces one entry.  The
lemmas relate counts over the pool before and after such a step, in a form
that linear arithmetic can use.
-/

namespace ArmsTiering.Counting

variable {α β : Type*}

/-- One when the condition holds. -/
def one (holds : Bool) : ℕ := if holds then 1 else 0

@[simp] theorem one_true : one true = 1 := rfl
@[simp] theorem one_false : one false = 0 := rfl

theorem countP_set (holds : α → Bool) {pool : List α} {i : ℕ} {old : α}
    (hold : pool[i]? = some old) (new : α) :
    (pool.set i new).countP holds + one (holds old) =
      pool.countP holds + one (holds new) := by
  obtain ⟨hi, hget⟩ := List.getElem?_eq_some_iff.mp hold
  rw [List.countP_set hi, hget]
  by_cases hholds : holds old = true
  · have hpos : 0 < pool.countP holds := by
      rw [List.countP_pos_iff]
      exact ⟨old, hget ▸ List.getElem_mem hi, hholds⟩
    simp only [hholds, one, if_true]
    omega
  · simp only [hholds, one]
    simp

theorem countP_append_singleton (holds : α → Bool) (pool : List α) (new : α) :
    (pool ++ [new]).countP holds = pool.countP holds + one (holds new) := by
  simp [List.countP_append, List.countP_cons, one]

theorem countP_cons (holds : α → Bool) (head : α) (tail : List α) :
    (head :: tail).countP holds = tail.countP holds + one (holds head) := by
  simp [List.countP_cons, one]

theorem one_le_countP {holds : α → Bool} {pool : List α} {i : ℕ} {local_ : α}
    (hget : pool[i]? = some local_) (hholds : holds local_ = true) :
    0 < pool.countP holds := by
  rw [List.countP_pos_iff]
  exact ⟨local_, List.mem_of_getElem? hget, hholds⟩

/-- With at most one thread satisfying the condition, two that do are one. -/
theorem index_eq_of_countP_le_one {holds : α → Bool} {pool : List α} {i j : ℕ} {first second : α}
    (hcount : pool.countP holds ≤ 1) (hi : pool[i]? = some first) (hj : pool[j]? = some second)
    (hfirst : holds first = true) (hsecond : holds second = true) : i = j := by
  induction pool generalizing i j with
  | nil => simp at hi
  | cons head tail ih =>
      rw [countP_cons] at hcount
      cases i with
      | zero =>
          cases j with
          | zero => rfl
          | succ j =>
              obtain rfl : head = first := by simpa using hi
              have htail := one_le_countP (show tail[j]? = some second by simpa using hj) hsecond
              rw [hfirst, one_true] at hcount
              omega
      | succ i =>
          cases j with
          | zero =>
              obtain rfl : head = second := by simpa using hj
              have htail := one_le_countP (show tail[i]? = some first by simpa using hi) hfirst
              rw [hsecond, one_true] at hcount
              omega
          | succ j =>
              have htail : tail.countP holds ≤ 1 := by omega
              have hij : i = j := ih htail (by simpa using hi) (by simpa using hj)
              rw [hij]

theorem eq_of_countP_le_one {holds : α → Bool} {pool : List α} {first second : α}
    (hcount : pool.countP holds ≤ 1) (hmem : first ∈ pool) (hother : second ∈ pool)
    (hfirst : holds first = true) (hsecond : holds second = true) : first = second := by
  obtain ⟨i, hi⟩ := List.mem_iff_getElem?.mp hmem
  obtain ⟨j, hj⟩ := List.mem_iff_getElem?.mp hother
  obtain rfl : i = j := index_eq_of_countP_le_one hcount hi hj hfirst hsecond
  exact Option.some.inj (hi.symm.trans hj)

/-- What an updated pool has is the new entry or an old one. -/
theorem getElem?_set_cases {pool : List α} {i j : ℕ} {new found : α}
    (hget : (pool.set i new)[j]? = some found) :
    (i = j ∧ found = new) ∨ (i ≠ j ∧ pool[j]? = some found) := by
  by_cases hij : i = j
  · subst hij
    rw [List.getElem?_set] at hget
    split at hget
    · split at hget
      · exact Or.inl ⟨rfl, (Option.some.inj hget).symm⟩
      · cases hget
    · contradiction
  · rw [List.getElem?_set_ne hij] at hget
    exact Or.inr ⟨hij, hget⟩

/-- Sums over a pool before and after one entry is replaced. -/
theorem sum_map_set (f : α → ℕ) {pool : List α} {i : ℕ} {old : α} (hold : pool[i]? = some old)
    (new : α) : ((pool.set i new).map f).sum + f old = (pool.map f).sum + f new := by
  induction pool generalizing i with
  | nil => cases hold
  | cons head tail ih =>
      cases i with
      | zero =>
          obtain rfl : head = old := by simpa using hold
          simp only [List.set_cons_zero, List.map_cons, List.sum_cons]
          omega
      | succ i =>
          have hrest := ih (show tail[i]? = some old by simpa using hold)
          simp only [List.set_cons_succ, List.map_cons, List.sum_cons]
          omega

end ArmsTiering.Counting
