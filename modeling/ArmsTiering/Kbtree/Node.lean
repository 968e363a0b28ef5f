import ArmsTiering.Core.Interleaving
import Mathlib.Algebra.Order.Ring.Nat
import Mathlib.Data.Int.Order.Basic
import Mathlib.Order.Lattice

/-!
# The nodes of `kbtree.h`

All leaves of a B-tree are at one depth, so that the type of a node tells its height:
a node of height zero is a leaf, and the pointers of any other node lead to nodes of
the height below.  Keys are compared by their virtual addresses, as `ktree_cmp` does.
-/

namespace ArmsTiering

open Interleaving

variable {K A : Type}

/-- A node with `is_internal` set, its first `n` keys and its first `n + 1` pointers. -/
structure KbInternal (K P : Type) where
  keys : List K
  ptrs : List P

/-- `kbnode_t`, of a given height -/
def KbNode (K : Type) : ℕ → Type
  | 0 => List K
  | h + 1 => KbInternal K (KbNode K h)

namespace KbNode

variable {h : ℕ}

def leaf (keys : List K) : KbNode K 0 := keys

def internal (keys : List K) (ptrs : List (KbNode K h)) : KbNode K (h + 1) := KbInternal.mk keys ptrs

/-- `__KB_KEY` -/
def keys : {h : ℕ} → KbNode K h → List K
  | 0, x => x
  | _ + 1, x => KbInternal.keys x

/-- `__KB_PTR` -/
def ptrs (x : KbNode K (h + 1)) : List (KbNode K h) := KbInternal.ptrs x

/-- `x->n` -/
def n (x : KbNode K h) : ℕ := x.keys.length

/-- The keys below a node, in order. -/
def toList : {h : ℕ} → KbNode K h → List K
  | 0, x => x.keys
  | _ + 1, x => interleave (x.ptrs.map toList) x.keys

/-- The node is sound, with at least `low` keys: no array overflows, and every node
below it has at least `t - 1` keys. -/
def Wf (t : ℕ) : {h : ℕ} → ℕ → KbNode K h → Prop
  | 0, low, x => low ≤ x.n ∧ x.n ≤ 2 * t - 1
  | _ + 1, low, x => low ≤ x.n ∧ x.n ≤ 2 * t - 1 ∧ x.ptrs.length = x.n + 1 ∧
      ∀ y ∈ x.ptrs, Wf t (t - 1) y

@[simp]
theorem keys_internal (keys : List K) (ptrs : List (KbNode K h)) : (internal keys ptrs).keys = keys :=
  rfl

@[simp]
theorem ptrs_internal (keys : List K) (ptrs : List (KbNode K h)) : (internal keys ptrs).ptrs = ptrs :=
  rfl

@[simp]
theorem n_leaf (keys : List K) : (leaf keys).n = keys.length := rfl

@[simp]
theorem n_internal (keys : List K) (ptrs : List (KbNode K h)) : (internal keys ptrs).n = keys.length :=
  rfl

theorem toList_zero (x : KbNode K 0) : x.toList = x.keys := rfl

@[simp]
theorem toList_leaf (keys : List K) : (leaf keys).toList = keys := rfl

@[simp]
theorem toList_internal (keys : List K) (ptrs : List (KbNode K h)) :
    (internal keys ptrs).toList = interleave (ptrs.map toList) keys := rfl

theorem exists_internal (x : KbNode K (h + 1)) : ∃ keys ptrs, x = internal keys ptrs :=
  ⟨x.keys, x.ptrs, rfl⟩

@[simp]
theorem wf_leaf {t low : ℕ} {keys : List K} :
    (leaf keys).Wf t low ↔ low ≤ keys.length ∧ keys.length ≤ 2 * t - 1 := Iff.rfl

@[simp]
theorem wf_internal {t low : ℕ} {keys : List K} {ptrs : List (KbNode K h)} :
    (internal keys ptrs).Wf t low ↔ low ≤ keys.length ∧ keys.length ≤ 2 * t - 1 ∧
      ptrs.length = keys.length + 1 ∧ ∀ y ∈ ptrs, y.Wf t (t - 1) := Iff.rfl

theorem Wf.le_n {t low : ℕ} {x : KbNode K h} (hwf : x.Wf t low) : low ≤ x.n := by
  cases h with
  | zero => exact hwf.1
  | succ h => exact hwf.1

theorem Wf.n_le {t low : ℕ} {x : KbNode K h} (hwf : x.Wf t low) : x.n ≤ 2 * t - 1 := by
  cases h with
  | zero => exact hwf.2
  | succ h => exact hwf.2.1

theorem Wf.mono {t low low' : ℕ} {x : KbNode K h} (hwf : x.Wf t low) (hle : low' ≤ x.n) :
    x.Wf t low' := by
  cases h with
  | zero => exact ⟨hle, hwf.2⟩
  | succ h => exact ⟨hle, hwf.2⟩

end KbNode

/-! ## Search in a node -/

section

variable [LinearOrder A] (va : K → A)

/-- `ktree_cmp`, which is the `__cmp` of the tree -/
def kbCmp (a b : K) : ℤ := if va a < va b then -1 else if va b < va a then 1 else 0

/-- The binary search of `__kb_getp_aux`; undefined outside of the array of keys. -/
def kbBisect (keys : List K) (k : K) : ℕ → ℕ → ℕ → Option ℕ
  | 0, first, last => if first < last then none else some first
  | fuel + 1, first, last =>
      if first < last then
        let mid := (first + last) >>> 1
        keys[mid]?.bind fun key =>
          if kbCmp va key k < 0 then kbBisect keys k fuel (mid + 1) last
          else kbBisect keys k fuel first mid
      else some first

/-- `__kb_getp_aux`; the result is the index and `*r`, which an empty node leaves
alone. -/
def kbGetpAux (keys : List K) (k : K) (r : ℤ) : Option (ℤ × ℤ) :=
  if keys.length = 0 then some (-1, r)
  else (kbBisect va keys k keys.length 0 keys.length).bind fun first =>
    if first = keys.length then some ((keys.length : ℤ) - 1, 1)
    else keys[first]?.map fun key =>
      let r := kbCmp va k key
      (if r < 0 then (first : ℤ) - 1 else first, r)

/-- The keys are in strictly ascending order. -/
abbrev Ascending (l : List K) : Prop := l.Pairwise fun a b => va a < va b

/-- Where `__kb_getp_aux` finds the key: at an index, or between two. -/
inductive Located (keys : List K) (k : K) : ℤ × ℤ → Prop
  | found (left right : List K) (x : K) (hkeys : keys = left ++ x :: right) (hx : va x = va k) :
      Located keys k (left.length, 0)
  | between (left right : List K) (r : ℤ) (hkeys : keys = left ++ right)
      (hleft : ∀ a ∈ left, va a < va k) (hright : ∀ b ∈ right, va k < va b)
      (hr : keys ≠ [] → r ≠ 0) : Located keys k ((left.length : ℤ) - 1, r)

variable {va} {keys left right : List K} {k x : K}

theorem kbCmp_neg : kbCmp va x k < 0 ↔ va x < va k := by
  unfold kbCmp
  split
  · exact iff_of_true (by decide) ‹_›
  · split <;> exact iff_of_false (by decide) ‹_›

theorem kbCmp_pos : 0 < kbCmp va k x ↔ va x < va k := by
  unfold kbCmp
  split
  · rename_i hlt
    exact iff_of_false (by decide) hlt.not_gt
  · split
    · exact iff_of_true (by decide) ‹_›
    · exact iff_of_false (by decide) ‹_›

theorem kbCmp_eq_zero (heq : va x = va k) : kbCmp va k x = 0 := by
  rw [kbCmp, heq, if_neg (lt_irrefl _), if_neg (lt_irrefl _)]

theorem exists_split (hsorted : Ascending va keys) (k : K) :
    ∃ left right, keys = left ++ right ∧ (∀ a ∈ left, va a < va k) ∧ ∀ b ∈ right, va k ≤ va b := by
  induction keys with
  | nil => exact ⟨[], [], rfl, nofun, nofun⟩
  | cons x keys ih =>
      obtain ⟨hhead, htail⟩ := List.pairwise_cons.mp hsorted
      rcases lt_or_ge (va x) (va k) with hlt | hge
      · obtain ⟨left, right, rfl, hleft, hright⟩ := ih htail
        refine ⟨x :: left, right, rfl, fun a ha => ?_, hright⟩
        rcases List.mem_cons.mp ha with rfl | hmem
        · exact hlt
        · exact hleft a hmem
      · refine ⟨[], x :: keys, rfl, nofun, fun b hb => ?_⟩
        rcases List.mem_cons.mp hb with rfl | hmem
        · exact hge
        · exact hge.trans (hhead b hmem).le

/-- The binary search ends where the keys stop to be smaller. -/
theorem kbBisect_eq (hleft : ∀ a ∈ left, va a < va k) (hright : ∀ b ∈ right, va k ≤ va b)
    (fuel first last : ℕ) (hfirst : first ≤ left.length) (hlast : left.length ≤ last)
    (hbound : last ≤ left.length + right.length) (hfuel : last - first ≤ fuel) :
    kbBisect va (left ++ right) k fuel first last = some left.length := by
  induction fuel generalizing first last with
  | zero =>
      rw [kbBisect, if_neg (by omega)]
      exact congrArg some (by omega)
  | succ fuel ih =>
      rw [kbBisect]
      by_cases hlt : first < last
      · rw [if_pos hlt, Nat.shiftRight_eq_div_pow, Nat.pow_one]
        obtain ⟨key, hkey⟩ : ∃ key, (left ++ right)[(first + last) / 2]? = some key :=
          ⟨_, List.getElem?_eq_getElem (by rw [List.length_append]; omega)⟩
        dsimp only
        rw [hkey, Option.bind_some]
        rcases Nat.lt_or_ge ((first + last) / 2) left.length with hmid | hmid
        · rw [List.getElem?_append_left hmid] at hkey
          rw [if_pos (kbCmp_neg.mpr (hleft key (List.mem_of_getElem? hkey)))]
          exact ih _ _ (by omega) hlast hbound (by omega)
        · rw [List.getElem?_append_right hmid] at hkey
          have hnot := (hright key (List.mem_of_getElem? hkey)).not_gt
          rw [if_neg fun hneg => hnot (kbCmp_neg.mp hneg)]
          exact ih _ _ hfirst hmid (by omega) (by omega)
      · rw [if_neg hlt]
        exact congrArg some (by omega)

/-- `__kb_getp_aux` locates a key among keys in order. -/
theorem kbGetpAux_located (hsorted : Ascending va keys) (k : K) (r : ℤ) :
    ∃ result, kbGetpAux va keys k r = some result ∧ Located va keys k result := by
  obtain ⟨left, right, rfl, hleft, hright⟩ := exists_split hsorted k
  unfold kbGetpAux
  by_cases hempty : (left ++ right).length = 0
  · rw [if_pos hempty]
    obtain ⟨rfl, rfl⟩ := List.append_eq_nil_iff.mp (List.length_eq_zero_iff.mp hempty)
    exact ⟨_, rfl, .between [] [] r rfl nofun nofun fun hne => absurd rfl hne⟩
  · rw [if_neg hempty, kbBisect_eq hleft hright _ 0 _ (Nat.zero_le _) (by simp) (by simp)
      (by simp), Option.bind_some]
    cases right with
    | nil =>
        rw [List.append_nil, if_pos rfl]
        exact ⟨_, rfl, .between left [] 1 (List.append_nil _).symm hleft nofun fun _ => by decide⟩
    | cons x right =>
        rw [if_neg (by simp), List.getElem?_append_right (Nat.le_refl _), Nat.sub_self,
          List.getElem?_cons_zero, Option.map_some]
        refine ⟨_, rfl, ?_⟩
        dsimp only
        obtain ⟨_, hxright, _⟩ := List.pairwise_append.mp hsorted
        rcases (hright x List.mem_cons_self).lt_or_eq with hlt | heq
        · have hneg : kbCmp va k x < 0 := kbCmp_neg.mpr hlt
          rw [if_pos hneg]
          refine .between left (x :: right) _ rfl hleft (fun b hb => ?_) fun _ => hneg.ne
          rcases List.mem_cons.mp hb with rfl | hmem
          · exact hlt
          · exact hlt.trans ((List.pairwise_cons.mp hxright).1 b hmem)
        · rw [kbCmp_eq_zero heq.symm]
          exact .found left right x rfl heq.symm

end

end ArmsTiering
