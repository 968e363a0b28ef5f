import Mathlib.Data.List.Basic
import Mathlib.Order.Basic

/-!
# Lists with separators between them

The contents of a search tree with many keys a node, in order: the contents of the
children with the keys between them.
-/

namespace ArmsTiering.Interleaving

variable {α : Type*}

/-- Every list with its separator behind it. -/
def before (lists : List (List α)) (separators : List α) : List α :=
  (List.zipWith (fun l k => l ++ [k]) lists separators).flatten

/-- Every list with its separator in front of it. -/
def after (separators : List α) (lists : List (List α)) : List α :=
  (List.zipWith List.cons separators lists).flatten

/-- The lists with the separators between them. -/
def interleave : List (List α) → List α → List α
  | [], _ => []
  | l :: lists, separators => l ++ after separators lists

variable {lists lists' : List (List α)} {separators separators' l : List α} {k x : α}
  {R : α → α → Prop}

@[simp]
theorem before_nil : before [] separators = [] := rfl

@[simp]
theorem after_nil : after [] lists = [] := rfl

@[simp]
theorem before_cons : before (l :: lists) (k :: separators) = l ++ k :: before lists separators := by
  simp [before]

@[simp]
theorem after_cons : after (k :: separators) (l :: lists) = k :: (l ++ after separators lists) := by
  simp [after]

theorem before_append (hlength : lists.length = separators.length) :
    before (lists ++ lists') (separators ++ separators') =
      before lists separators ++ before lists' separators' := by
  rw [before, List.zipWith_append hlength, List.flatten_append]
  rfl

/-- One of the lists, with what is in front of it and behind it. -/
theorem interleave_append (hlength : lists.length = separators.length) :
    interleave (lists ++ l :: lists') (separators ++ separators') =
      before lists separators ++ (l ++ after separators' lists') := by
  induction lists generalizing separators with
  | nil =>
      obtain rfl := List.length_eq_zero_iff.mp hlength.symm
      rfl
  | cons first lists ih =>
      obtain ⟨k, separators, rfl⟩ := List.exists_cons_of_length_eq_add_one hlength.symm
      have hstep : interleave (first :: (lists ++ l :: lists')) (k :: (separators ++ separators')) =
          first ++ k :: interleave (lists ++ l :: lists') (separators ++ separators') := by
        cases lists <;> simp [interleave]
      rw [List.cons_append, List.cons_append, hstep, ih (Nat.succ.inj hlength), before_cons]
      simp

/-- The contents on both sides of a separator. -/
theorem interleave_append_cons (hlength : lists.length = separators.length + 1) (hne : lists' ≠ []) :
    interleave (lists ++ lists') (separators ++ k :: separators') =
      interleave lists separators ++ k :: interleave lists' separators' := by
  obtain ⟨l, lists', rfl⟩ := List.exists_cons_of_ne_nil hne
  obtain ⟨front, last, rfl⟩ := lists.eq_nil_or_concat'.resolve_left
    (List.ne_nil_of_length_eq_add_one hlength)
  have hfront : front.length = separators.length := by simpa using hlength
  have hself : interleave (front ++ [last]) (separators ++ []) =
      before front separators ++ (last ++ after [] []) := interleave_append hfront
  rw [List.append_nil] at hself
  rw [List.append_assoc, List.cons_append, List.nil_append, interleave_append hfront, hself]
  simp [interleave]

theorem sublist_after (hlength : separators.length = lists.length) :
    separators.Sublist (after separators lists) := by
  induction separators generalizing lists with
  | nil => exact List.nil_sublist _
  | cons k separators ih =>
      obtain ⟨l, lists, rfl⟩ := List.exists_cons_of_length_eq_add_one hlength.symm
      rw [after_cons]
      exact ((ih (Nat.succ.inj hlength)).trans (List.sublist_append_right _ _)).cons_cons k

/-- The separators stand in order among the contents. -/
theorem sublist_interleave (hlength : lists.length = separators.length + 1) :
    separators.Sublist (interleave lists separators) := by
  obtain ⟨l, lists, rfl⟩ := List.exists_cons_of_length_eq_add_one hlength
  exact (sublist_after (Nat.succ.inj hlength).symm).trans (List.sublist_append_right _ _)

/-- In front of a separator everything is related to it. -/
theorem exists_separator_of_mem_before (hsorted : (before lists separators).Pairwise R)
    (hx : x ∈ before lists separators) : ∃ k ∈ separators, x = k ∨ R x k := by
  induction lists generalizing separators with
  | nil => cases hx
  | cons l lists ih =>
      cases separators with
      | nil => cases hx
      | cons k separators =>
          rw [before_cons] at hsorted hx
          obtain ⟨_, htail, hcross⟩ := List.pairwise_append.mp hsorted
          rcases List.mem_append.mp hx with hfirst | hrest
          · exact ⟨k, List.mem_cons_self, .inr (hcross x hfirst k List.mem_cons_self)⟩
          · rcases List.mem_cons.mp hrest with rfl | hlater
            · exact ⟨x, List.mem_cons_self, .inl rfl⟩
            · obtain ⟨k', hk', hrel⟩ := ih (List.pairwise_cons.mp htail).2 hlater
              exact ⟨k', List.mem_cons_of_mem k hk', hrel⟩

theorem exists_separator_of_mem_after (hsorted : (after separators lists).Pairwise R)
    (hx : x ∈ after separators lists) : ∃ k ∈ separators, x = k ∨ R k x := by
  induction separators generalizing lists with
  | nil => cases hx
  | cons k separators ih =>
      cases lists with
      | nil => cases hx
      | cons l lists =>
          rw [after_cons] at hsorted hx
          obtain ⟨hhead, htail⟩ := List.pairwise_cons.mp hsorted
          rcases List.mem_cons.mp hx with rfl | hrest
          · exact ⟨x, List.mem_cons_self, .inl rfl⟩
          · rcases List.mem_append.mp hrest with hfirst | hlater
            · exact ⟨k, List.mem_cons_self, .inr (hhead x hrest)⟩
            · obtain ⟨k', hk', hrel⟩ := ih (List.pairwise_append.mp htail).2.1 hlater
              exact ⟨k', List.mem_cons_of_mem k hk', hrel⟩

/-! ## A list at an index -/

theorem getElem?_middle (l l' : List α) (x : α) : (l ++ x :: l')[l.length]? = some x := by simp

theorem set_middle (l l' : List α) (x y : α) :
    (l ++ x :: l').set l.length y = l ++ y :: l' := by simp

theorem insertIdx_middle (l l' : List α) (x : α) :
    (l ++ l').insertIdx l.length x = l ++ x :: l' := by
  induction l with
  | nil => rfl
  | cons y l ih => exact congrArg (y :: ·) ih

theorem eraseIdx_middle (l l' : List α) (x : α) :
    (l ++ x :: l').eraseIdx l.length = l ++ l' := by
  induction l with
  | nil => rfl
  | cons y l ih => exact congrArg (y :: ·) ih

end ArmsTiering.Interleaving
