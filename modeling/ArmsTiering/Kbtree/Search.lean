import ArmsTiering.Kbtree.Node
import Mathlib.Data.List.Nodup

/-!
# Search in a B-tree

The key that a search is for splits the contents of a node: what is in front of the
child to which the search goes on is smaller, what is behind it is greater.
-/

namespace ArmsTiering

open Interleaving

variable {K A : Type} [LinearOrder A]

/-- `kb_getp`; undefined outside of the arrays of a node. -/
def kbGetp (va : K → A) (k : K) : {h : ℕ} → KbNode K h → ℤ → Option (Option K)
  | 0, x, r =>
      (kbGetpAux va x.keys k r).bind fun (i, r) =>
        if 0 ≤ i ∧ r = 0 then x.keys[i.toNat]?.map some else some none
  | _ + 1, x, r =>
      (kbGetpAux va x.keys k r).bind fun (i, r) =>
        if 0 ≤ i ∧ r = 0 then x.keys[i.toNat]?.map some
        else x.ptrs[(i + 1).toNat]?.bind fun y => kbGetp va k y r

namespace KbNode

variable {va : K → A} {k e : K} {h t low : ℕ} {left right : List K}

/-- The contents in front of a child. -/
abbrev front (ptrs : List (KbNode K h)) (keys : List K) : List K := before (ptrs.map toList) keys

/-- The contents behind a child. -/
abbrev back (keys : List K) (ptrs : List (KbNode K h)) : List K := after keys (ptrs.map toList)

variable {lefts rights ptrs : List (KbNode K h)} {x y z : KbNode K h}

theorem toList_child (hlength : lefts.length = left.length) :
    (internal (left ++ right) (lefts ++ y :: rights)).toList =
      front lefts left ++ (y.toList ++ back right rights) := by
  rw [toList_internal, List.map_append, List.map_cons]
  exact interleave_append (by rw [List.length_map, hlength])

/-- The contents around a key. -/
theorem toList_key (hlength : lefts.length = left.length) :
    (internal (left ++ e :: right) (lefts ++ y :: z :: rights)).toList =
      front lefts left ++ (y.toList ++ e :: (z.toList ++ back right rights)) := by
  rw [toList_child hlength, back, List.map_cons, after_cons]

/-- The pointers on both sides of the child between the given keys. -/
theorem exists_child (hlength : ptrs.length = (left ++ right).length + 1) :
    ∃ lefts y rights, ptrs = lefts ++ y :: rights ∧ lefts.length = left.length ∧
      rights.length = right.length := by
  rw [List.length_append] at hlength
  have hlt : left.length < ptrs.length := by omega
  refine ⟨ptrs.take left.length, ptrs[left.length], ptrs.drop (left.length + 1), ?_, ?_, ?_⟩
  · rw [List.getElem_cons_drop, List.take_append_drop]
  · rw [List.length_take]
    omega
  · rw [List.length_drop]
    omega

theorem keys_ascending (hlength : ptrs.length = left.length + 1)
    (hsorted : Ascending va (internal left ptrs).toList) : Ascending va left := by
  rw [toList_internal] at hsorted
  refine hsorted.sublist (sublist_interleave ?_)
  rw [List.length_map, hlength]

/-- Everything in front of the child is smaller, if the keys in front of it are. -/
theorem front_lt (hsorted : Ascending va (front lefts left)) (hleft : ∀ a ∈ left, va a < va k) :
    ∀ a ∈ front lefts left, va a < va k := by
  intro a ha
  obtain ⟨b, hb, rfl | hlt⟩ := exists_separator_of_mem_before hsorted ha
  · exact hleft a hb
  · exact lt_trans hlt (hleft b hb)

theorem back_gt (hsorted : Ascending va (back right rights)) (hright : ∀ b ∈ right, va k < va b) :
    ∀ b ∈ back right rights, va k < va b := by
  intro b hb
  obtain ⟨a, ha, rfl | hlt⟩ := exists_separator_of_mem_after hsorted hb
  · exact hright b ha
  · exact lt_trans (hright a ha) hlt


theorem eq_of_mem {l : List K} (hsorted : Ascending va l) {a b : K} (ha : a ∈ l) (hb : b ∈ l)
    (heq : va a = va b) : a = b := by
  have hnodup : (l.map va).Nodup := List.pairwise_map.mpr (hsorted.imp ne_of_lt)
  exact List.inj_on_of_nodup_map hnodup ha hb heq

theorem not_found {r : ℤ} (hr : left ++ right ≠ [] → r ≠ 0) :
    ¬(0 ≤ (left.length : ℤ) - 1 ∧ r = 0) := by
  rintro ⟨hindex, hzero⟩
  refine hr (fun hnil => ?_) hzero
  obtain ⟨rfl, _⟩ := List.append_eq_nil_iff.mp hnil
  simp at hindex

theorem child_index (left : List K) : ((left.length : ℤ) - 1 + 1).toNat = left.length := by omega

/-- `kb_getp` comes to the entry of the key, or there is none. -/
theorem kbGetp_cases (x : KbNode K h) (hwf : x.Wf t low) (hsorted : Ascending va x.toList) (r : ℤ) :
    (∃ e ∈ x.toList, va e = va k ∧ kbGetp va k x r = some (some e)) ∨
      kbGetp va k x r = some none ∧ ∀ e ∈ x.toList, va e ≠ va k := by
  induction h generalizing low r with
  | zero =>
      have hkeysSorted : Ascending va x.keys := hsorted
      obtain ⟨result, haux, hlocated⟩ := kbGetpAux_located hkeysSorted k r
      rw [kbGetp, haux, Option.bind_some, toList_zero]
      cases hlocated with
      | found left right e hkeys heq =>
          dsimp only
          rw [hkeys, if_pos ⟨Int.natCast_nonneg _, rfl⟩, Int.toNat_natCast, getElem?_middle]
          exact .inl ⟨e, by simp, heq, rfl⟩
      | between left right r hkeys hleft hright hr =>
          dsimp only
          rw [hkeys] at hr ⊢
          rw [if_neg (not_found hr)]
          refine .inr ⟨rfl, fun e he => ?_⟩
          rcases List.mem_append.mp he with hin | hin
          · exact (hleft e hin).ne
          · exact (hright e hin).ne'
  | succ h ih =>
      obtain ⟨keys, ptrs, rfl⟩ := exists_internal x
      obtain ⟨_, _, hlength, hchildren⟩ := wf_internal.mp hwf
      obtain ⟨result, haux, hlocated⟩ := kbGetpAux_located (keys_ascending hlength hsorted) k r
      rw [kbGetp, keys_internal, ptrs_internal, haux, Option.bind_some]
      cases hlocated with
      | found left right e hkeys heq =>
          subst hkeys
          dsimp only
          rw [if_pos ⟨Int.natCast_nonneg _, rfl⟩, Int.toNat_natCast, getElem?_middle]
          refine .inl ⟨e, ?_, heq, rfl⟩
          refine (sublist_interleave ?_).subset (List.mem_append_right left List.mem_cons_self)
          exact (List.length_map _).trans hlength
      | between left right r hkeys hleft hright hr =>
          subst hkeys
          obtain ⟨lefts, y, rights, rfl, hlefts, _⟩ := exists_child hlength
          dsimp only
          rw [if_neg (not_found hr), child_index, ← hlefts, getElem?_middle, Option.bind_some]
          rw [toList_child hlefts] at hsorted ⊢
          obtain ⟨hfront, hrest, _⟩ := List.pairwise_append.mp hsorted
          obtain ⟨hchild, hback, _⟩ := List.pairwise_append.mp hrest
          have hbefore := front_lt hfront hleft
          have hbehind := back_gt hback hright
          rcases ih y (hchildren y (by simp)) hchild r with ⟨e, hmem, heq, hget⟩ | ⟨hget, hnone⟩
          · exact .inl ⟨e, by simp [hmem], heq, hget⟩
          · refine .inr ⟨hget, fun e he => ?_⟩
            rcases List.mem_append.mp he with hin | hin
            · exact (hbefore e hin).ne
            · rcases List.mem_append.mp hin with hin | hin
              · exact hnone e hin
              · exact (hbehind e hin).ne'

end KbNode

end ArmsTiering
