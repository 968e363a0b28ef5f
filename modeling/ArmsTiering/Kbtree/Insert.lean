import ArmsTiering.Kbtree.Search

/-!
# Insertion into a B-tree

On its way down `kb_putp` splits every full node before it goes there, so that a
leaf with room is found without going back.
-/

namespace ArmsTiering

open Interleaving KbNode

variable {K A : Type} {h : ℕ}

namespace KbNode

/-- What a full node keeps when it is split. -/
def lower (t : ℕ) : {h : ℕ} → KbNode K h → KbNode K h
  | 0, y => leaf (y.keys.take (t - 1))
  | _ + 1, y => internal (y.keys.take (t - 1)) (y.ptrs.take t)

/-- The new node, with the keys and pointers behind the middle. -/
def upper (t : ℕ) : {h : ℕ} → KbNode K h → KbNode K h
  | 0, y => leaf ((y.keys.drop t).take (t - 1))
  | _ + 1, y => internal ((y.keys.drop t).take (t - 1)) ((y.ptrs.drop t).take t)

end KbNode

/-- `__kb_split`; `y` is the child at `i`. -/
def kbSplit (t : ℕ) (x : KbNode K (h + 1)) (i : ℕ) (y : KbNode K h) : Option (KbNode K (h + 1)) :=
  y.keys[t - 1]?.map fun key =>
    internal (x.keys.insertIdx i key) ((x.ptrs.set i (y.lower t)).insertIdx (i + 1) (y.upper t))

section

variable [LinearOrder A] (va : K → A) (t : ℕ) (k : K)

/-- `__kb_putp_aux` splits the child at `i` if it is full.  The result names the child
to go on with. -/
def kbSplitFull (x : KbNode K (h + 1)) (i : ℕ) : Option (KbNode K (h + 1) × ℕ) :=
  x.ptrs[i]?.bind fun y =>
    if y.n = 2 * t - 1 then
      (kbSplit t x i y).bind fun x =>
        x.keys[i]?.map fun key => (x, if 0 < kbCmp va k key then i + 1 else i)
    else some (x, i)

/-- `__kb_putp_aux` -/
def kbPutpAux : {h : ℕ} → KbNode K h → Option (KbNode K h)
  | 0, x =>
      (kbGetpAux va x.keys k 0).map fun (i, _) => leaf (x.keys.insertIdx (i + 1).toNat k)
  | _ + 1, x =>
      (kbGetpAux va x.keys k 0).bind fun (i, _) =>
        (kbSplitFull va t k x (i + 1).toNat).bind fun (x, i) =>
          x.ptrs[i]?.bind fun y =>
            (kbPutpAux y).map fun y => internal x.keys (x.ptrs.set i y)

end

/-- `l'` is `l` with the key put where it belongs. -/
def Inserted [LinearOrder A] (va : K → A) (k : K) (l l' : List K) : Prop :=
  ∃ left right, l = left ++ right ∧ l' = left ++ k :: right ∧ (∀ a ∈ left, va a < va k) ∧
    ∀ b ∈ right, va k < va b

section

variable [LinearOrder A] {va : K → A} {k : K}

theorem Inserted.middle {l l' front back : List K} (hinserted : Inserted va k l l')
    (hfront : ∀ a ∈ front, va a < va k) (hback : ∀ b ∈ back, va k < va b) :
    Inserted va k (front ++ (l ++ back)) (front ++ (l' ++ back)) := by
  obtain ⟨left, right, rfl, rfl, hleft, hright⟩ := hinserted
  refine ⟨front ++ left, right ++ back, by simp, by simp, fun a ha => ?_, fun b hb => ?_⟩
  · exact (List.mem_append.mp ha).elim (hfront a) (hleft a)
  · exact (List.mem_append.mp hb).elim (hright b) (hback b)

theorem Inserted.length_eq {l l' : List K} (hinserted : Inserted va k l l') :
    l'.length = l.length + 1 := by
  obtain ⟨left, right, rfl, rfl, _⟩ := hinserted
  simp only [List.length_append, List.length_cons]
  omega

theorem Inserted.ascending {l l' : List K} (hinserted : Inserted va k l l') (hsorted : Ascending va l) :
    Ascending va l' := by
  obtain ⟨left, right, rfl, rfl, hleft, hright⟩ := hinserted
  obtain ⟨hl, hr, hcross⟩ := List.pairwise_append.mp hsorted
  refine List.pairwise_append.mpr ⟨hl, List.pairwise_cons.mpr ⟨hright, hr⟩, fun a ha b hb => ?_⟩
  rcases List.mem_cons.mp hb with rfl | hin
  · exact hleft a ha
  · exact hcross a ha b hin

theorem Inserted.mem_iff {l l' : List K} (hinserted : Inserted va k l l') (e : K) :
    e ∈ l' ↔ e = k ∨ e ∈ l := by
  obtain ⟨left, right, rfl, rfl, _⟩ := hinserted
  simp only [List.mem_append, List.mem_cons]
  tauto

end

namespace KbNode

variable {t low : ℕ} {k e : K} {left right : List K} {lefts rights : List (KbNode K h)}
  {x y : KbNode K h}

/-- Another sound child in the place of one. -/
theorem Wf.set_child {keys : List K} {z : KbNode K h}
    (hwf : (internal keys (lefts ++ y :: rights)).Wf t low) (hz : z.Wf t (t - 1)) :
    (internal keys (lefts ++ z :: rights)).Wf t low := by
  obtain ⟨hlow, hle, hlength, hchildren⟩ := wf_internal.mp hwf
  refine wf_internal.mpr ⟨hlow, hle, by simpa using hlength, fun w hw => ?_⟩
  rcases List.mem_append.mp hw with hin | hin
  · exact hchildren w (List.mem_append_left _ hin)
  · rcases List.mem_cons.mp hin with rfl | hin
    · exact hz
    · exact hchildren w (List.mem_append_right _ (List.mem_cons_of_mem _ hin))

/-! ## Splitting -/

/-- A full node falls into two halves of the least size and a key between them. -/
theorem exists_halves (ht : 2 ≤ t) (hwf : y.Wf t low) (hfull : y.n = 2 * t - 1) :
    ∃ key, y.keys[t - 1]? = some key ∧
      y.toList = (y.lower t).toList ++ key :: (y.upper t).toList ∧
      ((y.lower t).Wf t (t - 1) ∧ (y.lower t).n = t - 1) ∧
      (y.upper t).Wf t (t - 1) ∧ (y.upper t).n = t - 1 := by
  obtain ⟨left, key, right, hkeys, hleft, hright⟩ : ∃ left key right,
      y.keys = left ++ key :: right ∧ left.length = t - 1 ∧ right.length = t - 1 := by
    have hlength : y.keys.length = 2 * t - 1 := hfull
    refine ⟨y.keys.take (t - 1), y.keys[t - 1], y.keys.drop (t - 1 + 1), ?_, ?_, ?_⟩
    · rw [List.getElem_cons_drop, List.take_append_drop]
    · rw [List.length_take]
      omega
    · rw [List.length_drop]
      omega
  have hkey : y.keys[t - 1]? = some key := by rw [hkeys, ← hleft, getElem?_middle]
  have htake : y.keys.take (t - 1) = left := by rw [hkeys, List.take_left' hleft]
  have hdrop : (y.keys.drop t).take (t - 1) = right := by
    rw [hkeys, ← List.singleton_append, ← List.append_assoc, List.drop_left' (by simp; omega),
      List.take_of_length_le (Nat.le_of_eq hright)]
  refine ⟨key, hkey, ?_⟩
  cases h with
  | zero =>
      rw [lower, upper, htake, hdrop, toList_zero, hkeys]
      exact ⟨rfl, ⟨wf_leaf.mpr ⟨Nat.le_of_eq hleft.symm, by omega⟩, hleft⟩,
        wf_leaf.mpr ⟨Nat.le_of_eq hright.symm, by omega⟩, hright⟩
  | succ h =>
      obtain ⟨keys, ptrs, rfl⟩ := exists_internal y
      obtain ⟨_, _, hptrs, hchildren⟩ := wf_internal.mp hwf
      rw [keys_internal] at hkeys htake hdrop
      rw [lower, upper, keys_internal, ptrs_internal, htake, hdrop]
      rw [hkeys, List.length_append, List.length_cons] at hptrs
      have hsecond : (ptrs.drop t).take t = ptrs.drop t :=
        List.take_of_length_le (by rw [List.length_drop]; omega)
      rw [hsecond]
      have hfirstLength : (ptrs.take t).length = left.length + 1 := by
        rw [List.length_take]
        omega
      have hsecondLength : (ptrs.drop t).length = right.length + 1 := by
        rw [List.length_drop]
        omega
      refine ⟨?_, ⟨wf_internal.mpr ⟨Nat.le_of_eq hleft.symm, by omega, hfirstLength, fun y hy => ?_⟩, hleft⟩,
        wf_internal.mpr ⟨Nat.le_of_eq hright.symm, by omega, hsecondLength, fun y hy => ?_⟩, hright⟩
      · have hsplit : interleave ((ptrs.take t).map toList ++ (ptrs.drop t).map toList)
            (left ++ key :: right) = interleave ((ptrs.take t).map toList) left ++
              key :: interleave ((ptrs.drop t).map toList) right :=
          interleave_append_cons (by rw [List.length_map, hfirstLength])
            (List.ne_nil_of_length_eq_add_one (by rw [List.length_map, hsecondLength]))
        rw [← List.map_append, List.take_append_drop] at hsplit
        rw [toList_internal, hkeys, hsplit]
        rfl
      · exact hchildren y (List.mem_of_mem_take hy)
      · exact hchildren y (List.mem_of_mem_drop hy)

/-- Splitting a child keeps the contents. -/
theorem kbSplit_eq (ht : 2 ≤ t) (hlength : lefts.length = left.length)
    (hwf : (internal (left ++ right) (lefts ++ y :: rights)).Wf t low)
    (hroom : (left ++ right).length < 2 * t - 1) (hfull : y.n = 2 * t - 1) :
    ∃ key, kbSplit t (internal (left ++ right) (lefts ++ y :: rights)) left.length y =
        some (internal (left ++ key :: right) (lefts ++ y.lower t :: y.upper t :: rights)) ∧
      (internal (left ++ key :: right) (lefts ++ y.lower t :: y.upper t :: rights)).toList =
        (internal (left ++ right) (lefts ++ y :: rights)).toList ∧
      (internal (left ++ key :: right) (lefts ++ y.lower t :: y.upper t :: rights)).Wf t low ∧
      (y.lower t).n = t - 1 ∧ (y.upper t).n = t - 1 := by
  obtain ⟨hlow, _, hptrs, hchildren⟩ := wf_internal.mp hwf
  obtain ⟨key, hkey, hcontents, ⟨hlower, hlowerN⟩, hupper, hupperN⟩ :=
    exists_halves ht (hchildren y (by simp)) hfull
  refine ⟨key, ?_, ?_, wf_internal.mpr ⟨?_, ?_, ?_, fun z hz => ?_⟩, hlowerN, hupperN⟩
  · have hinsert := insertIdx_middle (lefts ++ [y.lower t]) rights (y.upper t)
    rw [List.append_assoc, List.append_assoc, List.length_append] at hinsert
    rw [kbSplit, hkey, Option.map_some, keys_internal, ptrs_internal, insertIdx_middle, ← hlength,
      set_middle]
    exact congrArg (fun ptrs => some (internal _ ptrs)) hinsert
  · rw [toList_key hlength, toList_child hlength, hcontents, List.append_assoc, List.cons_append]
  · simp only [List.length_append, List.length_cons] at hlow ⊢
    omega
  · simp only [List.length_append, List.length_cons] at hroom ⊢
    omega
  · simp only [List.length_append, List.length_cons] at hptrs ⊢
    omega
  · rcases List.mem_append.mp hz with hin | hin
    · exact hchildren z (List.mem_append_left _ hin)
    · rcases List.mem_cons.mp hin with rfl | hin
      · exact hlower
      · rcases List.mem_cons.mp hin with rfl | hin
        · exact hupper
        · exact hchildren z (List.mem_append_right _ (List.mem_cons_of_mem _ hin))

/-! ## The way down -/

/-- A child with room, between smaller and greater keys. -/
structure RoomBelow [LinearOrder A] (va : K → A) (t low : ℕ) (k : K) (x : KbNode K (h + 1)) (i : ℕ)
    (contents : List K) : Prop where
  child : ∃ left right lefts y rights, x = internal (left ++ right) (lefts ++ y :: rights) ∧
    left.length = i ∧ lefts.length = i ∧ y.n < 2 * t - 1 ∧ (∀ a ∈ left, va a < va k) ∧
    ∀ b ∈ right, va k < va b
  wf : x.Wf t low
  contents_eq : x.toList = contents

variable [LinearOrder A] {va : K → A}

/-- Splitting what is full gives room below. -/
theorem kbSplitFull_eq (ht : 2 ≤ t) (hlength : lefts.length = left.length)
    (hwf : (internal (left ++ right) (lefts ++ y :: rights)).Wf t low)
    (hroom : (left ++ right).length < 2 * t - 1) (hleft : ∀ a ∈ left, va a < va k)
    (hright : ∀ b ∈ right, va k < va b)
    (hnew : ∀ e ∈ (internal (left ++ right) (lefts ++ y :: rights)).toList, va e ≠ va k) :
    ∃ x i, kbSplitFull va t k (internal (left ++ right) (lefts ++ y :: rights)) left.length =
        some (x, i) ∧
      RoomBelow va t low k x i (internal (left ++ right) (lefts ++ y :: rights)).toList := by
  have hy := (wf_internal.mp hwf).2.2.2 y (by simp)
  have hle := hy.n_le
  have hptr : (lefts ++ y :: rights)[left.length]? = some y := by rw [← hlength, getElem?_middle]
  unfold kbSplitFull
  rw [ptrs_internal, hptr, Option.bind_some]
  by_cases hfull : y.n = 2 * t - 1
  · obtain ⟨key, hsplit, hcontents, hwf', hlowerN, hupperN⟩ := kbSplit_eq ht hlength hwf hroom hfull
    have hkeyNew : va key ≠ va k := by
      refine hnew key ?_
      rw [← hcontents, toList_key hlength]
      simp
    rw [if_pos hfull, hsplit, Option.bind_some, keys_internal, getElem?_middle, Option.map_some]
    refine ⟨_, _, rfl, ?_, hwf', hcontents⟩
    rcases lt_or_gt_of_ne hkeyNew with hlt | hgt
    · rw [if_pos (kbCmp_pos.mpr hlt)]
      refine ⟨left ++ [key], right, lefts ++ [y.lower t], y.upper t, rights, ?_, ?_, ?_, by omega,
        fun a ha => ?_, hright⟩
      · simp
      · simp
      · simp [hlength]
      · rcases List.mem_append.mp ha with hin | hin
        · exact hleft a hin
        · rw [List.mem_singleton.mp hin]
          exact hlt
    · rw [if_neg fun hpos => lt_asymm hgt (kbCmp_pos.mp hpos)]
      refine ⟨left, key :: right, lefts, y.lower t, y.upper t :: rights, rfl, rfl, hlength, by omega,
        hleft, fun b hb => ?_⟩
      rcases List.mem_cons.mp hb with rfl | hin
      · exact hgt
      · exact hright b hin
  · rw [if_neg hfull]
    exact ⟨_, _, rfl, ⟨left, right, lefts, y, rights, rfl, rfl, hlength, by omega, hleft, hright⟩,
      hwf, rfl⟩

/-- `__kb_putp_aux` puts a new key where it belongs, and no array overflows. -/
theorem kbPutpAux_eq (ht : 2 ≤ t) (x : KbNode K h) (hwf : x.Wf t low) (hroom : x.n < 2 * t - 1)
    (hsorted : Ascending va x.toList) (hnew : ∀ e ∈ x.toList, va e ≠ va k) :
    ∃ x', kbPutpAux va t k x = some x' ∧ x'.Wf t low ∧ Inserted va k x.toList x'.toList := by
  induction h generalizing low with
  | zero =>
      have hkeysSorted : Ascending va x.keys := hsorted
      obtain ⟨result, haux, hlocated⟩ := kbGetpAux_located hkeysSorted k 0
      rw [kbPutpAux, haux, Option.map_some]
      cases hlocated with
      | found left right e hkeys heq => exact absurd heq (hnew e (by rw [toList_zero, hkeys]; simp))
      | between left right r hkeys hleft hright hr =>
          dsimp only
          have hlow := hwf.le_n
          rw [n, hkeys, List.length_append] at hlow hroom
          rw [child_index, hkeys, insertIdx_middle]
          refine ⟨_, rfl, wf_leaf.mpr ?_, left, right, hkeys, rfl, hleft, hright⟩
          rw [List.length_append, List.length_cons]
          omega
  | succ h ih =>
      obtain ⟨keys, ptrs, rfl⟩ := exists_internal x
      obtain ⟨_, _, hlength, _⟩ := wf_internal.mp hwf
      obtain ⟨result, haux, hlocated⟩ := kbGetpAux_located (keys_ascending hlength hsorted) k 0
      rw [kbPutpAux, keys_internal, haux, Option.bind_some]
      cases hlocated with
      | found left right e hkeys heq =>
          subst hkeys
          refine absurd heq (hnew e ((sublist_interleave ?_).subset (List.mem_append_right _ List.mem_cons_self)))
          exact (List.length_map _).trans hlength
      | between left right r hkeys hleft hright hr =>
          subst hkeys
          obtain ⟨lefts, y, rights, rfl, hlefts, _⟩ := exists_child hlength
          obtain ⟨x', i, hfull, ⟨left', right', lefts', z, rights', rfl, rfl, hlefts', hz, hleft', hright'⟩,
            hwf', hcontents⟩ := kbSplitFull_eq ht hlefts hwf hroom hleft hright hnew
          dsimp only
          rw [child_index, hfull, Option.bind_some]
          dsimp only
          rw [ptrs_internal, keys_internal, ← hlefts', getElem?_middle, Option.bind_some]
          rw [← hcontents, toList_child hlefts'] at hsorted hnew ⊢
          obtain ⟨hfront, hrest, _⟩ := List.pairwise_append.mp hsorted
          obtain ⟨hchild, hback, _⟩ := List.pairwise_append.mp hrest
          obtain ⟨z', hput, hwfz, hinserted⟩ := ih z ((wf_internal.mp hwf').2.2.2 z (by simp)) hz
            hchild fun e he => hnew e (by simp [he])
          rw [hput, Option.map_some, set_middle]
          refine ⟨_, rfl, hwf'.set_child hwfz, ?_⟩
          rw [toList_child hlefts']
          exact hinserted.middle (front_lt hfront hleft') (back_gt hback hright')

end KbNode

end ArmsTiering
