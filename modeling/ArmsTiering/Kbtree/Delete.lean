import ArmsTiering.Kbtree.Insert

/-!
# Deletion from a B-tree

On its way down `kb_delp` gives every node a key to spare, from a sibling or by
merging two nodes.  A key of an internal node is replaced by its neighbour in a leaf.
-/

namespace ArmsTiering

open Interleaving KbNode

variable {K A : Type} {h : ℕ}

/-- What `__kb_delp_aux` is to delete: the key that `k` points to, or with `s` the last
key or the first one. -/
inductive KbTarget (K : Type)
  | key (k : K)
  | last
  | first

namespace KbNode

/-- Two nodes and the key between them become one node. -/
def merge : {h : ℕ} → KbNode K h → K → KbNode K h → KbNode K h
  | 0, y, k, z => leaf (y.keys ++ k :: z.keys)
  | _ + 1, y, k, z => internal (y.keys ++ k :: z.keys) (y.ptrs ++ z.ptrs)

/-- The last key of `y` replaces the key in front of `xp`, which goes down. -/
def borrowLeft : {h : ℕ} → KbNode K h → K → KbNode K h → Option (KbNode K h × K × KbNode K h)
  | 0, y, k, xp =>
      y.keys[y.n - 1]?.map fun key => (leaf (y.keys.take (y.n - 1)), key, leaf (k :: xp.keys))
  | _ + 1, y, k, xp =>
      y.keys[y.n - 1]?.bind fun key => y.ptrs[y.n]?.map fun ptr =>
        (internal (y.keys.take (y.n - 1)) (y.ptrs.take y.n), key,
          internal (k :: xp.keys) (ptr :: xp.ptrs))

/-- The first key of `y` replaces the key behind `xp`, which goes down. -/
def borrowRight : {h : ℕ} → KbNode K h → K → KbNode K h → Option (KbNode K h × K × KbNode K h)
  | 0, xp, k, y => y.keys[0]?.map fun key => (leaf (xp.keys ++ [k]), key, leaf (y.keys.drop 1))
  | _ + 1, xp, k, y =>
      y.keys[0]?.bind fun key => y.ptrs[0]?.map fun ptr =>
        (internal (xp.keys ++ [k]) (xp.ptrs ++ [ptr]), key,
          internal (y.keys.drop 1) (y.ptrs.drop 1))

end KbNode

section

variable (t : ℕ)

/-- The child in front of the one at `i` -/
def leftSibling (x : KbNode K (h + 1)) (i : ℕ) : Option (KbNode K h) :=
  if 0 < i then x.ptrs[i - 1]? else none

/-- The child behind the one at `i` -/
def rightSibling (x : KbNode K (h + 1)) (i : ℕ) : Option (KbNode K h) :=
  if i < x.n then x.ptrs[i + 1]? else none

/-- The child `xp` at `i` gets a key from `y` in front of it. -/
def kbTakeLeft (x : KbNode K (h + 1)) (i : ℕ) (y xp : KbNode K h) : Option (KbNode K (h + 1) × ℕ) :=
  x.keys[i - 1]?.bind fun k => (borrowLeft y k xp).map fun (y, key, xp) =>
    (internal (x.keys.set (i - 1) key) ((x.ptrs.set (i - 1) y).set i xp), i)

/-- The child `xp` at `i` gets a key from `y` behind it. -/
def kbTakeRight (x : KbNode K (h + 1)) (i : ℕ) (xp y : KbNode K h) : Option (KbNode K (h + 1) × ℕ) :=
  x.keys[i]?.bind fun k => (borrowRight xp k y).map fun (xp, key, y) =>
    (internal (x.keys.set i key) ((x.ptrs.set i xp).set (i + 1) y), i)

/-- The child `xp` at `i` is merged into `y` in front of it. -/
def kbMergeLeft (x : KbNode K (h + 1)) (i : ℕ) (y xp : KbNode K h) : Option (KbNode K (h + 1) × ℕ) :=
  x.keys[i - 1]?.map fun k =>
    (internal (x.keys.eraseIdx (i - 1)) ((x.ptrs.set (i - 1) (merge y k xp)).eraseIdx i), i - 1)

/-- The child `y` behind it is merged into `xp` at `i`. -/
def kbMergeRight (x : KbNode K (h + 1)) (i : ℕ) (xp y : KbNode K h) : Option (KbNode K (h + 1) × ℕ) :=
  x.keys[i]?.map fun k =>
    (internal (x.keys.eraseIdx i) ((x.ptrs.set i (merge xp k y)).eraseIdx (i + 1)), i)

/-- `__kb_delp_aux` gives the child `xp` at `i` a key to spare.  The result names the
child, which a merge can move. -/
def kbRefill (x : KbNode K (h + 1)) (i : ℕ) : Option (KbNode K (h + 1) × ℕ) :=
  x.ptrs[i]?.bind fun xp =>
    if xp.n = t - 1 then
      match (leftSibling x i).filter (t ≤ ·.n), (rightSibling x i).filter (t ≤ ·.n),
        (leftSibling x i).filter (·.n = t - 1), (rightSibling x i).filter (·.n = t - 1) with
      | some y, _, _, _ => kbTakeLeft x i y xp
      | none, some y, _, _ => kbTakeRight x i xp y
      | none, none, some y, _ => kbMergeLeft x i y xp
      | none, none, none, some y => kbMergeRight x i xp y
      | none, none, none, none => some (x, i)
    else some (x, i)

variable (del : KbNode K h → KbTarget K → Option (KbNode K h × K))

/-- The end of `__kb_delp_aux`, which goes on with the child at `i`. -/
def kbDelpChild (x : KbNode K (h + 1)) (i : ℕ) (target : KbTarget K) :
    Option (KbNode K (h + 1) × K) :=
  (kbRefill t x i).bind fun (x, i) =>
    x.ptrs[i]?.bind fun xp =>
      (del xp target).map fun (xp, kp) => (internal x.keys (x.ptrs.set i xp), kp)

/-- `__kb_delp_aux` where the key is the one at `i` of an internal node. -/
def kbDelpFound (x : KbNode K (h + 1)) (i : ℕ) (target : KbTarget K) :
    Option (KbNode K (h + 1) × K) :=
  x.ptrs[i]?.bind fun y => x.ptrs[i + 1]?.bind fun z =>
    if t ≤ y.n then
      x.keys[i]?.bind fun kp => (del y .last).map fun (y, key) =>
        (internal (x.keys.set i key) (x.ptrs.set i y), kp)
    else if t ≤ z.n then
      x.keys[i]?.bind fun kp => (del z .first).map fun (z, key) =>
        (internal (x.keys.set i key) (x.ptrs.set (i + 1) z), kp)
    else if y.n = t - 1 ∧ z.n = t - 1 then
      match target with
      | .key k => (del (merge y k z) target).map fun (y, kp) =>
          (internal (x.keys.eraseIdx i) ((x.ptrs.set i y).eraseIdx (i + 1)), kp)
      | _ => none
    else kbDelpChild t del x (i + 1) target

end

variable [LinearOrder A] (va : K → A) (t : ℕ)

/-- The index `i` and `r` at the start of `__kb_delp_aux`, in an internal node. -/
def kbDelpStart (keys : List K) : KbTarget K → Option (ℤ × ℤ)
  | .key k => kbGetpAux va keys k 0
  | .last => some ((keys.length : ℤ) - 1, 1)
  | .first => some (-1, -1)

/-- The index of the key that `__kb_delp_aux` removes from a leaf. -/
def kbDelpIndex (keys : List K) : KbTarget K → Option ℤ
  | .key k => (kbGetpAux va keys k 0).map Prod.fst
  | .last => some ((keys.length : ℤ) - 1)
  | .first => some (-1 + 1)

/-- `__kb_delp_aux`; undefined outside of the arrays of a node. -/
def kbDelpAux : {h : ℕ} → KbNode K h → KbTarget K → Option (KbNode K h × K)
  | 0, x, target =>
      (kbDelpIndex va x.keys target).bind fun i =>
        if i < 0 then none
        else x.keys[i.toNat]?.map fun kp => (leaf (x.keys.eraseIdx i.toNat), kp)
  | _ + 1, x, target =>
      (kbDelpStart va x.keys target).bind fun (i, r) =>
        if r = 0 then if i < 0 then none else kbDelpFound t (kbDelpAux) x i.toNat target
        else kbDelpChild t (kbDelpAux) x (i + 1).toNat target

/-! ## What is deleted -/

/-- The list has what is to be deleted. -/
def Available : KbTarget K → List K → Prop
  | .key k, l => ∃ e ∈ l, va e = va k
  | _, l => l ≠ []

/-- `l'` is `l` without it; the result `kp` stands for the same address. -/
def Removed : KbTarget K → List K → List K → K → Prop
  | .key k, l, l', kp => ∃ left e right, l = left ++ e :: right ∧ va e = va k ∧ l' = left ++ right ∧
      va kp = va k
  | .last, l, l', kp => l = l' ++ [kp]
  | .first, l, l', kp => l = kp :: l'

/-- It is not in what stands in front of a child or behind it. -/
def Fits : KbTarget K → List K → List K → Prop
  | .key k, front, back => (∀ a ∈ front, va a < va k) ∧ ∀ b ∈ back, va k < va b
  | .last, _, back => back = []
  | .first, front, _ => front = []

section

variable {va} {target : KbTarget K} {l l' front back front' back' : List K} {kp : K}

theorem Fits.mono (hfits : Fits va target front back) (hfront : front'.Sublist front)
    (hback : back'.Sublist back) : Fits va target front' back' := by
  cases target with
  | key k => exact ⟨fun a ha => hfits.1 a (hfront.subset ha), fun b hb => hfits.2 b (hback.subset hb)⟩
  | last =>
      rw [show back = [] from hfits, List.sublist_nil] at hback
      exact hback
  | first =>
      rw [show front = [] from hfits, List.sublist_nil] at hfront
      exact hfront

theorem Available.child (havailable : Available va target (front ++ (l ++ back)))
    (hfits : Fits va target front back) (hne : l ≠ []) : Available va target l := by
  cases target with
  | key k =>
      obtain ⟨e, he, heq⟩ := havailable
      rcases List.mem_append.mp he with hin | hin
      · exact absurd heq (hfits.1 e hin).ne
      · rcases List.mem_append.mp hin with hin | hin
        · exact ⟨e, hin, heq⟩
        · exact absurd heq (hfits.2 e hin).ne'
  | last => exact hne
  | first => exact hne

theorem Removed.middle (hremoved : Removed va target l l' kp) (hfits : Fits va target front back) :
    Removed va target (front ++ (l ++ back)) (front ++ (l' ++ back)) kp := by
  cases target with
  | key k =>
      obtain ⟨left, e, right, rfl, heq, rfl, hkp⟩ := hremoved
      exact ⟨front ++ left, e, right ++ back, by simp, heq, by simp, hkp⟩
  | last =>
      rw [show back = [] from hfits]
      rw [show l = l' ++ [kp] from hremoved]
      exact (by simp : front ++ (l' ++ [kp] ++ []) = front ++ (l' ++ []) ++ [kp])
  | first =>
      rw [show front = [] from hfits]
      rw [show l = kp :: l' from hremoved]
      rfl

end

namespace KbNode

variable {va} {t} {low : ℕ} {k e kp : K} {left right : List K} {target : KbTarget K}
  {lefts rights : List (KbNode K h)} {x y z xp : KbNode K h}

/-! ## Between siblings -/

theorem merge_eq (hy : y.Wf t (t - 1)) (hz : z.Wf t (t - 1)) (hyn : y.n = t - 1) (hzn : z.n = t - 1)
    (ht : 2 ≤ t) (k : K) :
    (merge y k z).Wf t t ∧ t ≤ (merge y k z).n ∧
      (merge y k z).toList = y.toList ++ k :: z.toList := by
  have hn : (y.keys ++ k :: z.keys).length = 2 * t - 1 := by
    rw [List.length_append, List.length_cons]
    rw [n] at hyn hzn
    omega
  cases h with
  | zero =>
      rw [merge]
      exact ⟨wf_leaf.mpr ⟨by omega, by omega⟩, by rw [n_leaf]; omega, rfl⟩
  | succ h =>
      obtain ⟨keys, ptrs, rfl⟩ := exists_internal y
      obtain ⟨keys', ptrs', rfl⟩ := exists_internal z
      obtain ⟨_, _, hlength, hchildren⟩ := wf_internal.mp hy
      obtain ⟨_, _, hlength', hchildren'⟩ := wf_internal.mp hz
      rw [keys_internal, keys_internal] at hn
      rw [n_internal] at hyn hzn
      rw [merge, keys_internal, keys_internal, ptrs_internal, ptrs_internal]
      refine ⟨wf_internal.mpr ⟨by omega, by omega, ?_, fun w hw => ?_⟩, by rw [n_internal]; omega, ?_⟩
      · rw [List.length_append, hlength, hlength', hn]
        omega
      · exact (List.mem_append.mp hw).elim (hchildren w) (hchildren' w)
      · rw [toList_internal, List.map_append]
        refine interleave_append_cons (by rw [List.length_map, hlength]) ?_
        exact List.ne_nil_of_length_eq_add_one (by rw [List.length_map, hlength'])

/-- A key and what is below it move from the end of the left sibling. -/
theorem borrowLeft_eq (hy : y.Wf t (t - 1)) (hspare : t ≤ y.n) (hxp : xp.Wf t (t - 1))
    (hxpn : xp.n = t - 1) (ht : 2 ≤ t) (k : K) :
    ∃ y' key xp' moved, borrowLeft y k xp = some (y', key, xp') ∧ y'.Wf t (t - 1) ∧
      xp'.Wf t (t - 1) ∧ t ≤ xp'.n ∧ y.toList = y'.toList ++ key :: moved ∧
      xp'.toList = moved ++ k :: xp.toList := by
  obtain ⟨left, key, hkeys⟩ : ∃ left key, y.keys = left ++ [key] := by
    refine y.keys.eq_nil_or_concat'.resolve_left fun hnil => ?_
    rw [n, hnil, List.length_nil] at hspare
    omega
  have hn : y.n = left.length + 1 := by rw [n, hkeys, List.length_append, List.length_singleton]
  have hle := hy.n_le
  cases h with
  | zero =>
      rw [borrowLeft, hn, Nat.add_sub_cancel, hkeys, getElem?_middle, Option.map_some, List.take_left]
      rw [n] at hxpn
      refine ⟨_, _, _, [], rfl, wf_leaf.mpr ⟨by omega, by omega⟩, wf_leaf.mpr ⟨?_, ?_⟩, ?_, ?_, rfl⟩
      · rw [List.length_cons]
        omega
      · rw [List.length_cons]
        omega
      · rw [n_leaf, List.length_cons]
        omega
      · rw [toList_zero, hkeys, toList_leaf]
  | succ h =>
      obtain ⟨keys, ptrs, rfl⟩ := exists_internal y
      obtain ⟨keys', ptrs', rfl⟩ := exists_internal xp
      obtain ⟨_, _, hlength, hchildren⟩ := wf_internal.mp hy
      obtain ⟨_, _, hlength', hchildren'⟩ := wf_internal.mp hxp
      rw [keys_internal] at hkeys
      subst hkeys
      rw [n_internal] at hxpn
      obtain ⟨front, ptr, rfl⟩ := ptrs.eq_nil_or_concat'.resolve_left
        (List.ne_nil_of_length_eq_add_one hlength)
      have hfront : front.length = left.length + 1 := by simpa using hlength
      rw [borrowLeft, hn, Nat.add_sub_cancel, keys_internal, ptrs_internal, getElem?_middle,
        Option.bind_some, ← hfront, getElem?_middle, Option.map_some, List.take_left, List.take_left]
      refine ⟨_, _, _, ptr.toList, rfl, wf_internal.mpr ⟨by omega, by omega, hfront, fun w hw => ?_⟩,
        wf_internal.mpr ⟨?_, ?_, ?_, fun w hw => ?_⟩, ?_, ?_, ?_⟩
      · exact hchildren w (List.mem_append_left _ hw)
      · rw [keys_internal, List.length_cons]
        omega
      · rw [keys_internal, List.length_cons]
        omega
      · rw [keys_internal, ptrs_internal, List.length_cons, List.length_cons, hlength']
      · rcases List.mem_cons.mp hw with rfl | hin
        · exact hchildren w (by simp)
        · exact hchildren' w hin
      · rw [n_internal, keys_internal, List.length_cons]
        omega
      · rw [toList_internal, List.map_append]
        have hsplit : interleave (front.map toList ++ [ptr.toList]) (left ++ [key]) =
            interleave (front.map toList) left ++ key :: interleave [ptr.toList] [] :=
          interleave_append_cons (by rw [List.length_map, hfront]) (List.cons_ne_nil _ _)
        exact hsplit.trans (by simp [interleave])
      · obtain ⟨first, ptrs', rfl⟩ := List.exists_cons_of_length_eq_add_one hlength'
        simp [interleave]

/-- A key and what is below it move from the start of the right sibling. -/
theorem borrowRight_eq (hy : y.Wf t (t - 1)) (hspare : t ≤ y.n) (hxp : xp.Wf t (t - 1))
    (hxpn : xp.n = t - 1) (ht : 2 ≤ t) (k : K) :
    ∃ xp' key y' moved, borrowRight xp k y = some (xp', key, y') ∧ y'.Wf t (t - 1) ∧
      xp'.Wf t (t - 1) ∧ t ≤ xp'.n ∧ y.toList = moved ++ key :: y'.toList ∧
      xp'.toList = xp.toList ++ k :: moved := by
  obtain ⟨key, right, hkeys⟩ : ∃ key right, y.keys = key :: right := by
    refine List.exists_cons_of_ne_nil fun hnil => ?_
    rw [n, hnil, List.length_nil] at hspare
    omega
  have hn : y.n = right.length + 1 := by rw [n, hkeys, List.length_cons]
  have hle := hy.n_le
  cases h with
  | zero =>
      rw [borrowRight, hkeys, List.getElem?_cons_zero, Option.map_some, List.drop_one, List.tail_cons]
      rw [n] at hxpn
      refine ⟨_, _, _, [], rfl, wf_leaf.mpr ⟨by omega, by omega⟩, wf_leaf.mpr ⟨?_, ?_⟩, ?_, ?_, rfl⟩
      · rw [List.length_append, List.length_singleton]
        omega
      · rw [List.length_append, List.length_singleton]
        omega
      · rw [n_leaf, List.length_append, List.length_singleton]
        omega
      · rw [toList_zero, hkeys]
        rfl
  | succ h =>
      obtain ⟨keys, ptrs, rfl⟩ := exists_internal y
      obtain ⟨keys', ptrs', rfl⟩ := exists_internal xp
      obtain ⟨_, _, hlength, hchildren⟩ := wf_internal.mp hy
      obtain ⟨_, _, hlength', hchildren'⟩ := wf_internal.mp hxp
      rw [keys_internal] at hkeys
      subst hkeys
      rw [n_internal] at hxpn
      obtain ⟨ptr, ptrs, rfl⟩ := List.exists_cons_of_length_eq_add_one hlength
      have hrest : ptrs.length = right.length + 1 := by simpa using hlength
      simp only [borrowRight, keys_internal, ptrs_internal, List.getElem?_cons_zero,
        Option.bind_some, Option.map_some, List.drop_one, List.tail_cons]
      refine ⟨_, _, _, ptr.toList, rfl, wf_internal.mpr ⟨by omega, by omega, hrest, fun w hw => ?_⟩,
        wf_internal.mpr ⟨?_, ?_, ?_, fun w hw => ?_⟩, ?_, ?_, ?_⟩
      · exact hchildren w (List.mem_cons_of_mem _ hw)
      · rw [List.length_append, List.length_singleton]
        omega
      · rw [List.length_append, List.length_singleton]
        omega
      · simp [hlength']
      · rcases List.mem_append.mp hw with hin | hin
        · exact hchildren' w hin
        · exact hchildren w (by simp_all)
      · rw [n_internal, List.length_append, List.length_singleton]
        omega
      · obtain ⟨first, ptrs, rfl⟩ := List.exists_cons_of_length_eq_add_one hrest
        simp [interleave]
      · rw [toList_internal, List.map_append]
        have hsplit : interleave (ptrs'.map toList ++ [ptr.toList]) (keys' ++ [k]) =
            interleave (ptrs'.map toList) keys' ++ k :: interleave [ptr.toList] [] :=
          interleave_append_cons (by rw [List.length_map, hlength']) (List.cons_ne_nil _ _)
        exact hsplit.trans (by simp [interleave])

/-! ## A key to spare -/

/-- The node after refilling: the child at `i` has a key to spare, and no more is in
front of it or behind it than before. -/
structure Refilled (t low : ℕ) (x : KbNode K (h + 1)) (i : ℕ) (contents front' back' : List K) :
    Prop where
  child : ∃ left right lefts y rights, x = internal (left ++ right) (lefts ++ y :: rights) ∧
    left.length = i ∧ lefts.length = i ∧ t ≤ y.n ∧ (front lefts left).Sublist front' ∧
    (back right rights).Sublist back'
  wf : x.Wf t low
  contents_eq : x.toList = contents

theorem toList_left (hlength : lefts.length = left.length) :
    (internal (left ++ e :: right) (lefts ++ y :: z :: rights)).toList =
      front lefts left ++ ((y.toList ++ e :: z.toList) ++ back right rights) := by
  rw [toList_key hlength, List.append_assoc, List.cons_append]

theorem front_concat (hlength : lefts.length = left.length) :
    front (lefts ++ [y]) (left ++ [e]) = front lefts left ++ (y.toList ++ [e]) := by
  rw [front, List.map_append, before_append (by rw [List.length_map, hlength])]
  simp

/-- The children on both sides of a key are replaced. -/
theorem Wf.set_pair {y' z' : KbNode K h}
    (hwf : (internal (left ++ e :: right) (lefts ++ y :: z :: rights)).Wf t low)
    (hy : y'.Wf t (t - 1)) (hz : z'.Wf t (t - 1)) (key : K) :
    (internal (left ++ key :: right) (lefts ++ y' :: z' :: rights)).Wf t low := by
  obtain ⟨hlow, hle, hlength, hchildren⟩ := wf_internal.mp hwf
  refine wf_internal.mpr ⟨by simpa using hlow, by simpa using hle, by simpa using hlength,
    fun w hw => ?_⟩
  rcases List.mem_append.mp hw with hin | hin
  · exact hchildren w (List.mem_append_left _ hin)
  · rcases List.mem_cons.mp hin with rfl | hin
    · exact hy
    · rcases List.mem_cons.mp hin with rfl | hin
      · exact hz
      · exact hchildren w (by simp [hin])

/-- The children on both sides of a key become one. -/
theorem Wf.merge_pair
    (hwf : (internal (left ++ e :: right) (lefts ++ y :: z :: rights)).Wf t (low + 1))
    (hy : x.Wf t (t - 1)) : (internal (left ++ right) (lefts ++ x :: rights)).Wf t low := by
  obtain ⟨hlow, hle, hlength, hchildren⟩ := wf_internal.mp hwf
  simp only [List.length_append, List.length_cons] at hlow hle hlength
  refine wf_internal.mpr ⟨?_, ?_, ?_, fun w hw => ?_⟩
  · rw [List.length_append]
    omega
  · rw [List.length_append]
    omega
  · simp only [List.length_append, List.length_cons]
    omega
  · rcases List.mem_append.mp hw with hin | hin
    · exact hchildren w (List.mem_append_left _ hin)
    · rcases List.mem_cons.mp hin with rfl | hin
      · exact hy
      · exact hchildren w (by simp [hin])

theorem set_second (ptrs ptrs' : List (KbNode K h)) (y z w : KbNode K h) :
    (ptrs ++ y :: z :: ptrs').set (ptrs.length + 1) w = ptrs ++ y :: w :: ptrs' := by
  have hset := set_middle (ptrs ++ [y]) ptrs' z w
  rwa [List.append_assoc, List.append_assoc, List.length_append] at hset

theorem eraseIdx_second (ptrs ptrs' : List (KbNode K h)) (y z : KbNode K h) :
    (ptrs ++ y :: z :: ptrs').eraseIdx (ptrs.length + 1) = ptrs ++ y :: ptrs' := by
  have herase := eraseIdx_middle (ptrs ++ [y]) ptrs' z
  rwa [List.append_assoc, List.append_assoc, List.length_append] at herase

theorem kbTakeLeft_refilled (ht : 2 ≤ t) (hlength : lefts.length = left.length)
    (hwf : (internal (left ++ e :: right) (lefts ++ y :: xp :: rights)).Wf t (low + 1))
    (hxpn : xp.n = t - 1) (hspare : t ≤ y.n) :
    ∃ x' i, kbTakeLeft (internal (left ++ e :: right) (lefts ++ y :: xp :: rights))
        (left.length + 1) y xp = some (x', i) ∧
      Refilled t low x' i (internal (left ++ e :: right) (lefts ++ y :: xp :: rights)).toList
        (front (lefts ++ [y]) (left ++ [e])) (back right rights) := by
  have hchildren := (wf_internal.mp hwf).2.2.2
  obtain ⟨y', key, xp', moved, hborrow, hy', hxp', hn, hylist, hxplist⟩ :=
    borrowLeft_eq (hchildren y (by simp)) hspare (hchildren xp (by simp)) hxpn ht e
  have hwf' := hwf.set_pair hy' hxp' key
  rw [kbTakeLeft, keys_internal, ptrs_internal, Nat.add_sub_cancel, getElem?_middle, Option.bind_some,
    hborrow, Option.map_some]
  dsimp only
  rw [set_middle, ← hlength, set_middle, set_second]
  refine ⟨_, _, rfl, ⟨left ++ [key], right, lefts ++ [y'], xp', rights, by simp, by simp [hlength],
    by simp, hn, ?_, List.Sublist.refl _⟩, hwf'.mono (Nat.le_of_succ_le hwf'.le_n), ?_⟩
  · rw [front_concat hlength, front_concat hlength, hylist]
    refine List.Sublist.append_left ?_ _
    rw [List.append_assoc, List.cons_append]
    exact (List.singleton_sublist.mpr List.mem_cons_self).append_left _
  · rw [toList_left hlength, toList_left hlength, hylist, hxplist]
    simp

theorem kbTakeRight_refilled (ht : 2 ≤ t) (hlength : lefts.length = left.length)
    (hwf : (internal (left ++ e :: right) (lefts ++ xp :: y :: rights)).Wf t (low + 1))
    (hxpn : xp.n = t - 1) (hspare : t ≤ y.n) :
    ∃ x' i, kbTakeRight (internal (left ++ e :: right) (lefts ++ xp :: y :: rights)) left.length xp y =
        some (x', i) ∧
      Refilled t low x' i (internal (left ++ e :: right) (lefts ++ xp :: y :: rights)).toList
        (front lefts left) (back (e :: right) (y :: rights)) := by
  have hchildren := (wf_internal.mp hwf).2.2.2
  obtain ⟨xp', key, y', moved, hborrow, hy', hxp', hn, hylist, hxplist⟩ :=
    borrowRight_eq (hchildren y (by simp)) hspare (hchildren xp (by simp)) hxpn ht e
  have hwf' := hwf.set_pair hxp' hy' key
  rw [kbTakeRight, keys_internal, ptrs_internal, getElem?_middle, Option.bind_some, hborrow,
    Option.map_some]
  dsimp only
  rw [set_middle, ← hlength, set_middle, set_second]
  refine ⟨_, _, rfl, ⟨left, key :: right, lefts, xp', y' :: rights, rfl, hlength.symm, rfl, hn,
    List.Sublist.refl _, ?_⟩, hwf'.mono (Nat.le_of_succ_le hwf'.le_n), ?_⟩
  · rw [back, back, List.map_cons, List.map_cons, after_cons, after_cons, hylist]
    rw [List.append_assoc, List.cons_append]
    exact (List.sublist_append_right _ _).cons e
  · rw [toList_left hlength, toList_left hlength, hylist, hxplist]
    simp

theorem merged_refilled (ht : 2 ≤ t) (hlength : lefts.length = left.length)
    (hwf : (internal (left ++ e :: right) (lefts ++ y :: z :: rights)).Wf t (low + 1))
    (hyn : y.n = t - 1) (hzn : z.n = t - 1) {front' back' : List K}
    (hfront : (front lefts left).Sublist front') (hback : (back right rights).Sublist back') :
    Refilled t low (internal (left ++ right) (lefts ++ merge y e z :: rights)) left.length
      (internal (left ++ e :: right) (lefts ++ y :: z :: rights)).toList front' back' := by
  have hchildren := (wf_internal.mp hwf).2.2.2
  obtain ⟨hmerged, hn, hlist⟩ := merge_eq (hchildren y (by simp)) (hchildren z (by simp)) hyn hzn ht e
  refine ⟨⟨left, right, lefts, _, rights, rfl, rfl, hlength, hn, hfront, hback⟩,
    hwf.merge_pair (hmerged.mono (by omega)), ?_⟩
  rw [toList_child hlength, hlist, toList_left hlength]

theorem kbMergeLeft_refilled (ht : 2 ≤ t) (hlength : lefts.length = left.length)
    (hwf : (internal (left ++ e :: right) (lefts ++ y :: xp :: rights)).Wf t (low + 1))
    (hxpn : xp.n = t - 1) (hyn : y.n = t - 1) :
    ∃ x' i, kbMergeLeft (internal (left ++ e :: right) (lefts ++ y :: xp :: rights))
        (left.length + 1) y xp = some (x', i) ∧
      Refilled t low x' i (internal (left ++ e :: right) (lefts ++ y :: xp :: rights)).toList
        (front (lefts ++ [y]) (left ++ [e])) (back right rights) := by
  have hfront : (front lefts left).Sublist (front (lefts ++ [y]) (left ++ [e])) := by
    rw [front_concat hlength]
    exact List.sublist_append_left _ _
  refine ⟨_, _, ?_, merged_refilled ht hlength hwf hyn hxpn hfront (List.Sublist.refl _)⟩
  rw [kbMergeLeft, keys_internal, ptrs_internal, Nat.add_sub_cancel, getElem?_middle, Option.map_some,
    eraseIdx_middle, ← hlength, set_middle, eraseIdx_second]

theorem kbMergeRight_refilled (ht : 2 ≤ t) (hlength : lefts.length = left.length)
    (hwf : (internal (left ++ e :: right) (lefts ++ xp :: y :: rights)).Wf t (low + 1))
    (hxpn : xp.n = t - 1) (hyn : y.n = t - 1) :
    ∃ x' i, kbMergeRight (internal (left ++ e :: right) (lefts ++ xp :: y :: rights)) left.length
        xp y = some (x', i) ∧
      Refilled t low x' i (internal (left ++ e :: right) (lefts ++ xp :: y :: rights)).toList
        (front lefts left) (back (e :: right) (y :: rights)) := by
  have hback : (back right rights).Sublist (back (e :: right) (y :: rights)) := by
    rw [back, back, List.map_cons, after_cons]
    exact (List.sublist_append_right _ _).cons e
  refine ⟨_, _, ?_, merged_refilled ht hlength hwf hxpn hyn (List.Sublist.refl _) hback⟩
  rw [kbMergeRight, keys_internal, ptrs_internal, getElem?_middle, Option.map_some, eraseIdx_middle,
    ← hlength, set_middle, eraseIdx_second]

theorem exists_left (hlength : lefts.length = left.length)
    (hleft : leftSibling (internal (left ++ right) (lefts ++ xp :: rights)) left.length = some y) :
    ∃ left' e lefts', left = left' ++ [e] ∧ lefts = lefts' ++ [y] ∧ lefts'.length = left'.length := by
  obtain ⟨hpos, hptr⟩ := Option.ite_none_right_eq_some.mp hleft
  obtain ⟨left', e, rfl⟩ := left.eq_nil_or_concat'.resolve_left (List.ne_nil_of_length_pos hpos)
  obtain ⟨lefts', z, rfl⟩ := lefts.eq_nil_or_concat'.resolve_left
    (List.ne_nil_of_length_pos (hlength ▸ hpos))
  have hlength' : lefts'.length = left'.length := by simpa using hlength
  rw [ptrs_internal, List.length_append, List.length_singleton, Nat.add_sub_cancel, ← hlength',
    List.append_assoc, List.singleton_append, getElem?_middle, Option.some.injEq] at hptr
  exact ⟨left', e, lefts', rfl, by rw [hptr], hlength'⟩

theorem exists_right (hlength : lefts.length = left.length) (hrights : rights.length = right.length)
    (hright : rightSibling (internal (left ++ right) (lefts ++ xp :: rights)) left.length = some y) :
    ∃ e right' rights', right = e :: right' ∧ rights = y :: rights' := by
  obtain ⟨hlt, hptr⟩ := Option.ite_none_right_eq_some.mp hright
  rw [n_internal, List.length_append] at hlt
  cases right with
  | nil => simp at hlt
  | cons e right' =>
      obtain ⟨z, rights', rfl⟩ := List.exists_cons_of_length_eq_add_one hrights
      rw [ptrs_internal, ← hlength, List.getElem?_append_right (Nat.le_add_right _ 1),
        Nat.add_sub_cancel_left, List.getElem?_cons_succ, List.getElem?_cons_zero,
        Option.some.injEq] at hptr
      exact ⟨e, right', rights', rfl, by rw [hptr]⟩

/-- A node with a key has children on both sides of it. -/
theorem exists_sibling (hlength : lefts.length = left.length) (hrights : rights.length = right.length)
    (hpos : 0 < (left ++ right).length) :
    (∃ y ∈ lefts, leftSibling (internal (left ++ right) (lefts ++ xp :: rights)) left.length = some y) ∨
      ∃ y ∈ rights,
        rightSibling (internal (left ++ right) (lefts ++ xp :: rights)) left.length = some y := by
  rcases Nat.eq_zero_or_pos left.length with hzero | hleft
  · obtain rfl := List.length_eq_zero_iff.mp hzero
    obtain rfl := List.length_eq_zero_iff.mp hlength
    obtain ⟨y, rights', rfl⟩ := List.exists_cons_of_length_pos (hrights ▸ hpos)
    exact .inr ⟨y, List.mem_cons_self, if_pos hpos⟩
  · obtain ⟨lefts', y, rfl⟩ := lefts.eq_nil_or_concat'.resolve_left
      (List.ne_nil_of_length_pos (hlength ▸ hleft))
    refine .inl ⟨y, by simp, ?_⟩
    rw [leftSibling, if_pos hleft, ptrs_internal, ← hlength, List.length_append,
      List.length_singleton, Nat.add_sub_cancel, List.append_assoc, List.singleton_append,
      getElem?_middle]

/-- `__kb_delp_aux` gives a child a key to spare. -/
theorem kbRefill_eq (ht : 2 ≤ t) (hlength : lefts.length = left.length)
    (hwf : (internal (left ++ right) (lefts ++ xp :: rights)).Wf t (low + 1)) :
    ∃ x' i, kbRefill t (internal (left ++ right) (lefts ++ xp :: rights)) left.length =
        some (x', i) ∧
      Refilled t low x' i (internal (left ++ right) (lefts ++ xp :: rights)).toList
        (front lefts left) (back right rights) := by
  obtain ⟨hlow, _, hptrs, hchildren⟩ := wf_internal.mp hwf
  have hrights : rights.length = right.length := by
    simp only [List.length_append, List.length_cons] at hptrs
    omega
  have hpos : 0 < (left ++ right).length := by omega
  have hxp := (hchildren xp (by simp)).le_n
  unfold kbRefill
  rw [ptrs_internal, ← hlength, getElem?_middle, Option.bind_some, hlength]
  by_cases hxpn : xp.n = t - 1
  · rw [if_pos hxpn]
    split
    · rename_i y hfilter
      obtain ⟨hsome, hspare⟩ := Option.filter_eq_some_iff.mp hfilter
      obtain ⟨left', e, lefts', rfl, rfl, hlength'⟩ := exists_left hlength hsome
      rw [List.append_assoc, List.append_assoc] at hwf ⊢
      rw [List.length_append]
      exact kbTakeLeft_refilled ht hlength' hwf hxpn (of_decide_eq_true hspare)
    · rename_i y _ hfilter
      obtain ⟨hsome, hspare⟩ := Option.filter_eq_some_iff.mp hfilter
      obtain ⟨e, right', rights', rfl, rfl⟩ := exists_right hlength hrights hsome
      exact kbTakeRight_refilled ht hlength hwf hxpn (of_decide_eq_true hspare)
    · rename_i y _ _ hfilter
      obtain ⟨hsome, hyn⟩ := Option.filter_eq_some_iff.mp hfilter
      obtain ⟨left', e, lefts', rfl, rfl, hlength'⟩ := exists_left hlength hsome
      rw [List.append_assoc, List.append_assoc] at hwf ⊢
      rw [List.length_append]
      exact kbMergeLeft_refilled ht hlength' hwf hxpn (of_decide_eq_true hyn)
    · rename_i y _ _ _ hfilter
      obtain ⟨hsome, hyn⟩ := Option.filter_eq_some_iff.mp hfilter
      obtain ⟨e, right', rights', rfl, rfl⟩ := exists_right hlength hrights hsome
      exact kbMergeRight_refilled ht hlength hwf hxpn (of_decide_eq_true hyn)
    · rename_i hleft hright hleft' hright'
      exfalso
      rcases exists_sibling hlength hrights hpos with ⟨y, hy, hsome⟩ | ⟨y, hy, hsome⟩
      · have hle := (hchildren y (by simp [hy])).le_n
        rw [hsome, Option.filter_some_eq_none] at hleft hleft'
        simp only [decide_eq_true_eq] at hleft hleft'
        omega
      · have hle := (hchildren y (by simp [hy])).le_n
        rw [hsome, Option.filter_some_eq_none] at hright hright'
        simp only [decide_eq_true_eq] at hright hright'
        omega
  · rw [if_neg hxpn]
    exact ⟨_, _, rfl, ⟨left, right, lefts, xp, rights, rfl, rfl, hlength, by omega,
      List.Sublist.refl _, List.Sublist.refl _⟩, hwf.mono (Nat.le_of_succ_le hlow), rfl⟩

/-! ## The way down -/

theorem toList_ne_nil (hwf : x.Wf t low) (hpos : 0 < x.n) : x.toList ≠ [] := by
  have hne : x.keys ≠ [] := List.ne_nil_of_length_pos hpos
  cases h with
  | zero => exact hne
  | succ h =>
      obtain ⟨keys, ptrs, rfl⟩ := exists_internal x
      obtain ⟨_, _, hlength, _⟩ := wf_internal.mp hwf
      intro hnil
      have hsublist : keys.Sublist (interleave (ptrs.map toList) keys) :=
        sublist_interleave (by rw [List.length_map, hlength])
      rw [← toList_internal, hnil, List.sublist_nil] at hsublist
      exact hne hsublist

variable {del : KbNode K h → KbTarget K → Option (KbNode K h × K)}

/-- The deletion works in nodes with a key to spare. -/
def DeletesBelow (va : K → A) (t : ℕ) (del : KbNode K h → KbTarget K → Option (KbNode K h × K)) : Prop :=
  ∀ y target, y.Wf t t → Ascending va y.toList → Available va target y.toList →
    ∃ y' kp, del y target = some (y', kp) ∧ y'.Wf t (t - 1) ∧
      Removed va target y.toList y'.toList kp

/-- Deletion in a child. -/
theorem kbDelpChild_eq (ht : 2 ≤ t) (hdel : DeletesBelow va t del)
    (hlength : lefts.length = left.length)
    (hwf : (internal (left ++ right) (lefts ++ xp :: rights)).Wf t (low + 1))
    (hsorted : Ascending va (internal (left ++ right) (lefts ++ xp :: rights)).toList)
    (havailable : Available va target (internal (left ++ right) (lefts ++ xp :: rights)).toList)
    (hfits : Fits va target (front lefts left) (back right rights)) :
    ∃ x' kp, kbDelpChild t del (internal (left ++ right) (lefts ++ xp :: rights)) left.length target =
        some (x', kp) ∧ x'.Wf t low ∧
      Removed va target (internal (left ++ right) (lefts ++ xp :: rights)).toList x'.toList kp := by
  obtain ⟨x, i, hrefill, ⟨left', right', lefts', y, rights', rfl, rfl, hlefts', hspare, hfront, hback⟩,
    hwf', hcontents⟩ := kbRefill_eq ht hlength hwf
  have hfits' := hfits.mono hfront hback
  rw [← hcontents, toList_child hlefts'] at hsorted havailable ⊢
  have hy := (wf_internal.mp hwf').2.2.2 y (by simp)
  obtain ⟨_, hrest, _⟩ := List.pairwise_append.mp hsorted
  obtain ⟨hchild, _, _⟩ := List.pairwise_append.mp hrest
  obtain ⟨y', kp, hdeleted, hwfy, hremoved⟩ := hdel y target (hy.mono hspare) hchild
    (havailable.child hfits' (toList_ne_nil hy (by omega)))
  rw [kbDelpChild, hrefill, Option.bind_some]
  dsimp only
  rw [ptrs_internal, keys_internal, ← hlefts', getElem?_middle, Option.bind_some, hdeleted,
    Option.map_some, set_middle]
  refine ⟨_, _, rfl, hwf'.set_child hwfy, ?_⟩
  rw [toList_child hlefts']
  exact hremoved.middle hfits'

/-- In a list in order, only one key has a given address. -/
theorem filter_ne {l₁ l₂ : List K} (hsorted : Ascending va (l₁ ++ e :: l₂)) (heq : va e = va k) :
    (l₁ ++ e :: l₂).filter (fun a => va a ≠ va k) = l₁ ++ l₂ := by
  obtain ⟨_, htail, hcross⟩ := List.pairwise_append.mp hsorted
  rw [List.filter_append, List.filter_cons_of_neg (by simp [heq])]
  congr 1
  · refine List.filter_eq_self.mpr fun a ha => decide_eq_true ?_
    exact heq ▸ (hcross a ha e List.mem_cons_self).ne
  · refine List.filter_eq_self.mpr fun b hb => decide_eq_true ?_
    exact heq ▸ ((List.pairwise_cons.mp htail).1 b hb).ne'

theorem removed_key {l l' : List K} (hsorted : Ascending va l)
    (hremoved : Removed va (.key k) l l' kp) : l' = l.filter fun a => va a ≠ va k := by
  obtain ⟨left, e, right, rfl, heq, rfl, _⟩ := hremoved
  exact (filter_ne hsorted heq).symm

theorem ascending_replace {l₁ l₂ : List K} (hsorted : Ascending va (l₁ ++ e :: l₂))
    (heq : va e = va k) : Ascending va (l₁ ++ k :: l₂) := by
  have hmap : (l₁ ++ k :: l₂).map va = (l₁ ++ e :: l₂).map va := by simp [heq]
  have hascending : ((l₁ ++ e :: l₂).map va).Pairwise (· < ·) := List.pairwise_map.mpr hsorted
  rw [← hmap] at hascending
  exact List.pairwise_map.mp hascending

/-- Deletion of a key of an internal node. -/
theorem kbDelpFound_eq (ht : 2 ≤ t) (hdel : DeletesBelow va t del)
    (hlength : lefts.length = left.length)
    (hwf : (internal (left ++ e :: right) (lefts ++ y :: z :: rights)).Wf t (low + 1))
    (hsorted : Ascending va (internal (left ++ e :: right) (lefts ++ y :: z :: rights)).toList)
    (heq : va e = va k) :
    ∃ x' kp, kbDelpFound t del (internal (left ++ e :: right) (lefts ++ y :: z :: rights)) left.length
        (.key k) = some (x', kp) ∧ x'.Wf t low ∧
      Removed va (.key k) (internal (left ++ e :: right) (lefts ++ y :: z :: rights)).toList x'.toList
        kp := by
  have hchildren := (wf_internal.mp hwf).2.2.2
  have hy := hchildren y (by simp)
  have hz := hchildren z (by simp)
  have hyn := hy.le_n
  have hzn := hz.le_n
  rw [toList_left hlength] at hsorted
  obtain ⟨_, hrest, _⟩ := List.pairwise_append.mp hsorted
  obtain ⟨hpair, _, _⟩ := List.pairwise_append.mp hrest
  obtain ⟨hylist, hzlist, _⟩ := List.pairwise_append.mp hpair
  have hsecond : (lefts ++ y :: z :: rights)[left.length + 1]? = some z := by
    rw [← hlength, List.getElem?_append_right (Nat.le_add_right _ 1), Nat.add_sub_cancel_left,
      List.getElem?_cons_succ, List.getElem?_cons_zero]
  have hfirst : (lefts ++ y :: z :: rights)[left.length]? = some y := by
    rw [← hlength, getElem?_middle]
  have hlow : ∀ {x : KbNode K (h + 1)}, x.Wf t (low + 1) → x.Wf t low :=
    fun hx => hx.mono (Nat.le_of_succ_le hx.le_n)
  unfold kbDelpFound
  rw [ptrs_internal, keys_internal, hfirst, Option.bind_some, hsecond, Option.bind_some,
    toList_key hlength]
  by_cases hyspare : t ≤ y.n
  · obtain ⟨y', kp, hdeleted, hwfy, hremoved⟩ :=
      hdel y .last (hy.mono hyspare) hylist (toList_ne_nil hy (by omega))
    rw [if_pos hyspare, getElem?_middle, Option.bind_some, hdeleted, Option.map_some]
    dsimp only
    rw [set_middle, ← hlength, set_middle]
    refine ⟨_, _, rfl, hlow (hwf.set_pair hwfy hz kp), front lefts left ++ y.toList, e,
      z.toList ++ back right rights, by simp, heq, ?_, heq⟩
    rw [toList_key hlength, show y.toList = y'.toList ++ [kp] from hremoved]
    simp
  · rw [if_neg hyspare]
    by_cases hzspare : t ≤ z.n
    · obtain ⟨z', kp, hdeleted, hwfz, hremoved⟩ := hdel z .first (hz.mono hzspare)
        (List.pairwise_cons.mp hzlist).2 (toList_ne_nil hz (by omega))
      rw [if_pos hzspare, getElem?_middle, Option.bind_some, hdeleted, Option.map_some]
      dsimp only
      rw [set_middle, ← hlength, set_second]
      refine ⟨_, _, rfl, hlow (hwf.set_pair hy hwfz kp), front lefts left ++ y.toList, e,
        z.toList ++ back right rights, by simp, heq, ?_, heq⟩
      rw [toList_key hlength, show z.toList = kp :: z'.toList from hremoved]
      simp
    · obtain ⟨hmerged, _, hlist⟩ := merge_eq hy hz (by omega) (by omega) ht k
      have hascending := ascending_replace hpair heq
      obtain ⟨m, kp, hdeleted, hwfm, hremoved⟩ := hdel (merge y k z) (.key k) hmerged
        (hlist ▸ hascending) ⟨k, hlist ▸ by simp, rfl⟩
      have hkp : va kp = va k := by
        obtain ⟨_, _, _, _, _, _, hkp⟩ := hremoved
        exact hkp
      have hm : m.toList = y.toList ++ z.toList := by
        rw [removed_key (hlist ▸ hascending) hremoved, hlist, filter_ne hascending rfl]
      rw [if_neg hzspare, if_pos ⟨by omega, by omega⟩]
      dsimp only
      rw [hdeleted, Option.map_some]
      dsimp only
      rw [eraseIdx_middle, ← hlength, set_middle, eraseIdx_second]
      refine ⟨_, _, rfl, hwf.merge_pair hwfm, front lefts left ++ y.toList, e,
        z.toList ++ back right rights, by simp, heq, ?_, hkp⟩
      rw [toList_child hlength, hm]
      simp

/-- `__kb_delp_aux` deletes from a node with a key to spare. -/
theorem kbDelpAux_eq (ht : 2 ≤ t) (x : KbNode K h) (hwf : x.Wf t (low + 1))
    (hsorted : Ascending va x.toList) (havailable : Available va target x.toList) :
    ∃ x' kp, kbDelpAux va t x target = some (x', kp) ∧ x'.Wf t low ∧
      Removed va target x.toList x'.toList kp := by
  induction h generalizing low target with
  | zero =>
      have hn := hwf.le_n
      have hle := hwf.n_le
      have hleaf : ∀ left e right, x.keys = left ++ e :: right → (leaf (left ++ right)).Wf t low := by
        intro left e right hkeys
        rw [n, hkeys, List.length_append, List.length_cons] at hn hle
        refine wf_leaf.mpr ?_
        rw [List.length_append]
        omega
      have hpos : 0 < x.keys.length := Nat.lt_of_lt_of_le (Nat.succ_pos low) hn
      rw [kbDelpAux]
      cases target with
      | key k =>
          have hkeysSorted : Ascending va x.keys := hsorted
          obtain ⟨result, haux, hlocated⟩ := kbGetpAux_located hkeysSorted k 0
          rw [kbDelpIndex, haux, Option.map_some, Option.bind_some]
          cases hlocated with
          | found left right e hkeys heq =>
              dsimp only
              rw [if_neg (by omega), Int.toNat_natCast, hkeys, getElem?_middle, Option.map_some,
                eraseIdx_middle]
              exact ⟨_, _, rfl, hleaf left e right hkeys, left, e, right, hkeys, heq, rfl, heq⟩
          | between left right r hkeys hleft hright hr =>
              obtain ⟨e, he, heq⟩ := havailable
              rw [toList_zero, hkeys] at he
              rcases List.mem_append.mp he with hin | hin
              · exact absurd heq (hleft e hin).ne
              · exact absurd heq (hright e hin).ne'
      | last =>
          obtain ⟨init, kp, hkeys⟩ := x.keys.eq_nil_or_concat'.resolve_left
            (List.ne_nil_of_length_pos hpos)
          have hindex : ((x.keys.length : ℤ) - 1).toNat = init.length := by
            rw [hkeys, List.length_append, List.length_singleton]
            omega
          rw [kbDelpIndex, Option.bind_some, if_neg (by omega), hindex, hkeys, getElem?_middle,
            Option.map_some, eraseIdx_middle]
          refine ⟨_, _, rfl, hleaf init kp [] hkeys, ?_⟩
          rw [List.append_nil, toList_leaf, toList_zero, hkeys]
          exact rfl
      | first =>
          obtain ⟨kp, rest, hkeys⟩ := List.exists_cons_of_length_pos hpos
          rw [kbDelpIndex, Option.bind_some, if_neg (by decide), hkeys]
          exact ⟨_, _, rfl, hleaf [] kp rest hkeys, hkeys⟩
  | succ h ih =>
      have hdel : DeletesBelow va t (kbDelpAux (h := h) va t) := by
        intro y target hy hylist hyavailable
        have hsucc : t - 1 + 1 = t := by omega
        exact ih y (hsucc.symm ▸ hy) hylist hyavailable
      obtain ⟨keys, ptrs, rfl⟩ := exists_internal x
      obtain ⟨hn, _, hlength, _⟩ := wf_internal.mp hwf
      rw [kbDelpAux]
      cases target with
      | key k =>
          obtain ⟨result, haux, hlocated⟩ := kbGetpAux_located (keys_ascending hlength hsorted) k 0
          rw [kbDelpStart, keys_internal, haux, Option.bind_some]
          cases hlocated with
          | found left right e hkeys heq =>
              subst hkeys
              obtain ⟨lefts, y, rest, rfl, hlefts, hrest⟩ := exists_child hlength
              obtain ⟨z, rights, rfl⟩ := List.exists_cons_of_length_eq_add_one hrest
              dsimp only
              rw [if_pos rfl, if_neg (by omega), Int.toNat_natCast]
              exact kbDelpFound_eq ht hdel hlefts hwf hsorted heq
          | between left right r hkeys hleft hright hr =>
              subst hkeys
              obtain ⟨lefts, y, rights, rfl, hlefts, _⟩ := exists_child hlength
              have hlist := hsorted
              rw [toList_child hlefts] at hlist
              obtain ⟨hfront, hrest, _⟩ := List.pairwise_append.mp hlist
              obtain ⟨_, hback, _⟩ := List.pairwise_append.mp hrest
              dsimp only
              rw [if_neg (hr (List.ne_nil_of_length_pos (by omega))), child_index]
              exact kbDelpChild_eq ht hdel hlefts hwf hsorted havailable
                ⟨front_lt hfront hleft, back_gt hback hright⟩
      | last =>
          rw [← List.append_nil keys] at hlength hwf hsorted havailable ⊢
          obtain ⟨lefts, y, rights, rfl, hlefts, _⟩ := exists_child hlength
          rw [kbDelpStart, Option.bind_some]
          dsimp only
          rw [if_neg (by decide), keys_internal, child_index, List.length_append, List.length_nil]
          exact kbDelpChild_eq ht hdel hlefts hwf hsorted havailable rfl
      | first =>
          rw [← List.nil_append keys] at hlength hwf hsorted havailable ⊢
          obtain ⟨lefts, y, rights, rfl, hlefts, _⟩ := exists_child hlength
          obtain rfl := List.length_eq_zero_iff.mp hlefts
          rw [kbDelpStart, Option.bind_some]
          dsimp only
          rw [if_neg (by decide)]
          exact kbDelpChild_eq ht hdel hlefts hwf hsorted havailable rfl

end KbNode

end ArmsTiering
