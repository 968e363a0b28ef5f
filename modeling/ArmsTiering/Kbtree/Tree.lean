import ArmsTiering.Kbtree.Delete

/-!
# The B-tree

The root is split when it is full, so that the tree grows at the top, and it goes when
a deletion has left it without a key.
-/

namespace ArmsTiering

open Interleaving KbNode

variable {K A : Type}

/-- `kbtree_t(name)`, without the layout of the nodes. -/
structure KbTree (K : Type) where
  t : ℕ
  height : ℕ
  root : KbNode K height
  nKeys : ℕ

/-- `kb_init`, for sizes from 12 on, with the size of a key. -/
def kbInit (sizeofKey size : ℕ) : Option (KbTree K) :=
  let t := ((size - 4 - 8) / (8 + sizeofKey) + 1) >>> 1
  if t < 2 then none else some ⟨t, 0, leaf [], 0⟩

/-- An internal root without keys gives way to its child. -/
def kbShrink (t nKeys : ℕ) : {h : ℕ} → KbNode K h → Option (KbTree K)
  | 0, root => some ⟨t, 0, root, nKeys⟩
  | h + 1, root =>
      if root.n = 0 then root.ptrs[0]?.map fun root => ⟨t, h, root, nKeys⟩
      else some ⟨t, h + 1, root, nKeys⟩

variable [LinearOrder A] (va : K → A)

/-- `kb_putp` -/
def kbPutp (b : KbTree K) (k : K) : Option (KbTree K) :=
  if b.root.n = 2 * b.t - 1 then
    (kbSplit b.t (internal [] [b.root]) 0 b.root).bind fun s =>
      (kbPutpAux va b.t k s).map fun s => ⟨b.t, b.height + 1, s, b.nKeys + 1⟩
  else (kbPutpAux va b.t k b.root).map fun root => ⟨b.t, b.height, root, b.nKeys + 1⟩

/-- `kb_delp` -/
def kbDelp (b : KbTree K) (k : K) : Option (KbTree K × K) :=
  (kbDelpAux va b.t b.root (.key k)).bind fun (root, kp) =>
    (kbShrink b.t (b.nKeys - 1) root).map fun b => (b, kp)

namespace KbTree

/-- The entries of the tree, in order. -/
def toList (b : KbTree K) : List K := b.root.toList

/-- The tree is a search tree, and each of its nodes but the root is half full. -/
structure Wf (b : KbTree K) : Prop where
  two_le : 2 ≤ b.t
  root : b.root.Wf b.t (min b.height 1)
  sorted : Ascending va b.toList
  count : b.nKeys = b.toList.length

variable {va} {b b' : KbTree K} {k : K}

theorem one_le_n {h t : ℕ} {x : KbNode K h} (hwf : x.Wf t (min h 1)) (hne : x.toList ≠ []) :
    1 ≤ x.n := by
  cases h with
  | zero => exact List.length_pos_of_ne_nil hne
  | succ h => exact Nat.le_trans (Nat.le_min.mpr ⟨Nat.le_add_left 1 h, Nat.le_refl 1⟩) hwf.le_n

theorem wf_kbInit {sizeofKey size : ℕ} (hinit : kbInit sizeofKey size = some b) :
    b.Wf va ∧ b.toList = [] := by
  unfold kbInit at hinit
  dsimp only at hinit
  split at hinit
  · cases hinit
  · rename_i ht
    obtain rfl := Option.some.inj hinit
    exact ⟨⟨Nat.not_lt.mp ht, wf_leaf.mpr ⟨Nat.zero_le _, Nat.zero_le _⟩, List.Pairwise.nil, rfl⟩, rfl⟩

/-- `kb_putp` puts an entry where no other has its address. -/
theorem Wf.kbPutp (hwf : b.Wf va) (hnew : ∀ e ∈ b.toList, va e ≠ va k) :
    ∃ b', kbPutp va b k = some b' ∧ b'.Wf va ∧ Inserted va k b.toList b'.toList ∧
      b'.nKeys = b.nKeys + 1 := by
  obtain ⟨ht, hroot, hsorted, hcount⟩ := hwf
  unfold ArmsTiering.kbPutp
  by_cases hfull : b.root.n = 2 * b.t - 1
  · have hchild : b.root.Wf b.t (b.t - 1) := hroot.mono (by omega)
    have hnewRoot : (internal ([] ++ []) ([] ++ b.root :: [])).Wf b.t 0 :=
      wf_internal.mpr ⟨Nat.zero_le _, Nat.zero_le _, rfl, by simpa using hchild⟩
    obtain ⟨key, hsplit, hcontents, hwf', _⟩ := kbSplit_eq ht rfl hnewRoot
      (by rw [List.append_nil, List.length_nil]; omega) hfull
    have hlist : (internal [key] [b.root.lower b.t, b.root.upper b.t]).toList = b.toList := by
      rw [toList, ← List.append_nil b.root.toList]
      exact hcontents
    obtain ⟨s, hput, hwfs, hinserted⟩ := kbPutpAux_eq ht _
      (hwf'.mono (Nat.le_refl 1)) (show 1 < 2 * b.t - 1 by omega) (hlist ▸ hsorted)
      (hlist ▸ hnew)
    rw [if_pos hfull, show kbSplit b.t (internal [] [b.root]) 0 b.root = _ from hsplit,
      Option.bind_some, hput, Option.map_some]
    rw [show (internal ([] ++ [key]) ([] ++ [b.root.lower b.t, b.root.upper b.t])).toList = _ from hlist]
      at hinserted
    have hroot' := hwfs.mono (Nat.le_trans (Nat.min_le_right (b.height + 1) 1) hwfs.le_n)
    refine ⟨_, rfl, ⟨ht, hroot', hinserted.ascending hsorted, ?_⟩, hinserted, rfl⟩
    exact (congrArg (· + 1) hcount).trans hinserted.length_eq.symm
  · obtain ⟨root, hput, hwf', hinserted⟩ := kbPutpAux_eq ht b.root hroot
      (Nat.lt_of_le_of_ne hroot.n_le hfull) hsorted hnew
    rw [if_neg hfull, hput, Option.map_some]
    refine ⟨_, rfl, ⟨ht, hwf', hinserted.ascending hsorted, ?_⟩, hinserted, rfl⟩
    exact (congrArg (· + 1) hcount).trans hinserted.length_eq.symm

/-- A root that a deletion leaves becomes a tree again. -/
theorem kbShrink_eq {h t : ℕ} {root : KbNode K h} (ht : 2 ≤ t) (hroot : root.Wf t 0) (nKeys : ℕ) :
    ∃ b, kbShrink t nKeys root = some b ∧ b.t = t ∧ b.root.Wf t (min b.height 1) ∧
      b.toList = root.toList ∧ b.nKeys = nKeys := by
  cases h with
  | zero => exact ⟨_, rfl, rfl, hroot, rfl, rfl⟩
  | succ h =>
      rw [kbShrink]
      by_cases hempty : root.n = 0
      · obtain ⟨keys, ptrs, rfl⟩ := exists_internal root
        obtain rfl := List.length_eq_zero_iff.mp hempty
        obtain ⟨_, _, hlength, hchildren⟩ := wf_internal.mp hroot
        obtain ⟨y, rfl⟩ := List.length_eq_one_iff.mp hlength
        have hy := hchildren y List.mem_cons_self
        have hn := hy.le_n
        rw [if_pos hempty, ptrs_internal, List.getElem?_cons_zero, Option.map_some]
        refine ⟨_, rfl, rfl, hy.mono ?_, by simp [toList, interleave], rfl⟩
        exact Nat.le_trans (Nat.min_le_right _ _) (by omega)
      · rw [if_neg hempty]
        refine ⟨_, rfl, rfl, hroot.mono ?_, rfl, rfl⟩
        exact Nat.le_trans (Nat.min_le_right _ _) (Nat.one_le_iff_ne_zero.mpr hempty)

/-- `kb_delp` removes the entry of an address that has one. -/
theorem Wf.kbDelp (hwf : b.Wf va) (hmem : ∃ e ∈ b.toList, va e = va k) :
    ∃ b' kp, kbDelp va b k = some (b', kp) ∧ b'.Wf va ∧ va kp = va k ∧
      b'.toList = (b.toList.filter fun e => va e ≠ va k) ∧ b'.nKeys + 1 = b.nKeys := by
  obtain ⟨ht, hroot, hsorted, hcount⟩ := hwf
  obtain ⟨e₀, he₀, _⟩ := id hmem
  have hpos : b.root.Wf b.t (0 + 1) := hroot.mono (one_le_n hroot (List.ne_nil_of_mem he₀))
  have havailable : Available va (.key k) b.root.toList := hmem
  obtain ⟨root, kp, hdel, hwf', hremoved⟩ := kbDelpAux_eq ht b.root hpos hsorted havailable
  obtain ⟨b', hshrink, hbt, hbroot, hblist, hbkeys⟩ := kbShrink_eq ht hwf' (b.nKeys - 1)
  have hlist := hblist.trans (removed_key hsorted hremoved)
  obtain ⟨left, e, right, hsplit, heq, hrest, hkp⟩ := hremoved
  have hlength : b'.toList.length + 1 = b.toList.length := by
    rw [hblist, hrest, toList, hsplit]
    simp only [List.length_append, List.length_cons]
    omega
  unfold ArmsTiering.kbDelp
  rw [hdel, Option.bind_some]
  dsimp only
  rw [hshrink, Option.map_some]
  refine ⟨b', kp, rfl, ⟨hbt ▸ ht, hbt ▸ hbroot, ?_, by omega⟩, hkp, hlist, by omega⟩
  rw [hlist]
  exact hsorted.filter _

end KbTree

end ArmsTiering
