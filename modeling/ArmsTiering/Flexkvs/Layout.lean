import ArmsTiering.Flexkvs.Item

/-!
# Items apart from each other

The items of the log lie in ranges that do not overlap.  As long as each stays in
its range, an assignment to a field of one of them changes nothing but that field.
-/

namespace ArmsTiering.Flexkvs

/-- The items fit into the ranges that they were given, which do not overlap.
The size of the range of each item is its extent; an address that is not the
start of an item has the extent 0. -/
structure Laid (m : Memory) (extent : ℕ → ℕ) : Prop where
  null : extent 0 = 0
  fits : ∀ p, extent p ≠ 0 → itemTotalsz m p ≤ extent p
  bound : ∀ p, extent p ≠ 0 → p + extent p ≤ 2 ^ 64
  apart : ∀ p q, extent p ≠ 0 → extent q ≠ 0 → p ≠ q →
    p + extent p ≤ q ∨ q + extent q ≤ p

namespace Laid

variable {m m' : Memory} {extent : ℕ → ℕ} {p q : ℕ}

/-- No items. -/
theorem empty (m : Memory) : Laid m fun _ => 0 :=
  ⟨rfl, fun _ hp => absurd rfl hp, fun _ hp => absurd rfl hp, fun _ _ hp => absurd rfl hp⟩

theorem ne_zero (hlaid : Laid m extent) (hp : extent p ≠ 0) : p ≠ 0 := by
  rintro rfl
  exact hp hlaid.null

theorem sizeofItem_le (hlaid : Laid m extent) (hp : extent p ≠ 0) : sizeofItem ≤ extent p := by
  have hfits := hlaid.fits p hp
  unfold itemTotalsz at hfits
  omega

theorem lt (hlaid : Laid m extent) (hp : extent p ≠ 0) : p < 2 ^ 64 := by
  have hbound := hlaid.bound p hp
  omega

/-- What an assignment to an item leaves of another item. -/
theorem agree_of_write (hlaid : Laid m extent) (hp : extent p ≠ 0) (hq : extent q ≠ 0)
    (hne : q ≠ p) (hwrite : ∀ lo hi, hi ≤ p ∨ p + extent p ≤ lo → Memory.AgreeOn m m' lo hi) :
    Memory.AgreeOn m m' q (q + extent q) := by
  refine hwrite q (q + extent q) ?_
  exact (hlaid.apart p q hp hq hne.symm).symm

theorem agree_setNext (hlaid : Laid m extent) (hp : extent p ≠ 0) (hq : extent q ≠ 0)
    (hne : q ≠ p) (next : ℕ) : Memory.AgreeOn m (setNext m p next) q (q + extent q) := by
  have hsize := hlaid.sizeofItem_le hp
  unfold sizeofItem at hsize
  refine hlaid.agree_of_write hp hq hne fun lo hi hapart => agreeOn_setNext ?_
  omega

theorem agree_setRefcount (hlaid : Laid m extent) (hp : extent p ≠ 0) (hq : extent q ≠ 0)
    (hne : q ≠ p) (refcount : ℕ) :
    Memory.AgreeOn m (setRefcount m p refcount) q (q + extent q) := by
  have hsize := hlaid.sizeofItem_le hp
  unfold sizeofItem at hsize
  refine hlaid.agree_of_write hp hq hne fun lo hi hapart => agreeOn_setRefcount ?_
  omega

/-! ## The fields of an item whose range is unchanged -/

theorem itemNext_of_agree (hlaid : Laid m extent) (hq : extent q ≠ 0)
    (hagree : Memory.AgreeOn m m' q (q + extent q)) : itemNext m' q = itemNext m q := by
  have hsize := hlaid.sizeofItem_le hq
  unfold sizeofItem at hsize
  exact Flexkvs.itemNext_of_agree (hagree.mono le_rfl (by omega))

theorem itemRefcount_of_agree (hlaid : Laid m extent) (hq : extent q ≠ 0)
    (hagree : Memory.AgreeOn m m' q (q + extent q)) : itemRefcount m' q = itemRefcount m q := by
  have hsize := hlaid.sizeofItem_le hq
  unfold sizeofItem at hsize
  exact Flexkvs.itemRefcount_of_agree (hagree.mono (by omega) (by omega))

theorem contentAt_of_agree (hlaid : Laid m extent) (hq : extent q ≠ 0)
    (hagree : Memory.AgreeOn m m' q (q + extent q)) : contentAt m' q = contentAt m q := by
  have hsize := hlaid.sizeofItem_le hq
  have hfits := hlaid.fits q hq
  unfold sizeofItem at hsize
  exact Flexkvs.contentAt_of_agree (hagree.mono (by omega) (by omega))
    (hagree.mono (by omega) (by omega))

/-! ## An assignment and the fields of all items -/

theorem itemNext_setNext (hlaid : Laid m extent) (hp : extent p ≠ 0) (hq : extent q ≠ 0)
    {next : ℕ} (hnext : next < 2 ^ 64) :
    itemNext (setNext m p next) q = if q = p then next else itemNext m q := by
  split
  · rename_i heq
    rw [heq, Flexkvs.itemNext_setNext m p hnext]
  · rename_i hne
    exact hlaid.itemNext_of_agree hq (hlaid.agree_setNext hp hq hne next)

theorem itemRefcount_setNext (hlaid : Laid m extent) (hp : extent p ≠ 0) (hq : extent q ≠ 0)
    (next : ℕ) : itemRefcount (setNext m p next) q = itemRefcount m q := by
  rcases eq_or_ne q p with rfl | hne
  · exact Flexkvs.itemRefcount_setNext m q next
  · exact hlaid.itemRefcount_of_agree hq (hlaid.agree_setNext hp hq hne next)

theorem contentAt_setNext (hlaid : Laid m extent) (hp : extent p ≠ 0) (hq : extent q ≠ 0)
    (next : ℕ) : contentAt (setNext m p next) q = contentAt m q := by
  rcases eq_or_ne q p with rfl | hne
  · exact Flexkvs.contentAt_setNext m q next
  · exact hlaid.contentAt_of_agree hq (hlaid.agree_setNext hp hq hne next)

theorem itemNext_setRefcount (hlaid : Laid m extent) (hp : extent p ≠ 0) (hq : extent q ≠ 0)
    (refcount : ℕ) : itemNext (setRefcount m p refcount) q = itemNext m q := by
  rcases eq_or_ne q p with rfl | hne
  · exact Flexkvs.itemNext_setRefcount m q refcount
  · exact hlaid.itemNext_of_agree hq (hlaid.agree_setRefcount hp hq hne refcount)

theorem itemRefcount_setRefcount (hlaid : Laid m extent) (hp : extent p ≠ 0) (hq : extent q ≠ 0)
    (refcount : ℕ) : itemRefcount (setRefcount m p refcount) q =
      if q = p then refcount % 65536 else itemRefcount m q := by
  split
  · rename_i heq
    rw [heq, Flexkvs.itemRefcount_setRefcount]
  · rename_i hne
    exact hlaid.itemRefcount_of_agree hq (hlaid.agree_setRefcount hp hq hne refcount)

theorem contentAt_setRefcount (hlaid : Laid m extent) (hp : extent p ≠ 0) (hq : extent q ≠ 0)
    (refcount : ℕ) : contentAt (setRefcount m p refcount) q = contentAt m q := by
  rcases eq_or_ne q p with rfl | hne
  · exact Flexkvs.contentAt_setRefcount m q refcount
  · exact hlaid.contentAt_of_agree hq (hlaid.agree_setRefcount hp hq hne refcount)

/-- Contents decide whether the items fit. -/
theorem of_contents (hlaid : Laid m extent)
    (hcontents : ∀ q, extent q ≠ 0 → contentAt m' q = contentAt m q) : Laid m' extent := by
  refine ⟨hlaid.null, fun q hq => ?_, hlaid.bound, hlaid.apart⟩
  rw [itemTotalsz_eq, hcontents q hq, ← itemTotalsz_eq]
  exact hlaid.fits q hq

theorem setNext (hlaid : Laid m extent) (hp : extent p ≠ 0) (next : ℕ) :
    Laid (setNext m p next) extent :=
  hlaid.of_contents fun _ hq => hlaid.contentAt_setNext hp hq next

theorem setRefcount (hlaid : Laid m extent) (hp : extent p ≠ 0) (refcount : ℕ) :
    Laid (setRefcount m p refcount) extent :=
  hlaid.of_contents fun _ hq => hlaid.contentAt_setRefcount hp hq refcount

/-- One item is rewritten within its range. -/
theorem rewrite (hlaid : Laid m extent)
    (hothers : ∀ q, extent q ≠ 0 → q ≠ p → Memory.AgreeOn m m' q (q + extent q))
    (hfits : itemTotalsz m' p ≤ extent p) : Laid m' extent := by
  refine ⟨hlaid.null, fun q hq => ?_, hlaid.bound, hlaid.apart⟩
  rcases eq_or_ne q p with rfl | hne
  · exact hfits
  · rw [itemTotalsz_eq, hlaid.contentAt_of_agree hq (hothers q hq hne), ← itemTotalsz_eq]
    exact hlaid.fits q hq

/-! ## A further item -/

/-- The addresses of an item of the given size are free. -/
structure Room (extent : ℕ → ℕ) (nit size : ℕ) : Prop where
  ne_zero : nit ≠ 0
  bound : nit + size ≤ 2 ^ 64
  apart : ∀ q, extent q ≠ 0 → nit + size ≤ q ∨ q + extent q ≤ nit

theorem Room.extent_eq_zero {size : ℕ} (hroom : Room extent p size) (hsize : size ≠ 0) :
    extent p = 0 := by
  by_contra hp
  have hapart := hroom.apart p hp
  omega

/-- Room among the items of a list of addresses and sizes. -/
theorem room_of_items {items : List (ℕ × ℕ)} {nit size : ℕ} (hne : nit ≠ 0)
    (hbound : nit + size ≤ 2 ^ 64) (hapart : ∀ q ∈ items, nit + size ≤ q.1 ∨ q.1 + q.2 ≤ nit) :
    Room (fun p => (items.lookup p).getD 0) nit size := by
  refine ⟨hne, hbound, fun q hq => ?_⟩
  cases hlookup : items.lookup q with
  | none =>
      rw [hlookup] at hq
      exact absurd rfl hq
  | some size' =>
      have hmem : (q, size') ∈ items := by
        obtain ⟨before, after, hsplit, _⟩ := List.lookup_eq_some_iff.mp hlookup
        rw [hsplit]
        exact List.mem_append_right _ List.mem_cons_self
      exact hapart _ hmem

/-- The sizes of the items with one more. -/
theorem lookup_cons_getD (items : List (ℕ × ℕ)) (nit size : ℕ) :
    (fun p => (((nit, size) :: items).lookup p).getD 0) =
      Function.update (fun p => (items.lookup p).getD 0) nit size := by
  funext p
  rw [List.lookup_cons]
  rcases eq_or_ne p nit with rfl | hne
  · rw [Function.update_self, beq_self_eq_true]
    rfl
  · rw [Function.update_of_ne hne, beq_false_of_ne hne]

/-- Another item has been placed and the old ones are as they were. -/
theorem extend (hlaid : Laid m extent) {size : ℕ} (hroom : Room extent p size)
    (hagree : ∀ q, extent q ≠ 0 → Memory.AgreeOn m m' q (q + extent q))
    (hfits : itemTotalsz m' p ≤ size) : Laid m' (Function.update extent p size) := by
  have hne : ∀ q, q ≠ p → Function.update extent p size q = extent q :=
    fun q hq => Function.update_of_ne hq ..
  have hself : Function.update extent p size p = size := Function.update_self ..
  refine ⟨?_, fun q hq => ?_, fun q hq => ?_, fun q r hq hr hqr => ?_⟩
  · rw [hne 0 hroom.ne_zero.symm]
    exact hlaid.null
  · rcases eq_or_ne q p with rfl | hqp
    · rw [hself]
      exact hfits
    · rw [hne q hqp] at hq ⊢
      rw [itemTotalsz_eq, hlaid.contentAt_of_agree hq (hagree q hq), ← itemTotalsz_eq]
      exact hlaid.fits q hq
  · rcases eq_or_ne q p with rfl | hqp
    · rw [hself]
      exact hroom.bound
    · rw [hne q hqp] at hq ⊢
      exact hlaid.bound q hq
  · rcases eq_or_ne q p with rfl | hqp
    · rw [hne r hqr.symm] at hr ⊢
      rw [hself]
      exact hroom.apart r hr
    · rw [hne q hqp] at hq ⊢
      rcases eq_or_ne r p with rfl | hrp
      · rw [hself]
        exact (hroom.apart q hq).symm
      · rw [hne r hrp] at hr ⊢
        exact hlaid.apart q r hq hr hqr

section

variable {hv : ℕ} {key value : List UInt8}

/-- A new item with one reference is filled in. -/
def newItem (m : Memory) (nit hv : ℕ) (key value : List UInt8) : Memory :=
  fillItem (Flexkvs.setRefcount m nit 1) nit hv key value

theorem itemRefcount_newItem (hkey : key.length < 65536) :
    itemRefcount (newItem m p hv key value) p = 1 := by
  rw [newItem, itemRefcount_fillItem _ _ _ hkey, Flexkvs.itemRefcount_setRefcount]

theorem contentAt_newItem (hhv : hv < 2 ^ 32) (hkey : key.length < 65536)
    (hvalue : value.length < 2 ^ 32) :
    contentAt (newItem m p hv key value) p = ⟨hv, value.length, key.length, key, value⟩ :=
  contentAt_fillItem _ _ _ hhv hkey hvalue

/-- A new item is filled in without touching the others. -/
theorem Room.agree_newItem (hkey : key.length < 65536)
    (hroom : Room extent p (sizeofItem + value.length + key.length)) (hq : extent q ≠ 0) :
    Memory.AgreeOn m (newItem m p hv key value) q (q + extent q) := by
  have hapart := hroom.apart q hq
  have hsize : sizeofItem = 24 := rfl
  exact (agreeOn_setRefcount (by omega)).trans (agreeOn_fillItem hv hkey (by omega))

theorem extend_newItem (hlaid : Laid m extent) (hhv : hv < 2 ^ 32) (hkey : key.length < 65536)
    (hvalue : value.length < 2 ^ 32)
    (hroom : Room extent p (sizeofItem + value.length + key.length)) :
    Laid (newItem m p hv key value)
      (Function.update extent p (sizeofItem + value.length + key.length)) := by
  refine hlaid.extend hroom (fun q hq => hroom.agree_newItem hkey hq) ?_
  rw [itemTotalsz_eq, contentAt_newItem hhv hkey hvalue]

end

/-- What filling in an item leaves of another item. -/
theorem agree_fillItem (hlaid : Laid m extent) {key value : List UInt8} (hkey : key.length < 65536)
    (hp : extent p ≠ 0) (hq : extent q ≠ 0) (hne : q ≠ p)
    (hfits : sizeofItem + value.length + key.length ≤ extent p) (hv : ℕ) :
    Memory.AgreeOn m (fillItem m p hv key value) q (q + extent q) := by
  refine hlaid.agree_of_write hp hq hne fun lo hi hapart => agreeOn_fillItem hv hkey ?_
  omega

end Laid

end ArmsTiering.Flexkvs
