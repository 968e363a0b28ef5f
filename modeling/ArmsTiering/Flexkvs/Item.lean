import ArmsTiering.Core.Memory

/-!
# Items

The key-value server keeps its items in one byte-addressed log.  An item is a
header of 24 bytes, followed by its key and its value.  The table and the
reference counts change two fields of the header; what they leave is the content
of the item.  Pointers are addresses, and 0 is `NULL`.
-/

namespace ArmsTiering.Flexkvs

/-- `sizeof(struct item)` -/
def sizeofItem : ℕ := 24

/-! ## The fields of the header -/

section

variable (m : Memory) (it : ℕ)

def itemNext : ℕ := m.load it 8
def itemHv : ℕ := m.load (it + 8) 4
def itemVallen : ℕ := m.load (it + 12) 4
def itemRefcount : ℕ := m.load (it + 16) 2
def itemKeylen : ℕ := m.load (it + 18) 2

def setNext (next : ℕ) : Memory := m.store it 8 next
def setHv (hv : ℕ) : Memory := m.store (it + 8) 4 hv
def setVallen (vallen : ℕ) : Memory := m.store (it + 12) 4 vallen
def setRefcount (refcount : ℕ) : Memory := m.store (it + 16) 2 refcount
def setKeylen (keylen : ℕ) : Memory := m.store (it + 18) 2 keylen

/-- `item_key` -/
def itemKey : ℕ := it + sizeofItem

/-- `item_value` -/
def itemValue : ℕ := it + sizeofItem + itemKeylen m it

/-- `item_totalsz` -/
def itemTotalsz : ℕ := sizeofItem + itemVallen m it + itemKeylen m it

end

/-- What an item holds for its key. -/
structure Content where
  hv : ℕ
  vallen : ℕ
  keylen : ℕ
  key : List UInt8
  value : List UInt8
  deriving DecidableEq

def contentAt (m : Memory) (it : ℕ) : Content where
  hv := itemHv m it
  vallen := itemVallen m it
  keylen := itemKeylen m it
  key := m.read (itemKey it) (itemKeylen m it)
  value := m.read (itemValue m it) (itemVallen m it)

/-- The assignments with which a request fills in an item that it has allocated
or found. -/
def fillItem (m : Memory) (it : ℕ) (hv : ℕ) (key value : List UInt8) : Memory :=
  let m := setHv m it hv
  let m := setVallen m it value.length
  let m := setKeylen m it key.length
  let m := m.write (itemKey it) key
  m.write (itemValue m it) value

/-! ## What the fields depend on -/

variable {m m' : Memory} {it other : ℕ}

theorem itemRefcount_lt (m : Memory) (it : ℕ) : itemRefcount m it < 65536 :=
  Memory.load_lt m (it + 16) 2

theorem itemNext_of_agree (hagree : Memory.AgreeOn m m' it (it + 8)) :
    itemNext m' it = itemNext m it :=
  hagree.load_eq le_rfl le_rfl

theorem itemRefcount_of_agree (hagree : Memory.AgreeOn m m' (it + 16) (it + 18)) :
    itemRefcount m' it = itemRefcount m it :=
  hagree.load_eq le_rfl le_rfl

/-- The content of an item is in its bytes other than `next` and `refcount`. -/
theorem contentAt_of_agree (hfront : Memory.AgreeOn m m' (it + 8) (it + 16))
    (hback : Memory.AgreeOn m m' (it + 18) (it + itemTotalsz m it)) :
    contentAt m' it = contentAt m it := by
  have htotal : itemTotalsz m it = sizeofItem + itemVallen m it + itemKeylen m it := rfl
  have hheader : sizeofItem = 24 := rfl
  have hhv : itemHv m' it = itemHv m it := hfront.load_eq le_rfl (by omega)
  have hvallen : itemVallen m' it = itemVallen m it := hfront.load_eq (by omega) (by omega)
  have hkeylen : itemKeylen m' it = itemKeylen m it := hback.load_eq le_rfl (by omega)
  have hkey : m'.read (itemKey it) (itemKeylen m it) = m.read (itemKey it) (itemKeylen m it) :=
    hback.read_eq (by unfold itemKey; omega) (by unfold itemKey; omega)
  have hvalue : m'.read (itemValue m it) (itemVallen m it) =
      m.read (itemValue m it) (itemVallen m it) :=
    hback.read_eq (by unfold itemValue; omega) (by unfold itemValue; omega)
  rw [contentAt, contentAt, hhv, hvallen, hkeylen, hkey]
  rw [itemValue, hkeylen, ← itemValue, hvalue]

theorem itemTotalsz_eq (m : Memory) (it : ℕ) :
    itemTotalsz m it = sizeofItem + (contentAt m it).vallen + (contentAt m it).keylen := rfl

theorem agreeOn_setNext {next lo hi : ℕ} (hapart : hi ≤ it ∨ it + 8 ≤ lo) :
    Memory.AgreeOn m (setNext m it next) lo hi :=
  Memory.agreeOn_store hapart

theorem agreeOn_setRefcount {refcount lo hi : ℕ} (hapart : hi ≤ it + 16 ∨ it + 18 ≤ lo) :
    Memory.AgreeOn m (setRefcount m it refcount) lo hi :=
  Memory.agreeOn_store hapart

/-! ## An assignment and the fields of the same item -/

section

variable (m : Memory) (it : ℕ)

theorem itemNext_setNext {next : ℕ} (hnext : next < 2 ^ 64) :
    itemNext (setNext m it next) it = next :=
  (Memory.load_store m it 8 next).trans (Nat.mod_eq_of_lt hnext)

theorem itemRefcount_setRefcount (refcount : ℕ) :
    itemRefcount (setRefcount m it refcount) it = refcount % 65536 :=
  Memory.load_store m (it + 16) 2 refcount

theorem setRefcount_setRefcount (refcount refcount' : ℕ) :
    setRefcount (setRefcount m it refcount) it refcount' = setRefcount m it refcount' :=
  Memory.store_store m (it + 16) 2 refcount refcount'

theorem setRefcount_itemRefcount : setRefcount m it (itemRefcount m it) = m :=
  Memory.store_load m (it + 16) 2

@[simp]
theorem itemRefcount_setNext (next : ℕ) :
    itemRefcount (setNext m it next) it = itemRefcount m it :=
  itemRefcount_of_agree (agreeOn_setNext (.inr (by omega)))

@[simp]
theorem itemNext_setRefcount (refcount : ℕ) :
    itemNext (setRefcount m it refcount) it = itemNext m it :=
  itemNext_of_agree (agreeOn_setRefcount (.inl (by omega)))

@[simp]
theorem contentAt_setNext (next : ℕ) : contentAt (setNext m it next) it = contentAt m it :=
  contentAt_of_agree (agreeOn_setNext (.inr le_rfl)) (agreeOn_setNext (.inr (by omega)))

@[simp]
theorem contentAt_setRefcount (refcount : ℕ) :
    contentAt (setRefcount m it refcount) it = contentAt m it :=
  contentAt_of_agree (agreeOn_setRefcount (.inl le_rfl)) (agreeOn_setRefcount (.inr le_rfl))

end

/-! ## Filling in an item -/

section

variable (m : Memory) (it hv : ℕ) (key value : List UInt8)

/-- The header after the assignments of the hash and the lengths. -/
def fillHeader (m : Memory) (it hv vallen keylen : ℕ) : Memory :=
  setKeylen (setVallen (setHv m it hv) it vallen) it keylen

theorem itemKeylen_fillHeader (vallen keylen : ℕ) :
    itemKeylen (fillHeader m it hv vallen keylen) it = keylen % 65536 :=
  Memory.load_store _ (it + 18) 2 keylen

theorem itemVallen_fillHeader (vallen keylen : ℕ) :
    itemVallen (fillHeader m it hv vallen keylen) it = vallen % 2 ^ 32 := by
  have hkept : Memory.AgreeOn (setVallen (setHv m it hv) it vallen)
      (fillHeader m it hv vallen keylen) (it + 12) (it + 16) :=
    Memory.agreeOn_store (.inl (by omega))
  exact (hkept.load_eq le_rfl le_rfl).trans (Memory.load_store _ (it + 12) 4 vallen)

theorem itemHv_fillHeader (vallen keylen : ℕ) :
    itemHv (fillHeader m it hv vallen keylen) it = hv % 2 ^ 32 := by
  have hfirst : Memory.AgreeOn (setHv m it hv) (setVallen (setHv m it hv) it vallen) (it + 8)
      (it + 12) :=
    Memory.agreeOn_store (.inl le_rfl)
  have hsecond : Memory.AgreeOn (setVallen (setHv m it hv) it vallen)
      (fillHeader m it hv vallen keylen) (it + 8) (it + 12) :=
    Memory.agreeOn_store (.inl (by omega))
  exact ((hfirst.trans hsecond).load_eq le_rfl le_rfl).trans (Memory.load_store _ (it + 8) 4 hv)

/-- Outside `hv`, `vallen` and `keylen` nothing is assigned. -/
theorem agreeOn_fillHeader {m : Memory} {it lo hi : ℕ} (vallen keylen : ℕ)
    (hapart : hi ≤ it + 8 ∨ it + 20 ≤ lo ∨ it + 16 ≤ lo ∧ hi ≤ it + 18) :
    Memory.AgreeOn m (fillHeader m it hv vallen keylen) lo hi :=
  ((Memory.agreeOn_store (by omega)).trans (Memory.agreeOn_store (by omega))).trans
    (Memory.agreeOn_store (by omega))

variable {key}

theorem fillItem_eq (hkey : key.length < 65536) :
    fillItem m it hv key value =
      ((fillHeader m it hv value.length key.length).write (it + sizeofItem) key).write
        (it + sizeofItem + key.length) value := by
  have hkept : Memory.AgreeOn (fillHeader m it hv value.length key.length)
      ((fillHeader m it hv value.length key.length).write (it + sizeofItem) key) (it + 18)
      (it + 20) :=
    Memory.agreeOn_write (.inl (by unfold sizeofItem; omega))
  have hkeylen : itemKeylen
      ((fillHeader m it hv value.length key.length).write (it + sizeofItem) key) it =
      key.length := by
    refine (hkept.load_eq le_rfl le_rfl).trans ?_
    exact (itemKeylen_fillHeader m it hv value.length key.length).trans (Nat.mod_eq_of_lt hkey)
  have hvalue : itemValue
      ((fillHeader m it hv value.length key.length).write (it + sizeofItem) key) it =
      it + sizeofItem + key.length := by
    rw [itemValue, hkeylen]
  rw [← hvalue]
  rfl

variable {value}

theorem contentAt_fillItem (hhv : hv < 2 ^ 32) (hkey : key.length < 65536)
    (hvalue : value.length < 2 ^ 32) :
    contentAt (fillItem m it hv key value) it = ⟨hv, value.length, key.length, key, value⟩ := by
  have hsize : sizeofItem = 24 := rfl
  have hheader : Memory.AgreeOn (fillHeader m it hv value.length key.length)
      (fillItem m it hv key value) it (it + sizeofItem) := by
    rw [fillItem_eq m it hv value hkey]
    exact (Memory.agreeOn_write (.inl le_rfl)).trans (Memory.agreeOn_write (.inl (by omega)))
  have hhv' : itemHv (fillItem m it hv key value) it = hv := by
    refine (hheader.load_eq (by omega) (by omega)).trans ?_
    exact (itemHv_fillHeader m it hv _ _).trans (Nat.mod_eq_of_lt hhv)
  have hvallen : itemVallen (fillItem m it hv key value) it = value.length := by
    refine (hheader.load_eq (by omega) (by omega)).trans ?_
    exact (itemVallen_fillHeader m it hv _ _).trans (Nat.mod_eq_of_lt hvalue)
  have hkeylen : itemKeylen (fillItem m it hv key value) it = key.length := by
    refine (hheader.load_eq (by omega) (by omega)).trans ?_
    exact (itemKeylen_fillHeader m it hv _ _).trans (Nat.mod_eq_of_lt hkey)
  have hreadKey : (fillItem m it hv key value).read (itemKey it) key.length = key := by
    rw [fillItem_eq m it hv value hkey]
    have hkept : Memory.AgreeOn
        ((fillHeader m it hv value.length key.length).write (it + sizeofItem) key)
        (((fillHeader m it hv value.length key.length).write (it + sizeofItem) key).write
          (it + sizeofItem + key.length) value) (it + sizeofItem) (it + sizeofItem + key.length) :=
      Memory.agreeOn_write (.inl le_rfl)
    exact (hkept.read_eq le_rfl le_rfl).trans (Memory.read_write _ _ _)
  have hreadValue : (fillItem m it hv key value).read (it + sizeofItem + key.length)
      value.length = value := by
    rw [fillItem_eq m it hv value hkey]
    exact Memory.read_write _ _ _
  rw [contentAt, hhv', hvallen, hkeylen, hreadKey, itemValue, hkeylen, hreadValue]

/-- Outside its content nothing of an item is assigned. -/
theorem agreeOn_fillItem {m : Memory} {it lo hi : ℕ} (hkey : key.length < 65536)
    (hapart : hi ≤ it + 8 ∨ it + (sizeofItem + value.length + key.length) ≤ lo ∨
      it + 16 ≤ lo ∧ hi ≤ it + 18) :
    Memory.AgreeOn m (fillItem m it hv key value) lo hi := by
  have hsize : sizeofItem = 24 := rfl
  rw [fillItem_eq m it hv value hkey]
  refine ((agreeOn_fillHeader hv _ _ (by omega)).trans (Memory.agreeOn_write (by omega))).trans
    (Memory.agreeOn_write (by omega))

theorem itemRefcount_fillItem (hkey : key.length < 65536) :
    itemRefcount (fillItem m it hv key value) it = itemRefcount m it :=
  itemRefcount_of_agree (agreeOn_fillItem hv hkey (.inr (.inr ⟨le_rfl, le_rfl⟩)))

theorem itemNext_fillItem (hkey : key.length < 65536) :
    itemNext (fillItem m it hv key value) it = itemNext m it :=
  itemNext_of_agree (agreeOn_fillItem hv hkey (.inl le_rfl))

end

end ArmsTiering.Flexkvs
