import Mathlib.Data.Nat.ModEq
import Mathlib.Logic.Function.Basic

/-!
# Sequences stored in circular buffers

`circular cells size front count` is the list of the `count` cells that start
at `front` and wrap around after `size` cells.  The lemmas say what appending,
removing the first cell and moving the storage do to this list.  A ring of slots has
no count: a slot is empty or holds an item, and from this alone it is seen whether
there is room and whether there is an item.
-/

namespace ArmsTiering.Circular

variable {α : Type*}

def circular (cells : ℕ → α) (size front count : ℕ) : List α :=
  (List.range count).map fun offset => cells ((front + offset) % size)

@[simp]
theorem length_circular (cells : ℕ → α) (size front count : ℕ) :
    (circular cells size front count).length = count := by
  simp [circular]

@[simp]
theorem circular_zero (cells : ℕ → α) (size front : ℕ) :
    circular cells size front 0 = [] := rfl

theorem circular_congr {cells cells' : ℕ → α} {size size' front front' count : ℕ}
    (hcells : ∀ offset < count,
      cells ((front + offset) % size) = cells' ((front' + offset) % size')) :
    circular cells size front count = circular cells' size' front' count := by
  apply List.map_congr_left
  intro offset hoffset
  exact hcells offset (List.mem_range.mp hoffset)

/-- Different offsets below one revolution name different cells. -/
theorem slot_ne {size front i j : ℕ} (hi : i < size) (hj : j < size) (hne : i ≠ j) :
    (front + i) % size ≠ (front + j) % size := by
  intro heq
  have hmod : i ≡ j [MOD size] := Nat.ModEq.add_left_cancel' front heq
  apply hne
  calc
    i = i % size := (Nat.mod_eq_of_lt hi).symm
    _ = j % size := hmod
    _ = j := Nat.mod_eq_of_lt hj

theorem circular_append (cells : ℕ → α) (size front count : ℕ) :
    circular cells size front (count + 1) =
      circular cells size front count ++ [cells ((front + count) % size)] := by
  simp [circular, List.range_succ]

theorem circular_cons {size front : ℕ} (cells : ℕ → α) (count : ℕ)
    (hfront : front < size) :
    circular cells size front (count + 1) =
      cells front :: circular cells size ((front + 1) % size) count := by
  simp only [circular, List.range_succ_eq_map, List.map_cons, List.map_map, Nat.add_zero,
    Nat.mod_eq_of_lt hfront]
  congr 1
  apply List.map_congr_left
  intro offset _
  simp only [Function.comp_apply]
  congr 1
  rw [Nat.mod_add_mod]
  congr 1
  omega

/-- Writing the first free cell appends to the list. -/
theorem circular_write {size count : ℕ} (cells : ℕ → α) (front : ℕ) (value : α)
    (hcount : count < size) :
    circular (Function.update cells ((front + count) % size) value) size front (count + 1) =
      circular cells size front count ++ [value] := by
  rw [circular_append, Function.update_self]
  congr 1
  apply circular_congr
  intro offset hoffset
  exact Function.update_of_ne
    (slot_ne (by omega) hcount (by omega)) _ _

/-! ## Slots -/

/-- The occupied slots hold `items`, from `head` on. -/
structure IsSlotRing (cells : ℕ → Option α) (size head : ℕ) (items : List α) : Prop where
  head_lt : head < size
  length_le : items.length ≤ size
  contents : circular cells size head items.length = items.map some
  empty : ∀ slot < size, (∀ k < items.length, slot ≠ (head + k) % size) → cells slot = none

namespace IsSlotRing

variable {cells : ℕ → Option α} {size head : ℕ} {items : List α} {item : α}

theorem nil (hhead : head < size) (hempty : ∀ slot < size, cells slot = none) :
    IsSlotRing cells size head [] where
  head_lt := hhead
  length_le := Nat.zero_le size
  contents := rfl
  empty slot hslot _ := hempty slot hslot

theorem cell_eq (h : IsSlotRing cells size head items) {k : ℕ} (hk : k < items.length) :
    cells ((head + k) % size) = some items[k] := by
  have hcell : (circular cells size head items.length)[k]? = (items.map some)[k]? :=
    congrArg (·[k]?) h.contents
  simpa [circular, hk] using hcell

theorem occupied_iff (h : IsSlotRing cells size head items) {slot : ℕ} (hslot : slot < size) :
    cells slot ≠ none ↔ ∃ k < items.length, slot = (head + k) % size := by
  constructor
  · intro hoccupied
    by_contra hnone
    exact hoccupied (h.empty slot hslot fun k hk heq => hnone ⟨k, hk, heq⟩)
  · rintro ⟨k, hk, rfl⟩
    rw [h.cell_eq hk]
    exact Option.some_ne_none _

/-- If the slot behind the last one is empty there is room. -/
theorem length_lt (h : IsSlotRing cells size head items)
    (hslot : cells ((head + items.length) % size) = none) : items.length < size := by
  refine lt_of_le_of_ne h.length_le fun hfull => ?_
  have hpos : 0 < items.length := hfull ▸ Nat.zero_lt_of_lt h.head_lt
  have hfirst := h.cell_eq hpos
  rw [hfull, Nat.add_mod_right] at hslot
  rw [Nat.add_zero, hslot] at hfirst
  cases hfirst

theorem push (h : IsSlotRing cells size head items)
    (hslot : cells ((head + items.length) % size) = none) (item : α) :
    IsSlotRing (Function.update cells ((head + items.length) % size) (some item)) size head
      (items ++ [item]) where
  head_lt := h.head_lt
  length_le := by
    rw [List.length_append, List.length_singleton]
    exact h.length_lt hslot
  contents := by
    rw [List.length_append, List.length_singleton, circular_write _ _ _ (h.length_lt hslot),
      h.contents, List.map_append, List.map_singleton]
  empty slot hlt hother := by
    rw [List.length_append, List.length_singleton] at hother
    rw [Function.update_of_ne (hother items.length (Nat.lt_succ_self _))]
    exact h.empty slot hlt fun k hk => hother k (Nat.lt_succ_of_lt hk)

/-- An occupied slot at the head holds the first item. -/
theorem pop (h : IsSlotRing cells size head items) (hslot : cells head = some item) :
    ∃ rest, items = item :: rest ∧
      IsSlotRing (Function.update cells head none) size ((head + 1) % size) rest := by
  have hhead : (head + 0) % size = head := Nat.mod_eq_of_lt h.head_lt
  cases hitems : items with
  | nil =>
      subst hitems
      rw [h.empty head h.head_lt fun k hk => absurd hk (Nat.not_lt_zero k)] at hslot
      cases hslot
  | cons first rest =>
      subst hitems
      have hfirst := h.cell_eq (Nat.succ_pos rest.length)
      rw [hhead, hslot, List.getElem_cons_zero] at hfirst
      obtain rfl := Option.some.inj hfirst
      have hlength : rest.length + 1 ≤ size := h.length_le
      have hshift : ∀ k, ((head + 1) % size + k) % size = (head + (k + 1)) % size := by
        intro k
        rw [Nat.mod_add_mod, Nat.add_assoc, Nat.add_comm 1 k]
      have hkept : ∀ k < rest.length, (head + (k + 1)) % size ≠ head := by
        intro k hk heq
        have hne : (head + (k + 1)) % size ≠ (head + 0) % size :=
          slot_ne (by omega) (by omega) (Nat.succ_ne_zero k)
        exact hne (heq.trans hhead.symm)
      refine ⟨rest, rfl, Nat.mod_lt _ (by omega), by omega, ?_, fun slot hlt hother => ?_⟩
      · have hcontents := h.contents
        rw [List.length_cons, circular_cons _ _ h.head_lt, List.map_cons, List.cons.injEq]
          at hcontents
        rw [← hcontents.2]
        refine circular_congr fun k hk => ?_
        rw [hshift, Function.update_of_ne (hkept k hk)]
      · by_cases hself : slot = head
        · rw [hself, Function.update_self]
        · rw [Function.update_of_ne hself]
          refine h.empty slot hlt fun k hk => ?_
          cases k with
          | zero => rwa [hhead]
          | succ k =>
              rw [← hshift]
              exact hother k (Nat.lt_of_succ_lt_succ hk)

end IsSlotRing

end ArmsTiering.Circular
