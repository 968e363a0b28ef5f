import ArmsTiering.Core.Circular

/-!
# The double-ended queue of `kdq.h`

A power-of-two circular array that doubles when it is full.  `kdq_shift` does
not return an element: it returns a pointer to the slot that the element still
occupies after the queue has given it up.
-/

namespace ArmsTiering

open Circular

variable {α : Type}

/-- `kdq_t(type)`.  `storage` names the block that `a` points into: `realloc`
may move it, and the old block is then gone. -/
structure Kdq (α : Type) where
  front : ℕ
  bits : ℕ
  count : ℕ
  mask : ℕ
  a : ℕ → α
  storage : ℕ

/-- The pointer returned by `kdq_shift`. -/
structure SlotPtr where
  storage : ℕ
  index : ℕ
  deriving DecidableEq

/-- `kdq_init`; `a` is the uninitialised block. -/
def kdqInit (a : ℕ → α) : Kdq α where
  front := 0
  bits := 2
  count := 0
  mask := 2 ^ 2 - 1
  a := a
  storage := 0

def memmove (a : ℕ → α) (dst src len : ℕ) : ℕ → α := fun i =>
  if dst ≤ i ∧ i < dst + len then a (src + (i - dst)) else a i

/-- The size that `kdq_resize` settles on. -/
def kdqNewBits (q : Kdq α) (newBits : ℕ) : ℕ :=
  if 2 ^ newBits < q.count then
    ((List.range 64).find? fun i => q.count < 2 ^ i).getD 64
  else newBits

/-- `kdq_resize`.  The second `realloc` of the source tests `new_bits` against
the `bits` just assigned from it and never runs. -/
def kdqResize (q : Kdq α) (newBits : ℕ) : Kdq α :=
  let newBits := kdqNewBits q newBits
  let newSize := 2 ^ newBits
  let oldSize := 2 ^ q.bits
  if newBits = q.bits then q
  else
    let storage := if q.bits < newBits then q.storage + 1 else q.storage
    let moved : Kdq α :=
      if q.front + q.count ≤ oldSize then
        if newSize < q.front + q.count then
          { q with a := memmove q.a 0 newSize (q.front + q.count - newSize) }
        else q
      else
        { q with
          a := memmove q.a (newSize - (oldSize - q.front)) q.front (oldSize - q.front)
          front := newSize - (oldSize - q.front) }
    { moved with bits := newBits, mask := 2 ^ newBits - 1, storage := storage }

/-- The doubling that precedes a push into a full array. -/
def kdqGrow (q : Kdq α) : Kdq α :=
  if q.count = 2 ^ q.bits then kdqResize q (q.bits + 1) else q

def kdqPush (q : Kdq α) (v : α) : Kdq α :=
  let q := kdqGrow q
  { q with
    a := Function.update q.a ((q.count + q.front) &&& q.mask) v
    count := q.count + 1 }

def kdqShift (q : Kdq α) : Option (SlotPtr × Kdq α) :=
  if q.count = 0 then none
  else
    some (⟨q.storage, q.front⟩,
      { q with front := (q.front + 1) &&& q.mask, count := q.count - 1 })

/-- A queue state that the operations can be in: any capacity, any front, any
count up to the capacity. -/
structure Kdq.Wf (q : Kdq α) : Prop where
  mask : q.mask = 2 ^ q.bits - 1
  front : q.front < 2 ^ q.bits
  count : q.count ≤ 2 ^ q.bits

/-- The queued elements, oldest first. -/
def Kdq.toList (q : Kdq α) : List α := circular q.a (2 ^ q.bits) q.front q.count

theorem wf_kdqInit (a : ℕ → α) : (kdqInit a).Wf :=
  ⟨rfl, by simp [kdqInit], Nat.zero_le _⟩

@[simp]
theorem toList_kdqInit (a : ℕ → α) : (kdqInit a).toList = [] := rfl

variable {q : Kdq α}

theorem Kdq.Wf.and_mask (hwf : q.Wf) (index : ℕ) :
    index &&& q.mask = index % 2 ^ q.bits := by
  rw [hwf.mask, Nat.and_two_pow_sub_one_eq_mod]

/-! ## Growth -/

theorem kdqGrow_of_lt (hroom : q.count < 2 ^ q.bits) : kdqGrow q = q := by
  rw [kdqGrow, if_neg (by omega)]

theorem kdqNewBits_succ (hcount : q.count ≤ 2 ^ q.bits) :
    kdqNewBits q (q.bits + 1) = q.bits + 1 := by
  have hpow : 2 ^ (q.bits + 1) = 2 * 2 ^ q.bits := by rw [pow_succ, mul_comm]
  rw [kdqNewBits, if_neg (by omega)]

/-- Growing a full array moves the block and doubles the capacity. -/
theorem kdqGrow_of_full (hfull : q.count = 2 ^ q.bits) :
    (kdqGrow q).bits = q.bits + 1 ∧ (kdqGrow q).count = q.count ∧
      (kdqGrow q).storage = q.storage + 1 := by
  have hbits := kdqNewBits_succ (q := q) (by omega)
  rw [kdqGrow, if_pos hfull, kdqResize, hbits]
  simp only [Nat.succ_ne_self, if_false, Nat.lt_succ_self, if_true]
  refine ⟨trivial, ?_, trivial⟩
  split
  · split <;> rfl
  · rfl

theorem Kdq.Wf.grow (hwf : q.Wf) :
    (kdqGrow q).Wf ∧ (kdqGrow q).toList = q.toList := by
  by_cases hfull : q.count = 2 ^ q.bits
  · have hbits := kdqNewBits_succ (q := q) (by omega)
    have hpow : 2 ^ (q.bits + 1) = 2 * 2 ^ q.bits := by rw [pow_succ, mul_comm]
    have hfront := hwf.front
    rw [kdqGrow, if_pos hfull, kdqResize, hbits]
    simp only [Nat.succ_ne_self, if_false]
    by_cases hwrapped : q.front + q.count ≤ 2 ^ q.bits
    · -- Not wrapped: full and unwrapped means that the elements start at 0.
      rw [if_pos hwrapped, if_neg (by omega)]
      refine ⟨⟨rfl, by simp only; omega, by simp only; omega⟩, ?_⟩
      apply circular_congr
      intro offset hoffset
      simp only at hoffset ⊢
      rw [Nat.mod_eq_of_lt (by omega), Nat.mod_eq_of_lt (by omega)]
    · rw [if_neg hwrapped]
      refine ⟨⟨rfl, by simp only; omega, by simp only; omega⟩, ?_⟩
      apply circular_congr
      intro offset hoffset
      simp only at hoffset ⊢
      have hnewFront : 2 ^ (q.bits + 1) - (2 ^ q.bits - q.front) = 2 ^ q.bits + q.front := by
        omega
      rw [hnewFront]
      by_cases hhead : q.front + offset < 2 ^ q.bits
      · -- In the part that was moved up by one capacity.
        rw [Nat.mod_eq_of_lt hhead, Nat.mod_eq_of_lt (by omega), memmove,
          if_pos (by omega)]
        congr 1
        omega
      · have hold : (q.front + offset) % 2 ^ q.bits = q.front + offset - 2 ^ q.bits := by
          rw [Nat.mod_eq_sub_mod (by omega), Nat.mod_eq_of_lt (by omega)]
        have hnew : (2 ^ q.bits + q.front + offset) % 2 ^ (q.bits + 1) =
            q.front + offset - 2 ^ q.bits := by
          rw [Nat.mod_eq_sub_mod (by omega), Nat.mod_eq_of_lt (by omega)]
          omega
        rw [hold, hnew, memmove, if_neg (by omega)]
  · rw [kdqGrow, if_neg hfull]
    exact ⟨hwf, rfl⟩

/-! ## Specs of the operations -/

theorem Kdq.Wf.grow_room (hwf : q.Wf) : (kdqGrow q).count < 2 ^ (kdqGrow q).bits := by
  by_cases hfull : q.count = 2 ^ q.bits
  · obtain ⟨hbits, hcount, -⟩ := kdqGrow_of_full hfull
    rw [hbits, hcount, hfull]
    exact Nat.pow_lt_pow_succ (by decide)
  · rw [kdqGrow, if_neg hfull]
    exact lt_of_le_of_ne hwf.count hfull

/-- `kdq_push` appends, whatever the capacity and the wrap position. -/
theorem Kdq.Wf.push (hwf : q.Wf) (v : α) :
    (kdqPush q v).Wf ∧ (kdqPush q v).toList = q.toList ++ [v] := by
  obtain ⟨hgrown, hlist⟩ := hwf.grow
  have hroom := hwf.grow_room
  refine ⟨⟨hgrown.mask, hgrown.front, hroom⟩, ?_⟩
  rw [← hlist]
  simp only [Kdq.toList, kdqPush]
  rw [hgrown.and_mask, Nat.add_comm]
  exact circular_write _ _ _ hroom

/-- `kdq_shift` removes the oldest element and points to its slot. -/
theorem Kdq.Wf.shift (hwf : q.Wf) {ptr : SlotPtr} {q' : Kdq α}
    (hshift : kdqShift q = some (ptr, q')) :
    q'.Wf ∧ q.toList = q.a ptr.index :: q'.toList ∧ q'.a = q.a ∧
      q'.storage = q.storage ∧ ptr.storage = q.storage ∧ q'.bits = q.bits ∧
      q'.front = (ptr.index + 1) % 2 ^ q.bits ∧ ptr.index < 2 ^ q.bits := by
  by_cases hempty : q.count = 0
  · simp [kdqShift, hempty] at hshift
  · simp only [kdqShift, hempty, if_false, Option.some.injEq, Prod.mk.injEq] at hshift
    obtain ⟨rfl, rfl⟩ := hshift
    have hcount := hwf.count
    have hmask := hwf.and_mask (q.front + 1)
    refine ⟨⟨hwf.mask, ?_, by simp only; omega⟩, ?_, rfl, rfl, rfl, rfl, hmask, hwf.front⟩
    · simp only [hmask]
      exact Nat.mod_lt _ (Nat.two_pow_pos _)
    · simp only [Kdq.toList]
      rw [hmask, ← circular_cons q.a (q.count - 1) hwf.front]
      congr 1
      omega

end ArmsTiering
