import ArmsTiering.Core.Circular

/-!
# The ring buffer of `spsc-ring.c`

A circular array of pointers with one slot kept free, so that equal head and
tail mean that it is empty.  `ring_buf_put` on a full buffer gives up the
oldest element.
-/

namespace ArmsTiering

open Circular

variable {α : Type}

/-- `ring_buf_t`; the buffer holds pointers, and `none` is `NULL`. -/
structure RingBuf (α : Type) where
  buffer : ℕ → Option α
  head : ℕ
  tail : ℕ
  capacity : ℕ

def ringBufFull (rbuf : RingBuf α) : Bool :=
  let head := rbuf.head + 1
  let head := if head = rbuf.capacity then 0 else head
  head == rbuf.tail

def incTailPointer (rbuf : RingBuf α) : RingBuf α :=
  { rbuf with tail := if rbuf.tail + 1 = rbuf.capacity then 0 else rbuf.tail + 1 }

def incHeadPointer (rbuf : RingBuf α) : RingBuf α :=
  let rbuf :=
    if ringBufFull rbuf then
      { rbuf with tail := if rbuf.tail + 1 = rbuf.capacity then 0 else rbuf.tail + 1 }
    else rbuf
  { rbuf with head := if rbuf.head + 1 = rbuf.capacity then 0 else rbuf.head + 1 }

def ringBufReset (rbuf : RingBuf α) : RingBuf α :=
  { rbuf with
    head := 0
    tail := 0
    buffer := fun i => if i < rbuf.capacity then none else rbuf.buffer i }

/-- `ring_buf_init`; the struct comes from `malloc`, and the reset sets what it
leaves open. -/
def ringBufInit (buffer : ℕ → Option α) (size : ℕ) : RingBuf α :=
  ringBufReset { buffer := buffer, head := 0, tail := 0, capacity := size }

def ringBufSize (rbuf : RingBuf α) : ℕ :=
  if ringBufFull rbuf then rbuf.capacity
  else if rbuf.tail ≤ rbuf.head then rbuf.head - rbuf.tail
  else rbuf.capacity + rbuf.head - rbuf.tail

def ringBufEmpty (rbuf : RingBuf α) : Bool :=
  !ringBufFull rbuf && rbuf.head == rbuf.tail

def ringBufPut (rbuf : RingBuf α) (data : Option α) : RingBuf α :=
  incHeadPointer { rbuf with buffer := Function.update rbuf.buffer rbuf.head data }

def ringBufPut2 (rbuf : RingBuf α) (data : Option α) : ℤ × RingBuf α :=
  if ringBufFull rbuf then (-1, rbuf)
  else (0, incHeadPointer { rbuf with buffer := Function.update rbuf.buffer rbuf.head data })

def ringBufGet (rbuf : RingBuf α) : Option α × RingBuf α :=
  if ringBufEmpty rbuf then (none, rbuf)
  else (rbuf.buffer rbuf.tail, incTailPointer rbuf)

def ringBufPeekTail (rbuf : RingBuf α) (index : ℕ) : Option α :=
  if index < ringBufSize rbuf then
    let i := rbuf.tail + index
    let i := if rbuf.capacity ≤ i then i - rbuf.capacity else i
    rbuf.buffer i
  else none

/-- The elements that the buffer holds, from the oldest on. -/
structure RingBuf.Holds (rbuf : RingBuf α) (elements : List (Option α)) : Prop where
  tail_lt : rbuf.tail < rbuf.capacity
  length_lt : elements.length < rbuf.capacity
  head_eq : rbuf.head = (rbuf.tail + elements.length) % rbuf.capacity
  contents : circular rbuf.buffer rbuf.capacity rbuf.tail elements.length = elements

theorem wrap_eq {size position : ℕ} (hposition : position < size) :
    (if position + 1 = size then 0 else position + 1) = (position + 1) % size := by
  split
  · next hwrap => rw [hwrap, Nat.mod_self]
  · next hwrap => exact (Nat.mod_eq_of_lt (by omega)).symm

section

variable {rbuf : RingBuf α} {elements : List (Option α)} {data : Option α}

@[simp]
theorem capacity_ringBufReset : (ringBufReset rbuf).capacity = rbuf.capacity := rfl

@[simp]
theorem capacity_incHeadPointer : (incHeadPointer rbuf).capacity = rbuf.capacity := by
  unfold incHeadPointer
  split <;> rfl

@[simp]
theorem capacity_ringBufPut : (ringBufPut rbuf data).capacity = rbuf.capacity := by
  simp [ringBufPut]

@[simp]
theorem capacity_ringBufPut2 : (ringBufPut2 rbuf data).2.capacity = rbuf.capacity := by
  unfold ringBufPut2
  split
  · rfl
  · exact capacity_incHeadPointer

@[simp]
theorem capacity_ringBufGet : (ringBufGet rbuf).2.capacity = rbuf.capacity := by
  unfold ringBufGet
  split <;> rfl

theorem holds_ringBufReset (hcapacity : 0 < rbuf.capacity) : (ringBufReset rbuf).Holds [] where
  tail_lt := hcapacity
  length_lt := hcapacity
  head_eq := (Nat.zero_mod _).symm
  contents := rfl

namespace RingBuf.Holds

theorem head_lt (h : rbuf.Holds elements) : rbuf.head < rbuf.capacity := by
  rw [h.head_eq]
  exact Nat.mod_lt _ (Nat.zero_lt_of_lt h.tail_lt)

/-- The head is the position behind the elements, with at most one wrap. -/
theorem head_cases (h : rbuf.Holds elements) :
    rbuf.head = rbuf.tail + elements.length ∧ rbuf.tail + elements.length < rbuf.capacity ∨
      rbuf.head + rbuf.capacity = rbuf.tail + elements.length := by
  have htail := h.tail_lt
  have hlength := h.length_lt
  obtain hlt | hge := Nat.lt_or_ge (rbuf.tail + elements.length) rbuf.capacity
  · exact Or.inl ⟨by rw [h.head_eq, Nat.mod_eq_of_lt hlt], hlt⟩
  · right
    rw [h.head_eq, Nat.mod_eq_sub_mod hge, Nat.mod_eq_of_lt (by omega)]
    omega

theorem full_iff (h : rbuf.Holds elements) :
    ringBufFull rbuf = true ↔ elements.length + 1 = rbuf.capacity := by
  have htail := h.tail_lt
  have hlength := h.length_lt
  simp only [ringBufFull, beq_iff_eq]
  obtain ⟨hhead, hlt⟩ | hhead := h.head_cases <;> split <;> omega

theorem size_eq (h : rbuf.Holds elements) (hroom : elements.length + 1 < rbuf.capacity) :
    ringBufSize rbuf = elements.length := by
  have htail := h.tail_lt
  have hnot : ¬ringBufFull rbuf = true := fun hfull => by
    have := h.full_iff.mp hfull
    omega
  rw [ringBufSize, if_neg hnot]
  obtain ⟨hhead, hlt⟩ | hhead := h.head_cases <;> split <;> omega

/-- On a full buffer the size is the capacity, one more than the elements. -/
theorem size_full (h : rbuf.Holds elements) (hfull : elements.length + 1 = rbuf.capacity) :
    ringBufSize rbuf = rbuf.capacity := by
  rw [ringBufSize, if_pos (h.full_iff.mpr hfull)]

theorem put (h : rbuf.Holds elements) (hroom : elements.length + 1 < rbuf.capacity) :
    (ringBufPut rbuf data).Holds (elements ++ [data]) := by
  have hwritten : circular (Function.update rbuf.buffer rbuf.head data) rbuf.capacity rbuf.tail
      (elements.length + 1) = elements ++ [data] := by
    rw [h.head_eq, circular_write _ _ _ h.length_lt, h.contents]
  have hnot : ¬ringBufFull { rbuf with buffer := Function.update rbuf.buffer rbuf.head data } =
      true := fun hfull => by
    have := h.full_iff.mp hfull
    omega
  unfold ringBufPut incHeadPointer
  rw [if_neg hnot]
  refine ⟨h.tail_lt, ?_, ?_, ?_⟩
  · simpa using hroom
  · dsimp only
    rw [wrap_eq h.head_lt, h.head_eq, Nat.mod_add_mod, List.length_append, List.length_singleton,
      Nat.add_assoc]
  · simpa using hwritten

/-- On a full buffer the oldest element makes room. -/
theorem put_full {element : Option α} (h : rbuf.Holds (element :: elements))
    (hfull : elements.length + 2 = rbuf.capacity) :
    (ringBufPut rbuf data).Holds (elements ++ [data]) := by
  have htail := h.tail_lt
  have hhead : rbuf.head = (rbuf.tail + (elements.length + 1)) % rbuf.capacity := h.head_eq
  have hwritten : circular (Function.update rbuf.buffer rbuf.head data) rbuf.capacity rbuf.tail
      (elements.length + 1 + 1) = element :: elements ++ [data] := by
    have hcontents : circular rbuf.buffer rbuf.capacity rbuf.tail (elements.length + 1) =
        element :: elements := h.contents
    rw [hhead, circular_write _ _ _ (by omega), hcontents]
  rw [circular_cons _ _ htail, List.cons_append, List.cons.injEq] at hwritten
  have hfull' : ringBufFull { rbuf with buffer := Function.update rbuf.buffer rbuf.head data } =
      true := h.full_iff.mpr hfull
  unfold ringBufPut incHeadPointer
  rw [if_pos hfull']
  refine ⟨?_, ?_, ?_, ?_⟩
  · dsimp only
    rw [wrap_eq htail]
    exact Nat.mod_lt _ (by omega)
  · rw [List.length_append, List.length_singleton]
    show elements.length + 1 < rbuf.capacity
    omega
  · dsimp only
    rw [wrap_eq h.head_lt, wrap_eq htail, hhead, Nat.mod_add_mod, Nat.mod_add_mod,
      List.length_append, List.length_singleton]
    congr 1
    omega
  · dsimp only
    rw [wrap_eq htail, List.length_append, List.length_singleton]
    exact hwritten.2

theorem get_empty (h : rbuf.Holds []) (hcapacity : 2 ≤ rbuf.capacity) :
    ringBufGet rbuf = (none, rbuf) := by
  have hhead : rbuf.head = rbuf.tail := by
    have heq := h.head_eq
    rw [List.length_nil, Nat.add_zero, Nat.mod_eq_of_lt h.tail_lt] at heq
    exact heq
  have hnot : ringBufFull rbuf = false := by
    rw [Bool.eq_false_iff, Ne, h.full_iff, List.length_nil]
    omega
  have hempty : ringBufEmpty rbuf = true := by simp [ringBufEmpty, hhead, hnot]
  rw [ringBufGet, if_pos hempty]

theorem get {element : Option α} (h : rbuf.Holds (element :: elements)) :
    (ringBufGet rbuf).1 = element ∧ (ringBufGet rbuf).2.Holds elements := by
  have htail := h.tail_lt
  have hlength : elements.length + 1 < rbuf.capacity := h.length_lt
  have hne : rbuf.head ≠ rbuf.tail := by
    obtain ⟨hhead, -⟩ | hhead := h.head_cases <;>
      simp only [List.length_cons] at hhead <;> omega
  have hempty : ¬ringBufEmpty rbuf = true := by simp [ringBufEmpty, hne]
  have hcontents := h.contents
  rw [List.length_cons, circular_cons _ _ htail, List.cons.injEq] at hcontents
  rw [ringBufGet, if_neg hempty]
  refine ⟨hcontents.1, ?_, Nat.lt_of_succ_lt hlength, ?_, ?_⟩
  · dsimp only [incTailPointer]
    rw [wrap_eq htail]
    exact Nat.mod_lt _ (by omega)
  · dsimp only [incTailPointer]
    rw [wrap_eq htail, h.head_eq, List.length_cons, Nat.mod_add_mod]
    congr 1
    omega
  · dsimp only [incTailPointer]
    rw [wrap_eq htail]
    exact hcontents.2

theorem peekTail (h : rbuf.Holds elements) (hroom : elements.length + 1 < rbuf.capacity)
    {index : ℕ} (hindex : index < elements.length) :
    ringBufPeekTail rbuf index = elements[index] := by
  have htail := h.tail_lt
  have hposition : (if rbuf.capacity ≤ rbuf.tail + index then
      rbuf.tail + index - rbuf.capacity else rbuf.tail + index) =
        (rbuf.tail + index) % rbuf.capacity := by
    split
    · next hge => rw [Nat.mod_eq_sub_mod hge, Nat.mod_eq_of_lt (by omega)]
    · next hlt => rw [Nat.mod_eq_of_lt (by omega)]
  have hcell : elements[index] = rbuf.buffer ((rbuf.tail + index) % rbuf.capacity) := by
    conv_lhs => rw [← List.getElem_of_eq h.contents (by simpa using hindex)]
    simp [circular]
  rw [ringBufPeekTail, h.size_eq hroom, if_pos hindex, hcell]
  dsimp only
  rw [hposition]

theorem peekTail_none (h : rbuf.Holds elements) (hroom : elements.length + 1 < rbuf.capacity)
    {index : ℕ} (hindex : elements.length ≤ index) : ringBufPeekTail rbuf index = none := by
  rw [ringBufPeekTail, h.size_eq hroom, if_neg (Nat.not_lt.mpr hindex)]

end RingBuf.Holds

end

end ArmsTiering
