import ArmsTiering.Core.Transition
import ArmsTiering.Pebs.RingBuffer

/-!
# The ring buffer as a bounded queue

Any sequence of operations on a ring buffer, beside the queue that it stands for.
One slot stays free, so the queue holds one element less than the capacity.  What is
put and taken is that of the queue in every state; the size, and with it the limit of
`ring_buf_peek_tail`, only while the buffer is not full.
-/

namespace ArmsTiering

variable {α : Type}

inductive RingAction (α : Type)
  | put (data : Option α)
  | put2 (data : Option α)
  | get
  | reset

/-- What an operation returns. -/
inductive RingAnswer (α : Type)
  | nothing
  | status (r : ℤ)
  | element (data : Option α)

def RingBuf.perform (rbuf : RingBuf α) : RingAction α → RingAnswer α × RingBuf α
  | .put data => (.nothing, ringBufPut rbuf data)
  | .put2 data => (.status (ringBufPut2 rbuf data).1, (ringBufPut2 rbuf data).2)
  | .get => (.element (ringBufGet rbuf).1, (ringBufGet rbuf).2)
  | .reset => (.nothing, ringBufReset rbuf)

/-- A queue of at most `bound` elements, oldest first.  A put drops the oldest one if
there is no room; the other put fails. -/
def boundedQueue (bound : ℕ) (held : List (Option α)) :
    RingAction α → RingAnswer α × List (Option α)
  | .put data => (.nothing, if held.length < bound then held ++ [data] else held.tail ++ [data])
  | .put2 data =>
      if held.length < bound then (.status 0, held ++ [data]) else (.status (-1), held)
  | .get => (.element held.head?.join, held.tail)
  | .reset => (.nothing, [])

structure RingRun (α : Type) where
  rbuf : RingBuf α
  held : List (Option α)

namespace RingRun

def initial (buffer : ℕ → Option α) (capacity : ℕ) : RingRun α where
  rbuf := ringBufInit buffer capacity
  held := []

def step (capacity : ℕ) (t : RingRun α) (action : RingAction α) : Option (RingRun α) :=
  some {
    rbuf := (t.rbuf.perform action).2
    held := (boundedQueue (capacity - 1) t.held action).2 }

/-- What is put and taken is that of the queue. -/
structure AnswersAsQueue (capacity : ℕ) (t : RingRun α) : Prop where
  bounded : t.held.length ≤ capacity - 1
  answers : ∀ action,
    (t.rbuf.perform action).1 = (boundedQueue (capacity - 1) t.held action).1
  refused : t.held.length = capacity - 1 → ∀ data, (ringBufPut2 t.rbuf data).2 = t.rbuf

structure IsBoundedQueue (capacity : ℕ) (t : RingRun α) : Prop
    extends AnswersAsQueue capacity t where
  size : ringBufSize t.rbuf = t.held.length
  peek : ∀ index, ringBufPeekTail t.rbuf index = t.held[index]?.join

/-- The buffer is not filled. -/
def KeepsRoom (capacity : ℕ) (t : RingRun α) : RingAction α → Prop
  | .put _ | .put2 _ => t.held.length + 2 < capacity
  | .get | .reset => True

structure Inv (capacity : ℕ) (t : RingRun α) : Prop where
  capacity_eq : t.rbuf.capacity = capacity
  holds : t.rbuf.Holds t.held

variable {capacity : ℕ} {t t' : RingRun α}

theorem Inv.length_lt (hinv : Inv capacity t) : t.held.length < capacity := by
  have hlength := hinv.holds.length_lt
  rwa [hinv.capacity_eq] at hlength

theorem inv_initial (buffer : ℕ → Option α) (hcapacity : 2 ≤ capacity) :
    Inv capacity (initial buffer capacity) where
  capacity_eq := rfl
  holds := holds_ringBufReset (show 0 < capacity by omega)

/-! ## One operation -/

theorem Inv.put (hinv : Inv capacity t) (hcapacity : 2 ≤ capacity) (data : Option α) :
    (ringBufPut t.rbuf data).Holds (boundedQueue (capacity - 1) t.held (.put data)).2 := by
  have hlt := hinv.length_lt
  have hholds := hinv.holds
  have hsize := hinv.capacity_eq
  show (ringBufPut t.rbuf data).Holds
    (if t.held.length < capacity - 1 then t.held ++ [data] else t.held.tail ++ [data])
  split
  · exact hholds.put (by omega)
  · cases hheld : t.held with
    | nil =>
        rw [hheld, List.length_nil] at hlt
        simp only [hheld, List.length_nil] at *
        omega
    | cons element elements =>
        rw [hheld] at hholds
        simp only [hheld, List.length_cons] at *
        exact hholds.put_full (by omega)

theorem Inv.full_iff (hinv : Inv capacity t) :
    ringBufFull t.rbuf = true ↔ ¬t.held.length < capacity - 1 := by
  have hlt := hinv.length_lt
  rw [hinv.holds.full_iff, hinv.capacity_eq]
  omega

theorem Inv.put2 (hinv : Inv capacity t) (data : Option α) :
    t.rbuf.perform (.put2 data) =
      if t.held.length < capacity - 1 then (.status 0, ringBufPut t.rbuf data)
      else (.status (-1), t.rbuf) := by
  show (RingAnswer.status (ringBufPut2 t.rbuf data).1, (ringBufPut2 t.rbuf data).2) = _
  unfold ringBufPut2
  by_cases hroom : t.held.length < capacity - 1
  · rw [if_neg (fun hfull => hinv.full_iff.mp hfull hroom), if_pos hroom]
    rfl
  · rw [if_pos (hinv.full_iff.mpr hroom), if_neg hroom]

/-- What is returned is what the queue returns, and what is left is what it holds. -/
theorem Inv.perform (hinv : Inv capacity t) (hcapacity : 2 ≤ capacity) (action : RingAction α) :
    (t.rbuf.perform action).1 = (boundedQueue (capacity - 1) t.held action).1 ∧
      (t.rbuf.perform action).2.Holds (boundedQueue (capacity - 1) t.held action).2 := by
  have hsize := hinv.capacity_eq
  cases action with
  | put data => exact ⟨rfl, hinv.put hcapacity data⟩
  | put2 data =>
      rw [hinv.put2 data, boundedQueue]
      split
      · exact ⟨rfl, hinv.holds.put (by omega)⟩
      · exact ⟨rfl, hinv.holds⟩
  | get =>
      have hholds := hinv.holds
      cases hheld : t.held with
      | nil =>
          rw [hheld] at hholds
          have hget := hholds.get_empty (by omega)
          rw [RingBuf.perform, hget]
          exact ⟨rfl, hholds⟩
      | cons element elements =>
          rw [hheld] at hholds
          obtain ⟨helement, hrest⟩ := hholds.get
          exact ⟨congrArg RingAnswer.element helement, hrest⟩
  | reset => exact ⟨rfl, holds_ringBufReset (by omega)⟩

theorem Inv.step (hinv : Inv capacity t) (hcapacity : 2 ≤ capacity) {action : RingAction α}
    (hstep : t.step capacity action = some t') : Inv capacity t' := by
  obtain rfl := Option.some.inj hstep
  refine ⟨?_, (hinv.perform hcapacity action).2⟩
  rw [← hinv.capacity_eq]
  cases action with
  | put data => exact capacity_ringBufPut
  | put2 data => exact capacity_ringBufPut2
  | get => exact capacity_ringBufGet
  | reset => rfl

theorem Inv.answersAsQueue (hinv : Inv capacity t) (hcapacity : 2 ≤ capacity) :
    AnswersAsQueue capacity t where
  bounded := Nat.le_sub_one_of_lt hinv.length_lt
  answers action := (hinv.perform hcapacity action).1
  refused hfull data := by
    have hput2 := congrArg Prod.snd (hinv.put2 data)
    rwa [if_neg (by omega)] at hput2

/-- In every state the elements put, refused, dropped and returned are those of the
queue. -/
theorem answersAsQueue_along (buffer : ℕ → Option α) (hcapacity : 2 ≤ capacity)
    (actions : List (RingAction α)) :
    Transition.Along (step capacity) (AnswersAsQueue capacity) (initial buffer capacity)
      actions :=
  Transition.along_of_step (Inv capacity) (fun _ hinv => hinv.answersAsQueue hcapacity)
    (fun _ _ _ hinv hstep => hinv.step hcapacity hstep) (inv_initial buffer hcapacity)

/-! ## The size -/

/-- The size and the elements that can be looked at are those of the queue exactly if
there is room for another one. -/
theorem Inv.isBoundedQueue_iff (hinv : Inv capacity t) (hcapacity : 2 ≤ capacity) :
    IsBoundedQueue capacity t ↔ t.held.length + 1 < capacity := by
  have hsize := hinv.capacity_eq
  constructor
  · intro hqueue
    by_contra hfull
    have hlt := hinv.length_lt
    have hcount := hqueue.size
    rw [hinv.holds.size_full (by omega)] at hcount
    omega
  · intro hroom
    rw [← hsize] at hroom
    refine ⟨hinv.answersAsQueue hcapacity, hinv.holds.size_eq hroom, fun index => ?_⟩
    obtain hindex | hindex := Nat.lt_or_ge index t.held.length
    · rw [hinv.holds.peekTail hroom hindex, List.getElem?_eq_getElem hindex]
      rfl
    · rw [hinv.holds.peekTail_none hroom hindex, List.getElem?_eq_none hindex]
      rfl

/-- An operation leaves room exactly if it does not fill the buffer. -/
theorem keepsRoom_iff (hroom : t.held.length + 1 < capacity) {action : RingAction α}
    (hstep : t.step capacity action = some t') :
    KeepsRoom capacity t action ↔ t'.held.length + 1 < capacity := by
  obtain rfl := Option.some.inj hstep
  cases action with
  | put data =>
      show _ ↔ (if t.held.length < capacity - 1 then t.held ++ [data]
        else t.held.tail ++ [data]).length + 1 < capacity
      rw [if_pos (by omega), List.length_append, List.length_singleton]
      exact Iff.rfl
  | put2 data =>
      show _ ↔ (if t.held.length < capacity - 1 then (RingAnswer.status 0, t.held ++ [data])
        else (RingAnswer.status (-1), t.held)).2.length + 1 < capacity
      rw [if_pos (by omega), List.length_append, List.length_singleton]
      exact Iff.rfl
  | get =>
      refine iff_of_true trivial ?_
      show t.held.tail.length + 1 < capacity
      rw [List.length_tail]
      omega
  | reset =>
      refine iff_of_true trivial ?_
      show 0 + 1 < capacity
      omega

/-- Run lemma: the buffer is a bounded queue along a run exactly if no put fills it. -/
theorem isBoundedQueue_along_iff (buffer : ℕ → Option α) (hcapacity : 2 ≤ capacity)
    (actions : List (RingAction α)) :
    Transition.Along (step capacity) (IsBoundedQueue capacity) (initial buffer capacity) actions ↔
      Transition.Meets (step capacity) (KeepsRoom capacity) (initial buffer capacity) actions := by
  refine Transition.along_iff_meets
    (fun t : RingRun α => Inv capacity t ∧ t.held.length + 1 < capacity) ?_ ?_ ?_
    ⟨inv_initial buffer hcapacity, ?_⟩
  · exact fun t hinv => (hinv.1.isBoundedQueue_iff hcapacity).mpr hinv.2
  · exact fun t action next hinv hkeeps hstep =>
      ⟨hinv.1.step hcapacity hstep, (keepsRoom_iff hinv.2 hstep).mp hkeeps⟩
  · intro t action next hinv hstep hqueue
    have hnext := hinv.1.step hcapacity hstep
    exact (keepsRoom_iff hinv.2 hstep).mpr ((hnext.isBoundedQueue_iff hcapacity).mp hqueue)
  · show 0 + 1 < capacity
    omega

instance (capacity : ℕ) (t : RingRun α) (action : RingAction α) :
    Decidable (KeepsRoom capacity t action) :=
  match action with
  | .put _ | .put2 _ => inferInstanceAs (Decidable (t.held.length + 2 < capacity))
  | .get | .reset => isTrue trivial

/-- A buffer of four slots whose elements wrap around its end. -/
def wrappedPuts : List (RingAction ℕ) :=
  [.put (some 1), .put2 (some 2), .get, .put none, .get, .put2 (some 4), .get, .put (some 5)]

theorem isBoundedQueue_along_wrappedPuts :
    Transition.Along (step 4) (IsBoundedQueue 4) (initial (fun _ => none) 4) wrappedPuts :=
  (isBoundedQueue_along_iff (fun _ => none) (by decide) wrappedPuts).mpr (by decide +kernel)

/-- A buffer of three slots with two elements has size three. -/
theorem not_isBoundedQueue :
    ¬Transition.Along (step 3) (IsBoundedQueue 3) (initial (fun _ => (none : Option ℕ)) 3)
        [.put (some 1), .put (some 2)] := by
  intro halong
  have hsize := (halong.2 _ rfl).2 _ rfl |>.size
  exact absurd hsize (by decide)

end RingRun

end ArmsTiering
