import Mathlib.Data.Finset.Card
import Mathlib.Logic.Function.Basic

/-!
# The flags of a `khash.h` table

Two bits for each bucket, sixteen buckets in a word: the bucket has never been
used, and its entry has been deleted.
-/

namespace ArmsTiering

/-- The words of `flags`. -/
abbrev KhFlags := ℕ → BitVec 32

namespace KhFlags

/-- `__ac_isempty` -/
def isempty (flags : KhFlags) (i : ℕ) : Bool :=
  ((flags (i >>> 4) >>> ((i &&& 15) <<< 1)) &&& 2#32) ≠ 0#32

/-- `__ac_isdel` -/
def isdel (flags : KhFlags) (i : ℕ) : Bool :=
  ((flags (i >>> 4) >>> ((i &&& 15) <<< 1)) &&& 1#32) ≠ 0#32

/-- `__ac_iseither` -/
def iseither (flags : KhFlags) (i : ℕ) : Bool :=
  ((flags (i >>> 4) >>> ((i &&& 15) <<< 1)) &&& 3#32) ≠ 0#32

/-- `__ac_set_isempty_false` -/
def setIsemptyFalse (flags : KhFlags) (i : ℕ) : KhFlags :=
  Function.update flags (i >>> 4) (flags (i >>> 4) &&& ~~~(2#32 <<< ((i &&& 15) <<< 1)))

/-- `__ac_set_isboth_false` -/
def setIsbothFalse (flags : KhFlags) (i : ℕ) : KhFlags :=
  Function.update flags (i >>> 4) (flags (i >>> 4) &&& ~~~(3#32 <<< ((i &&& 15) <<< 1)))

/-- `__ac_set_isdel_true` -/
def setIsdelTrue (flags : KhFlags) (i : ℕ) : KhFlags :=
  Function.update flags (i >>> 4) (flags (i >>> 4) ||| (1#32 <<< ((i &&& 15) <<< 1)))

/-- All words after `memset(flags, 0xaa, ...)`. -/
def allEmpty : KhFlags := fun _ => 0xaaaaaaaa#32

variable (flags : KhFlags) (i j b : ℕ)

/-- The bit `b` of the bucket. -/
def bitAt : Bool := (flags (i / 16)).getLsbD (2 * (i % 16) + b)

theorem word_eq : i >>> 4 = i / 16 := Nat.shiftRight_eq_div_pow i 4

theorem shift_eq : (i &&& 15) <<< 1 = 2 * (i % 16) := by
  rw [show (15 : ℕ) = 2 ^ 4 - 1 from rfl, Nat.and_two_pow_sub_one_eq_mod, Nat.shiftLeft_eq]
  omega

/-- Some bit of the mask is set in the word. -/
theorem and_ne_zero (x m : BitVec 32) :
    x &&& m ≠ 0#32 ↔ ∃ b < 32, x.getLsbD b = true ∧ m.getLsbD b = true := by
  constructor
  · intro hne
    by_contra hnone
    refine hne (BitVec.eq_of_getLsbD_eq fun b hb => ?_)
    rw [BitVec.getLsbD_and, BitVec.getLsbD_zero, Bool.and_eq_false_iff]
    by_contra hor
    rw [not_or, Bool.not_eq_false, Bool.not_eq_false] at hor
    exact hnone ⟨b, hb, hor⟩
  · rintro ⟨b, _, hx, hm⟩ hzero
    have hbit := congrArg (fun y => y.getLsbD b) hzero
    simp only [BitVec.getLsbD_and, hx, hm, BitVec.getLsbD_zero] at hbit
    cases hbit

theorem getLsbD_one_mask : ∀ b < 32, (1#32).getLsbD b = decide (b = 0) := by decide

theorem getLsbD_two_mask : ∀ b < 32, (2#32).getLsbD b = decide (b = 1) := by decide

theorem getLsbD_three_mask : ∀ b < 32, (3#32).getLsbD b = decide (b < 2) := by decide

theorem isempty_eq : isempty flags i = bitAt flags i 1 := by
  rw [Bool.eq_iff_iff, isempty, bitAt, decide_eq_true_iff, and_ne_zero, word_eq, shift_eq]
  constructor
  · rintro ⟨b, hb, hx, hm⟩
    rw [getLsbD_two_mask b hb, decide_eq_true_iff] at hm
    rwa [hm, BitVec.getLsbD_ushiftRight] at hx
  · intro hbit
    exact ⟨1, by decide, by rwa [BitVec.getLsbD_ushiftRight], by decide⟩

theorem isdel_eq : isdel flags i = bitAt flags i 0 := by
  rw [Bool.eq_iff_iff, isdel, bitAt, decide_eq_true_iff, and_ne_zero, word_eq, shift_eq]
  constructor
  · rintro ⟨b, hb, hx, hm⟩
    rw [getLsbD_one_mask b hb, decide_eq_true_iff] at hm
    rwa [hm, BitVec.getLsbD_ushiftRight] at hx
  · intro hbit
    exact ⟨0, by decide, by rwa [BitVec.getLsbD_ushiftRight], by decide⟩

theorem iseither_eq : iseither flags i = (isempty flags i || isdel flags i) := by
  rw [isempty_eq, isdel_eq, Bool.eq_iff_iff, iseither, bitAt, bitAt, decide_eq_true_iff,
    and_ne_zero, word_eq, shift_eq, Bool.or_eq_true]
  constructor
  · rintro ⟨b, hb, hx, hm⟩
    rw [getLsbD_three_mask b hb, decide_eq_true_iff] at hm
    rw [BitVec.getLsbD_ushiftRight] at hx
    match b, hm with
    | 0, _ => exact .inr hx
    | 1, _ => exact .inl hx
  · rintro (hbit | hbit)
    · exact ⟨1, by decide, by rwa [BitVec.getLsbD_ushiftRight], by decide⟩
    · exact ⟨0, by decide, by rwa [BitVec.getLsbD_ushiftRight], by decide⟩

variable {flags i j b}

/-- A mask for one bucket, as a bit of another one sees it. -/
theorem getLsbD_shifted {m : BitVec 32} (hm : ∀ c < 32, 2 ≤ c → m.getLsbD c = false)
    (hb : b < 2) (hword : j / 16 = i / 16) :
    (m <<< (2 * (i % 16))).getLsbD (2 * (j % 16) + b) = (decide (j = i) && m.getLsbD b) := by
  rw [BitVec.getLsbD_shiftLeft, decide_eq_true (show 2 * (j % 16) + b < 32 by omega),
    Bool.true_and]
  rcases eq_or_ne j i with rfl | hne
  · rw [decide_eq_false (by omega), decide_eq_true rfl, Nat.add_sub_cancel_left]
    rfl
  · rw [decide_eq_false hne, Bool.false_and]
    by_cases hlow : 2 * (j % 16) + b < 2 * (i % 16)
    · rw [decide_eq_true hlow]
      rfl
    · rw [hm _ (by omega) (by omega), Bool.and_false]

theorem bitAt_and_not {m : BitVec 32} (hm : ∀ c < 32, 2 ≤ c → m.getLsbD c = false) (hb : b < 2) :
    bitAt (Function.update flags (i >>> 4) (flags (i >>> 4) &&& ~~~(m <<< ((i &&& 15) <<< 1)))) j b =
      (bitAt flags j b && !(decide (j = i) && m.getLsbD b)) := by
  rw [word_eq, shift_eq, bitAt, bitAt]
  rcases eq_or_ne (j / 16) (i / 16) with hword | hword
  · rw [hword, Function.update_self, BitVec.getLsbD_and, BitVec.getLsbD_not,
      getLsbD_shifted hm hb hword, decide_eq_true (show 2 * (j % 16) + b < 32 by omega),
      Bool.true_and]
  · have hne : j ≠ i := fun heq => hword (by rw [heq])
    rw [Function.update_of_ne hword, decide_eq_false hne, Bool.false_and, Bool.not_false,
      Bool.and_true]

theorem bitAt_or {m : BitVec 32} (hm : ∀ c < 32, 2 ≤ c → m.getLsbD c = false) (hb : b < 2) :
    bitAt (Function.update flags (i >>> 4) (flags (i >>> 4) ||| m <<< ((i &&& 15) <<< 1))) j b =
      (bitAt flags j b || (decide (j = i) && m.getLsbD b)) := by
  rw [word_eq, shift_eq, bitAt, bitAt]
  rcases eq_or_ne (j / 16) (i / 16) with hword | hword
  · rw [hword, Function.update_self, BitVec.getLsbD_or, getLsbD_shifted hm hb hword]
  · have hne : j ≠ i := fun heq => hword (by rw [heq])
    rw [Function.update_of_ne hword, decide_eq_false hne, Bool.false_and, Bool.or_false]

/-! ## What the macros do to a bucket -/

@[simp]
theorem isempty_allEmpty (i : ℕ) : isempty allEmpty i = true := by
  rw [isempty_eq, bitAt, allEmpty]
  have hlt : i % 16 < 16 := Nat.mod_lt _ (by decide)
  revert hlt
  generalize i % 16 = r
  revert r
  decide

@[simp]
theorem isdel_allEmpty (i : ℕ) : isdel allEmpty i = false := by
  rw [isdel_eq, bitAt, allEmpty]
  have hlt : i % 16 < 16 := Nat.mod_lt _ (by decide)
  revert hlt
  generalize i % 16 = r
  revert r
  decide

section

variable (flags i j)

theorem isempty_setIsemptyFalse :
    isempty (setIsemptyFalse flags i) j = (isempty flags j && !decide (j = i)) := by
  rw [isempty_eq, isempty_eq, setIsemptyFalse, bitAt_and_not (by decide) (by decide)]
  simp

theorem isdel_setIsemptyFalse : isdel (setIsemptyFalse flags i) j = isdel flags j := by
  rw [isdel_eq, isdel_eq, setIsemptyFalse, bitAt_and_not (by decide) (by decide)]
  simp

theorem isempty_setIsbothFalse :
    isempty (setIsbothFalse flags i) j = (isempty flags j && !decide (j = i)) := by
  rw [isempty_eq, isempty_eq, setIsbothFalse, bitAt_and_not (by decide) (by decide)]
  simp

theorem isdel_setIsbothFalse :
    isdel (setIsbothFalse flags i) j = (isdel flags j && !decide (j = i)) := by
  rw [isdel_eq, isdel_eq, setIsbothFalse, bitAt_and_not (by decide) (by decide)]
  simp

theorem isempty_setIsdelTrue : isempty (setIsdelTrue flags i) j = isempty flags j := by
  rw [isempty_eq, isempty_eq, setIsdelTrue, bitAt_or (by decide) (by decide)]
  simp

theorem isdel_setIsdelTrue :
    isdel (setIsdelTrue flags i) j = (isdel flags j || decide (j = i)) := by
  rw [isdel_eq, isdel_eq, setIsdelTrue, bitAt_or (by decide) (by decide)]
  simp

end

end KhFlags

end ArmsTiering
