import Mathlib.Algebra.Order.Ring.Nat
import Mathlib.Data.List.GetD
import Mathlib.Tactic.Common

/-!
# Byte-addressed memory

Reading and writing byte ranges and little-endian numbers, and what a write
leaves as it was.  Nothing in this file refers to the modelled program.
-/

namespace ArmsTiering

abbrev Memory := ℕ → UInt8

/-- The `n` lowest bytes of a number, least significant first. -/
def leBytes : ℕ → ℕ → List UInt8
  | 0, _ => []
  | n + 1, value => UInt8.ofNat value :: leBytes n (value / 256)

def leValue : List UInt8 → ℕ
  | [] => 0
  | byte :: bytes => byte.toNat + 256 * leValue bytes

@[simp]
theorem length_leBytes (n value : ℕ) : (leBytes n value).length = n := by
  induction n generalizing value with
  | zero => rfl
  | succ n ih => rw [leBytes, List.length_cons, ih]

theorem leValue_leBytes (n value : ℕ) : leValue (leBytes n value) = value % 256 ^ n := by
  induction n generalizing value with
  | zero => exact (Nat.mod_one value).symm
  | succ n ih =>
      have hbyte : (UInt8.ofNat value).toNat = value % 256 := UInt8.toNat_ofNat'
      rw [leBytes, leValue, ih, hbyte, Nat.pow_succ, Nat.mul_comm (256 ^ n), Nat.mod_mul]

theorem leValue_lt (bytes : List UInt8) : leValue bytes < 256 ^ bytes.length := by
  induction bytes with
  | nil => exact Nat.one_pos
  | cons byte bytes ih =>
      have hbyte : byte.toNat < 256 := byte.toNat_lt
      rw [leValue, List.length_cons, Nat.pow_succ]
      omega

namespace Memory

def read (m : Memory) (address : ℕ) : ℕ → List UInt8
  | 0 => []
  | n + 1 => m address :: read m (address + 1) n

def write (m : Memory) (address : ℕ) (bytes : List UInt8) : Memory := fun x =>
  if address ≤ x then bytes.getD (x - address) (m x) else m x

/-- The unsigned number in the `n` bytes at an address. -/
def load (m : Memory) (address n : ℕ) : ℕ := leValue (m.read address n)

def store (m : Memory) (address n value : ℕ) : Memory := m.write address (leBytes n value)

/-- The two memories hold the same bytes from `lo` up to `hi`. -/
def AgreeOn (m m' : Memory) (lo hi : ℕ) : Prop := ∀ x, lo ≤ x → x < hi → m' x = m x

variable {m m' m'' : Memory} {lo hi address n : ℕ}

/-! ## Agreement -/

theorem AgreeOn.refl (m : Memory) (lo hi : ℕ) : AgreeOn m m lo hi := fun _ _ _ => rfl

theorem AgreeOn.symm (hagree : AgreeOn m m' lo hi) : AgreeOn m' m lo hi :=
  fun x hlo hhi => (hagree x hlo hhi).symm

theorem AgreeOn.trans (hfirst : AgreeOn m m' lo hi) (hsecond : AgreeOn m' m'' lo hi) :
    AgreeOn m m'' lo hi :=
  fun x hlo hhi => (hsecond x hlo hhi).trans (hfirst x hlo hhi)

theorem AgreeOn.mono (hagree : AgreeOn m m' lo hi) {lo' hi' : ℕ} (hlo : lo ≤ lo')
    (hhi : hi' ≤ hi) : AgreeOn m m' lo' hi' :=
  fun x hx hx' => hagree x (hlo.trans hx) (hx'.trans_le hhi)

@[simp]
theorem length_read (m : Memory) (address n : ℕ) : (m.read address n).length = n := by
  induction n generalizing address with
  | zero => rfl
  | succ n ih => rw [read, List.length_cons, ih]

theorem AgreeOn.read_eq (hagree : AgreeOn m m' lo hi) (hlo : lo ≤ address)
    (hhi : address + n ≤ hi) : m'.read address n = m.read address n := by
  induction n generalizing address with
  | zero => rfl
  | succ n ih =>
      rw [read, read, hagree address hlo (by omega), ih (by omega) (by omega)]

theorem AgreeOn.load_eq (hagree : AgreeOn m m' lo hi) (hlo : lo ≤ address)
    (hhi : address + n ≤ hi) : m'.load address n = m.load address n :=
  congrArg leValue (hagree.read_eq hlo hhi)

theorem read_add (m : Memory) (address n k : ℕ) :
    m.read address (n + k) = m.read address n ++ m.read (address + n) k := by
  induction n generalizing address with
  | zero =>
      rw [Nat.zero_add, Nat.add_zero]
      rfl
  | succ n ih =>
      rw [Nat.succ_add, read, read, ih, List.cons_append, Nat.add_assoc, Nat.add_comm 1 n]

theorem drop_read (m : Memory) (address : ℕ) {n k : ℕ} (hk : k ≤ n) :
    (m.read address n).drop k = m.read (address + k) (n - k) := by
  obtain ⟨rest, rfl⟩ := Nat.exists_eq_add_of_le hk
  rw [read_add, Nat.add_sub_cancel_left]
  exact List.drop_left' (length_read m address k)

/-! ## Writes -/

variable {bytes : List UInt8}

theorem write_of_lt {x : ℕ} (hx : x < address) : m.write address bytes x = m x :=
  if_neg (Nat.not_le.mpr hx)

theorem write_of_ge {x : ℕ} (hx : address + bytes.length ≤ x) :
    m.write address bytes x = m x := by
  rw [write, if_pos (by omega)]
  exact List.getD_eq_default _ _ (by omega)

theorem write_offset {i : ℕ} (hi : i < bytes.length) :
    m.write address bytes (address + i) = bytes[i] := by
  rw [write, if_pos (Nat.le_add_right _ _), Nat.add_sub_cancel_left]
  exact List.getD_eq_getElem _ _ hi

/-- A write leaves every range that it does not meet. -/
theorem agreeOn_write (hapart : hi ≤ address ∨ address + bytes.length ≤ lo) :
    AgreeOn m (m.write address bytes) lo hi := by
  intro x hlo hhi
  rcases hapart with hbelow | habove
  · exact write_of_lt (hhi.trans_le hbelow)
  · exact write_of_ge (habove.trans hlo)

theorem agreeOn_store {value : ℕ} (hapart : hi ≤ address ∨ address + n ≤ lo) :
    AgreeOn m (m.store address n value) lo hi :=
  agreeOn_write (by rwa [length_leBytes])

theorem getElem_read {i : ℕ} (hi : i < (m.read address n).length) :
    (m.read address n)[i] = m (address + i) := by
  induction n generalizing address i with
  | zero => exact absurd hi (Nat.not_lt_zero i)
  | succ n ih =>
      cases i with
      | zero => rfl
      | succ i =>
          have htail := ih (Nat.lt_of_succ_lt_succ hi)
          rw [Nat.add_assoc, Nat.add_comm 1 i] at htail
          exact htail

theorem read_write (m : Memory) (address : ℕ) (bytes : List UInt8) :
    (m.write address bytes).read address bytes.length = bytes := by
  refine List.ext_getElem (length_read _ _ _) fun i hi hi' => ?_
  rw [getElem_read, write_offset hi']

theorem load_store (m : Memory) (address n value : ℕ) :
    (m.store address n value).load address n = value % 256 ^ n := by
  have hread := read_write m address (leBytes n value)
  rw [length_leBytes] at hread
  rw [load, store, hread, leValue_leBytes]

theorem load_lt (m : Memory) (address n : ℕ) : m.load address n < 256 ^ n := by
  have hlt := leValue_lt (m.read address n)
  rwa [length_read] at hlt

/-! ## Writes that cancel -/

theorem write_write {bytes' : List UInt8} (m : Memory) (address : ℕ)
    (hlength : bytes'.length = bytes.length) :
    (m.write address bytes).write address bytes' = m.write address bytes' := by
  funext x
  unfold write
  by_cases hle : address ≤ x
  · simp only [if_pos hle]
    by_cases hlt : x - address < bytes'.length
    · rw [List.getD_eq_getElem _ _ hlt, List.getD_eq_getElem _ _ hlt]
    · rw [List.getD_eq_default _ _ (Nat.le_of_not_lt hlt), List.getD_eq_default _ _ (by omega),
        List.getD_eq_default _ _ (Nat.le_of_not_lt hlt)]
  · rw [if_neg hle, if_neg hle, if_neg hle]

theorem store_store (m : Memory) (address n value value' : ℕ) :
    (m.store address n value).store address n value' = m.store address n value' :=
  write_write m address (by rw [length_leBytes, length_leBytes])

theorem write_read (m : Memory) (address n : ℕ) : m.write address (m.read address n) = m := by
  funext x
  unfold write
  split
  · rename_i hle
    by_cases hlt : x - address < (m.read address n).length
    · rw [List.getD_eq_getElem _ _ hlt, getElem_read, Nat.add_sub_cancel' hle]
    · exact List.getD_eq_default _ _ (Nat.le_of_not_lt hlt)
  · rfl

theorem leBytes_leValue (bytes : List UInt8) : leBytes bytes.length (leValue bytes) = bytes := by
  induction bytes with
  | nil => rfl
  | cons byte bytes ih =>
      have hbyte : byte.toNat < 256 := byte.toNat_lt
      have hhead : UInt8.ofNat (byte.toNat + 256 * leValue bytes) = byte := by
        refine UInt8.toNat_inj.mp ?_
        rw [UInt8.toNat_ofNat']
        omega
      have htail : (byte.toNat + 256 * leValue bytes) / 256 = leValue bytes := by omega
      rw [List.length_cons, leValue, leBytes, hhead, htail, ih]

theorem store_load (m : Memory) (address n : ℕ) : m.store address n (m.load address n) = m := by
  have hbytes := leBytes_leValue (m.read address n)
  rw [length_read] at hbytes
  rw [store, load, hbytes, write_read]

end Memory

end ArmsTiering
