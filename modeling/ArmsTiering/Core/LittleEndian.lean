import ArmsTiering.Core.Memory
import Mathlib.Data.Nat.Digits.Defs
import Mathlib.Data.UInt

/-!
# Little-endian reads of words

Reads of up to four bytes from a memory in which some addresses are not mapped.
-/

namespace ArmsTiering.LittleEndian

/-- A memory, where `none` stands for an address that is not mapped. -/
abbrev Bytes := ℕ → Option UInt8

def readBytes (m : Bytes) (p : ℕ) : ℕ → Option (List UInt8)
  | 0 => some []
  | n + 1 => (m p).bind fun byte => (readBytes m (p + 1) n).map (byte :: ·)

def word (bytes : List UInt8) : UInt32 := UInt32.ofNat (leValue bytes)

/-- A read of `n` bytes, which is at most a word. -/
def load (m : Bytes) (p n : ℕ) : Option UInt32 := (readBytes m p n).map word

variable {m : Bytes} {p i j n : ℕ} {bytes bytes' : List UInt8}

theorem readBytes_add :
    readBytes m p (i + j) =
      (readBytes m p i).bind fun l => (readBytes m (p + i) j).map (l ++ ·) := by
  induction i generalizing p with
  | zero =>
      rw [Nat.zero_add, readBytes, Option.bind_some]
      exact Option.map_id'.symm
  | succ i ih =>
      have hassoc : p + 1 + i = p + (i + 1) := by omega
      rw [Nat.add_right_comm, readBytes, readBytes, ih, hassoc]
      cases m p <;> cases readBytes m (p + 1) i <;> simp [Function.comp_def]

theorem readBytes_isSome (hmapped : ∀ i < n, (m (p + i)).isSome) : (readBytes m p n).isSome := by
  induction n generalizing p with
  | zero => rfl
  | succ n ih =>
      obtain ⟨byte, hbyte⟩ := Option.isSome_iff_exists.mp (hmapped 0 n.succ_pos)
      have hrest := ih (p := p + 1) fun i hi => by
        rw [Nat.add_right_comm]
        exact hmapped (i + 1) (Nat.succ_lt_succ hi)
      rw [readBytes, show m p = some byte from hbyte, Option.bind_some, Option.isSome_map]
      exact hrest

theorem isSome_of_readBytes (hread : readBytes m p (n + 1) = some bytes) : (m p).isSome := by
  obtain ⟨byte, hbyte, _⟩ := Option.bind_eq_some_iff.mp hread
  rw [hbyte, Option.isSome_some]

theorem length_readBytes (hread : readBytes m p n = some bytes) : bytes.length = n := by
  induction n generalizing p bytes with
  | zero =>
      obtain rfl : [] = bytes := Option.some.inj hread
      rfl
  | succ n ih =>
      obtain ⟨byte, _, htail⟩ := Option.bind_eq_some_iff.mp hread
      obtain ⟨rest, hrest, rfl⟩ := Option.map_eq_some_iff.mp htail
      exact congrArg (· + 1) (ih hrest)

/-- The bytes on both sides of an address. -/
theorem readBytes_split (hread : readBytes m p (i + j) = some bytes) :
    readBytes m p i = some (bytes.take i) ∧ readBytes m (p + i) j = some (bytes.drop i) := by
  rw [readBytes_add] at hread
  obtain ⟨front, hfront, htail⟩ := Option.bind_eq_some_iff.mp hread
  obtain ⟨back, hback, rfl⟩ := Option.map_eq_some_iff.mp htail
  have hlength := length_readBytes hfront
  rw [← hlength, List.take_left, List.drop_left, hlength]
  exact ⟨hfront, hback⟩

/-- A read inside of what is known. -/
theorem load_eq (hread : readBytes m p n = some bytes) (hinside : i + j ≤ n) :
    load m (p + i) j = some (word ((bytes.drop i).take j)) := by
  obtain ⟨rest, rfl⟩ := Nat.exists_eq_add_of_le hinside
  rw [Nat.add_assoc] at hread
  rw [load, (readBytes_split (readBytes_split hread).2).1, Option.map_some]

theorem leValue_eq_ofDigits (bytes : List UInt8) :
    leValue bytes = Nat.ofDigits 256 (bytes.map UInt8.toNat) := by
  induction bytes with
  | nil => rfl
  | cons byte bytes ih =>
      rw [leValue, ih, List.map_cons, Nat.ofDigits_cons]

theorem leValue_append (bytes bytes' : List UInt8) :
    leValue (bytes ++ bytes') = leValue bytes + 256 ^ bytes.length * leValue bytes' := by
  rw [leValue_eq_ofDigits, List.map_append, Nat.ofDigits_append, List.length_map,
    ← leValue_eq_ofDigits, ← leValue_eq_ofDigits]

@[simp]
theorem word_nil : word [] = 0 := rfl

/-- Higher bytes are those that are shifted. -/
theorem word_append (hlength : 8 * bytes.length < 32) :
    word (bytes ++ bytes') = word bytes + word bytes' <<< UInt32.ofNat (8 * bytes.length) := by
  have hpow : 256 ^ bytes.length * leValue bytes' = leValue bytes' <<< (8 * bytes.length) := by
    rw [Nat.shiftLeft_eq, Nat.pow_mul, Nat.mul_comm]
  rw [word, leValue_append, UInt32.ofNat_add, hpow, UInt32.ofNat_shiftLeft _ _ hlength]
  rfl

/-- Higher bytes are those that are shifted, also if there are none. -/
theorem word_take_add (bytes : List UInt8) (i j : ℕ) (hlength : 8 * i < 32) :
    word (bytes.take (i + j)) =
      word (bytes.take i) + word ((bytes.drop i).take j) <<< UInt32.ofNat (8 * i) := by
  rw [List.take_add]
  rcases Nat.le_total i bytes.length with hle | hle
  · have htake : (bytes.take i).length = i := List.length_take_of_le hle
    rw [word_append (by rwa [htake]), htake]
  · rw [List.drop_eq_nil_of_le hle, List.take_nil, List.append_nil, word_nil, UInt32.zero_shiftLeft,
      UInt32.add_zero]

theorem word_halves (bytes : List UInt8) :
    word (bytes.take 4) = word (bytes.take 2) + word ((bytes.drop 2).take 2) <<< 16 :=
  word_take_add bytes 2 2 (by decide)

theorem word_bytes (bytes : List UInt8) :
    word (bytes.take 4) = word (bytes.take 1) + word ((bytes.drop 1).take 1) <<< 8 +
      word ((bytes.drop 2).take 1) <<< 16 + word ((bytes.drop 3).take 1) <<< 24 := by
  calc
    word (bytes.take 4) = word (bytes.take 3) + word ((bytes.drop 3).take 1) <<< 24 :=
      word_take_add bytes 3 1 (by decide)
    _ = word (bytes.take 2) + word ((bytes.drop 2).take 1) <<< 16 +
          word ((bytes.drop 3).take 1) <<< 24 :=
      congrArg (· + _) (word_take_add bytes 2 1 (by decide))
    _ = _ := congrArg (· + _ + _) (word_take_add bytes 1 1 (by decide))

/-- The mask of the lowest bytes takes away those that are above them. -/
theorem word_append_and (bytes bytes' : List UInt8) :
    word (bytes ++ bytes') &&& UInt32.ofNat (256 ^ bytes.length - 1) = word bytes := by
  have hpow : (256 : ℕ) ^ bytes.length = 2 ^ (8 * bytes.length) := by rw [Nat.pow_mul]
  have hlt := leValue_lt bytes
  rw [hpow] at hlt
  rw [word, leValue_append, hpow, ← UInt32.ofNat_and, Nat.and_two_pow_sub_one_eq_mod,
    Nat.add_mul_mod_self_left, Nat.mod_eq_of_lt hlt]
  rfl

/-- A word is read from where it starts, if all of it is mapped. -/
theorem load_masked (hread : readBytes m p i = some bytes)
    (hmapped : (readBytes m p (i + j)).isSome) :
    ∃ w, load m p (i + j) = some w ∧ w &&& UInt32.ofNat (256 ^ i - 1) = word bytes := by
  obtain ⟨all, hall⟩ := Option.isSome_iff_exists.mp hmapped
  have hfront : all.take i = bytes :=
    Option.some.inj ((readBytes_split hall).1.symm.trans hread)
  have hand := word_append_and (all.take i) (all.drop i)
  rw [List.take_append_drop, hfront, length_readBytes hread] at hand
  exact ⟨word all, by rw [load, hall, Option.map_some], hand⟩

theorem word_injective (hlength : bytes.length = bytes'.length) (hfits : bytes.length ≤ 4)
    (heq : word bytes = word bytes') : bytes = bytes' := by
  have hword : ∀ l : List UInt8, l.length ≤ 4 → (word l).toNat = leValue l := by
    intro l hl
    apply UInt32.toNat_ofNat_of_lt'
    exact (leValue_lt l).trans_le (Nat.pow_le_pow_right (by decide) hl)
  have hdigits : ∀ l : List UInt8, ∀ digit ∈ l.map UInt8.toNat, digit < 256 := by
    intro l digit hdigit
    obtain ⟨byte, _, rfl⟩ := List.mem_map.mp hdigit
    exact byte.toNat_lt
  have hvalue : Nat.ofDigits 256 (bytes.map UInt8.toNat) =
      Nat.ofDigits 256 (bytes'.map UInt8.toNat) := by
    rw [← leValue_eq_ofDigits, ← leValue_eq_ofDigits, ← hword bytes hfits, heq,
      hword bytes' (hlength ▸ hfits)]
  apply List.map_injective_iff.mpr fun _ _ => UInt8.toNat_inj.mp
  exact Nat.ofDigits_inj_of_len_eq (by decide) (by simpa using hlength) (hdigits _) (hdigits _) hvalue

end ArmsTiering.LittleEndian
