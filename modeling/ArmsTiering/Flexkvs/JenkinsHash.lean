import ArmsTiering.Core.LittleEndian
import Mathlib.Tactic.IntervalCases

/-!
# The hash of a key

`jenkins_hash` reads a key by words, by half words or by bytes, whatever its address
allows.  All three compute one function of the bytes of the key, although the first one
reads whole words, beyond the end of the key.
-/

namespace ArmsTiering

open LittleEndian

/-- The internal state of `jenkins_hash` -/
structure Jenkins where
  a : UInt32
  b : UInt32
  c : UInt32
deriving DecidableEq

def rot (x k : UInt32) : UInt32 := (x <<< k) ^^^ (x >>> (32 - k))

namespace Jenkins

def mix (s : Jenkins) : Jenkins :=
  let ⟨a, b, c⟩ := s
  let a := a - c; let a := a ^^^ rot c 4; let c := c + b
  let b := b - a; let b := b ^^^ rot a 6; let a := a + c
  let c := c - b; let c := c ^^^ rot b 8; let b := b + a
  let a := a - c; let a := a ^^^ rot c 16; let c := c + b
  let b := b - a; let b := b ^^^ rot a 19; let a := a + c
  let c := c - b; let c := c ^^^ rot b 4; let b := b + a
  ⟨a, b, c⟩

def final (s : Jenkins) : Jenkins :=
  let ⟨a, b, c⟩ := s
  let c := c ^^^ b; let c := c - rot b 14
  let a := a ^^^ c; let a := a - rot c 11
  let b := b ^^^ a; let b := b - rot a 25
  let c := c ^^^ b; let c := c - rot b 16
  let a := a ^^^ c; let a := a - rot c 4
  let b := b ^^^ a; let b := b - rot a 14
  let c := c ^^^ b; let c := c - rot b 24
  ⟨a, b, c⟩

/-- What is read for the three words, added to them. -/
def add (s : Jenkins) (a b c : Option UInt32) : Option Jenkins := do
  return ⟨s.a + (← a), s.b + (← b), s.c + (← c)⟩

def addA (shift : UInt32) (s : Jenkins) (x : UInt32) : Jenkins := { s with a := s.a + x <<< shift }

def addB (shift : UInt32) (s : Jenkins) (x : UInt32) : Jenkins := { s with b := s.b + x <<< shift }

def addC (shift : UInt32) (s : Jenkins) (x : UInt32) : Jenkins := { s with c := s.c + x <<< shift }

end Jenkins

section

variable (m : Bytes) (k : ℕ)

/-- `k[i]` of a `const uint32_t *` -/
def k32 (i : ℕ) : Option UInt32 := load m (k + 4 * i) 4

/-- `k[i]` of a `const uint16_t *` -/
def k16 (i : ℕ) : Option UInt32 := load m (k + 2 * i) 2

/-- `k[i]` of a `const uint8_t *` -/
def k8 (i : ℕ) : Option UInt32 := load m (k + i) 1

/-- `k[i] + (((uint32_t)k[i + 1])<<16)` -/
def k16Pair (i : ℕ) : Option UInt32 := do return (← k16 m k i) + (← k16 m k (i + 1)) <<< 16

def block32 (s : Jenkins) : Option Jenkins := s.add (k32 m k 0) (k32 m k 1) (k32 m k 2)

/-- The last block by words; a word to which a case adds nothing gets zero. -/
def last32 (length : ℕ) (s : Jenkins) : Option Jenkins :=
  match length with
  | 12 => s.add (k32 m k 0) (k32 m k 1) (k32 m k 2)
  | 11 => s.add (k32 m k 0) (k32 m k 1) ((k32 m k 2).map (· &&& 0xffffff))
  | 10 => s.add (k32 m k 0) (k32 m k 1) ((k32 m k 2).map (· &&& 0xffff))
  | 9 => s.add (k32 m k 0) (k32 m k 1) ((k32 m k 2).map (· &&& 0xff))
  | 8 => s.add (k32 m k 0) (k32 m k 1) (some 0)
  | 7 => s.add (k32 m k 0) ((k32 m k 1).map (· &&& 0xffffff)) (some 0)
  | 6 => s.add (k32 m k 0) ((k32 m k 1).map (· &&& 0xffff)) (some 0)
  | 5 => s.add (k32 m k 0) ((k32 m k 1).map (· &&& 0xff)) (some 0)
  | 4 => s.add (k32 m k 0) (some 0) (some 0)
  | 3 => s.add ((k32 m k 0).map (· &&& 0xffffff)) (some 0) (some 0)
  | 2 => s.add ((k32 m k 0).map (· &&& 0xffff)) (some 0) (some 0)
  | 1 => s.add ((k32 m k 0).map (· &&& 0xff)) (some 0) (some 0)
  | _ => some s

def block16 (s : Jenkins) : Option Jenkins := s.add (k16Pair m k 0) (k16Pair m k 2) (k16Pair m k 4)

/-- `c+=((uint32_t)k8[10])<<16` and `c+=k[4]`, and the same for the other words -/
def k16Three (i : ℕ) : Option UInt32 := do return (← k8 m k (2 * i + 2)) <<< 16 + (← k16 m k i)

def last16 (length : ℕ) (s : Jenkins) : Option Jenkins :=
  match length with
  | 12 => s.add (k16Pair m k 0) (k16Pair m k 2) (k16Pair m k 4)
  | 11 => s.add (k16Pair m k 0) (k16Pair m k 2) (k16Three m k 4)
  | 10 => s.add (k16Pair m k 0) (k16Pair m k 2) (k16 m k 4)
  | 9 => s.add (k16Pair m k 0) (k16Pair m k 2) (k8 m k 8)
  | 8 => s.add (k16Pair m k 0) (k16Pair m k 2) (some 0)
  | 7 => s.add (k16Pair m k 0) (k16Three m k 2) (some 0)
  | 6 => s.add (k16Pair m k 0) (k16 m k 2) (some 0)
  | 5 => s.add (k16Pair m k 0) (k8 m k 4) (some 0)
  | 4 => s.add (k16Pair m k 0) (some 0) (some 0)
  | 3 => s.add (k16Three m k 0) (some 0) (some 0)
  | 2 => s.add (k16 m k 0) (some 0) (some 0)
  | 1 => s.add (k8 m k 0) (some 0) (some 0)
  | _ => some s

open Jenkins in
/-- What becomes of every byte of a block. -/
def byteSteps : List (ℕ × (Jenkins → UInt32 → Jenkins)) :=
  [(0, addA 0), (1, addA 8), (2, addA 16), (3, addA 24),
    (4, addB 0), (5, addB 8), (6, addB 16), (7, addB 24),
    (8, addC 0), (9, addC 8), (10, addC 16), (11, addC 24)]

def addBytes (steps : List (ℕ × (Jenkins → UInt32 → Jenkins))) (s : Jenkins) : Option Jenkins :=
  steps.foldlM (fun s step => (k8 m k step.1).map (step.2 s)) s

def block8 (s : Jenkins) : Option Jenkins := addBytes m k byteSteps s

/-- All cases fall through, from the last byte of the key to the first one. -/
def last8 (length : ℕ) (s : Jenkins) : Option Jenkins :=
  addBytes m k (byteSteps.reverse.filter (·.1 < length)) s

end

/-- The loop over the blocks, with the last one. -/
def jenkinsLoop (block : Bytes → ℕ → Jenkins → Option Jenkins)
    (last : Bytes → ℕ → ℕ → Jenkins → Option Jenkins) (m : Bytes) (k length : ℕ) (s : Jenkins) :
    Option Jenkins :=
  if 12 < length then
    (block m k s).bind fun s => jenkinsLoop block last m (k + 12) (length - 12) s.mix
  else if length = 0 then some s
  else (last m k length s).map Jenkins.final
termination_by length

def jenkinsInit (length : ℕ) : Jenkins :=
  let x := 0xdeadbeef + UInt32.ofNat length + 0
  ⟨x, x, x⟩

/-- The internal state when `jenkins_hash` returns; there is none if an address is read
that is not mapped. -/
def jenkinsState (m : Bytes) (key length : ℕ) : Option Jenkins :=
  if key % 4 = 0 then jenkinsLoop block32 last32 m key length (jenkinsInit length)
  else if key % 2 = 0 then jenkinsLoop block16 last16 m key length (jenkinsInit length)
  else jenkinsLoop block8 last8 m key length (jenkinsInit length)

def jenkinsHash (m : Bytes) (key length : ℕ) : Option UInt32 :=
  (jenkinsState m key length).map Jenkins.c

namespace Jenkins

/-- The word number `i` of a block, filled up with zeros. -/
def wordAt (bytes : List UInt8) (i : ℕ) : UInt32 := word ((bytes.drop (4 * i)).take 4)

/-- The first block of a key. -/
def absorb (bytes : List UInt8) (s : Jenkins) : Jenkins :=
  ⟨s.a + wordAt bytes 0, s.b + wordAt bytes 1, s.c + wordAt bytes 2⟩

/-- The state after a key, which is filled up with zeros. -/
def after (bytes : List UInt8) (s : Jenkins) : Jenkins :=
  if 12 < bytes.length then after (bytes.drop 12) (absorb bytes s).mix
  else if bytes = [] then s
  else (absorb bytes s).final
termination_by bytes.length

/-- The hash of a key as a function of its bytes. -/
def hashOf (bytes : List UInt8) : UInt32 := (after bytes (jenkinsInit bytes.length)).c

/-- Memory protection works on whole words. -/
def MappedByWords (m : Bytes) : Prop := ∀ p q, p / 4 = q / 4 → (m p).isSome → (m q).isSome

variable {m : Bytes} {k n i : ℕ} {bytes : List UInt8} {s : Jenkins} {x y z : Option UInt32}

theorem add_eq (hx : x = some (wordAt bytes 0)) (hy : y = some (wordAt bytes 1))
    (hz : z = some (wordAt bytes 2)) : s.add x y z = some (absorb bytes s) := by
  rw [hx, hy, hz]
  rfl

section

variable (hread : readBytes m k n = some bytes)
include hread

/-- Beyond the end of the key there are zeros. -/
theorem wordAt_end (hend : n ≤ 4 * i) : some 0 = some (wordAt bytes i) := by
  have hlength := length_readBytes hread
  rw [wordAt, List.drop_eq_nil_of_le (by omega), List.take_nil, word_nil]

theorem k32_eq (hinside : 4 * i + 4 ≤ n) : k32 m k i = some (wordAt bytes i) :=
  load_eq hread hinside

theorem k8_eq (hinside : i < n) : k8 m k i = some (word ((bytes.drop i).take 1)) :=
  load_eq hread hinside

theorem k16_eq (hinside : 2 * i + 2 ≤ n) :
    k16 m k i = some (word ((bytes.drop (2 * i)).take 2)) :=
  load_eq hread hinside

theorem k16Pair_eq (hinside : 4 * i + 4 ≤ n) : k16Pair m k (2 * i) = some (wordAt bytes i) := by
  have hlow : 2 * (2 * i) = 4 * i := by omega
  have hhigh : 2 * (2 * i + 1) = 4 * i + 2 := by omega
  rw [k16Pair, k16_eq hread (by omega), k16_eq hread (by omega), wordAt, word_halves, List.drop_drop,
    hlow, hhigh]
  rfl

/-- The last word of a key. -/
theorem wordAt_last {j : ℕ} (hn : n = 4 * i + j) (hj : j ≤ 4) :
    wordAt bytes i = word ((bytes.drop (4 * i)).take j) := by
  have hlength : (bytes.drop (4 * i)).length = j := by
    rw [List.length_drop, length_readBytes hread, hn, Nat.add_sub_cancel_left]
  rw [wordAt, List.take_of_length_le (by omega), List.take_of_length_le (by omega)]

theorem k8_last (hn : n = 4 * i + 1) : k8 m k (4 * i) = some (wordAt bytes i) := by
  rw [k8_eq hread (by omega), wordAt_last hread hn (by decide)]

theorem k16_last (hn : n = 4 * i + 2) : k16 m k (2 * i) = some (wordAt bytes i) := by
  rw [k16_eq hread (by omega), wordAt_last hread hn (by decide), ← Nat.mul_assoc]

theorem k16Three_last (hn : n = 4 * i + 3) : k16Three m k (2 * i) = some (wordAt bytes i) := by
  have hlow : 2 * (2 * i) = 4 * i := by omega
  rw [k16Three, k8_eq hread (by omega), k16_eq hread (by omega), hlow, wordAt_last hread hn (by decide),
    word_take_add _ 2 1 (by decide), List.drop_drop, UInt32.add_comm]
  rfl

variable (haligned : k % 4 = 0) (hwords : MappedByWords m)
include haligned hwords

/-- The rest of a word that starts in the key is mapped, and the mask takes it away. -/
theorem k32_last {j : ℕ} (mask : UInt32) (hn : n = 4 * i + (j + 1)) (hj : j < 3)
    (hmask : mask = UInt32.ofNat (256 ^ (j + 1) - 1)) :
    (k32 m k i).map (· &&& mask) = some (wordAt bytes i) := by
  have htail : readBytes m (k + 4 * i) (j + 1) = some (bytes.drop (4 * i)) :=
    (readBytes_split (hn ▸ hread)).2
  have hword : (readBytes m (k + 4 * i) (j + 1 + (3 - j))).isSome := by
    apply readBytes_isSome
    intro offset hoffset
    exact hwords (k + 4 * i) _ (by omega) (isSome_of_readBytes htail)
  obtain ⟨w, hload, hand⟩ := load_masked htail hword
  have hfour : j + 1 + (3 - j) = 4 := by omega
  rw [hfour] at hload
  rw [k32, hload, Option.map_some, hmask, hand, wordAt_last hread hn (by omega),
    List.take_of_length_le (length_readBytes htail).le]

theorem last32_eq (hpos : n ≠ 0) (hle : n ≤ 12) : last32 m k n s = some (absorb bytes s) := by
  have zero := fun i => wordAt_end (i := i) hread
  have whole := fun i => k32_eq (i := i) hread
  have part := fun i j => k32_last (i := i) (j := j) hread haligned hwords
  interval_cases n
  · exact absurd rfl hpos
  · exact add_eq (part 0 0 _ rfl (by decide) rfl) (zero 1 (by decide)) (zero 2 (by decide))
  · exact add_eq (part 0 1 _ rfl (by decide) rfl) (zero 1 (by decide)) (zero 2 (by decide))
  · exact add_eq (part 0 2 _ rfl (by decide) rfl) (zero 1 (by decide)) (zero 2 (by decide))
  · exact add_eq (whole 0 (by decide)) (zero 1 (by decide)) (zero 2 (by decide))
  · exact add_eq (whole 0 (by decide)) (part 1 0 _ rfl (by decide) rfl) (zero 2 (by decide))
  · exact add_eq (whole 0 (by decide)) (part 1 1 _ rfl (by decide) rfl) (zero 2 (by decide))
  · exact add_eq (whole 0 (by decide)) (part 1 2 _ rfl (by decide) rfl) (zero 2 (by decide))
  · exact add_eq (whole 0 (by decide)) (whole 1 (by decide)) (zero 2 (by decide))
  · exact add_eq (whole 0 (by decide)) (whole 1 (by decide)) (part 2 0 _ rfl (by decide) rfl)
  · exact add_eq (whole 0 (by decide)) (whole 1 (by decide)) (part 2 1 _ rfl (by decide) rfl)
  · exact add_eq (whole 0 (by decide)) (whole 1 (by decide)) (part 2 2 _ rfl (by decide) rfl)
  · exact add_eq (whole 0 (by decide)) (whole 1 (by decide)) (whole 2 (by decide))

end

section

variable (hread : readBytes m k n = some bytes)
include hread

theorem last16_eq (hpos : n ≠ 0) (hle : n ≤ 12) : last16 m k n s = some (absorb bytes s) := by
  have zero := fun i => wordAt_end (i := i) hread
  have pair := fun i => k16Pair_eq (i := i) hread
  have one := fun i => k8_last (i := i) hread
  have two := fun i => k16_last (i := i) hread
  have three := fun i => k16Three_last (i := i) hread
  interval_cases n
  · exact absurd rfl hpos
  · exact add_eq (one 0 rfl) (zero 1 (by decide)) (zero 2 (by decide))
  · exact add_eq (two 0 rfl) (zero 1 (by decide)) (zero 2 (by decide))
  · exact add_eq (three 0 rfl) (zero 1 (by decide)) (zero 2 (by decide))
  · exact add_eq (pair 0 (by decide)) (zero 1 (by decide)) (zero 2 (by decide))
  · exact add_eq (pair 0 (by decide)) (one 1 rfl) (zero 2 (by decide))
  · exact add_eq (pair 0 (by decide)) (two 1 rfl) (zero 2 (by decide))
  · exact add_eq (pair 0 (by decide)) (three 1 rfl) (zero 2 (by decide))
  · exact add_eq (pair 0 (by decide)) (pair 1 (by decide)) (zero 2 (by decide))
  · exact add_eq (pair 0 (by decide)) (pair 1 (by decide)) (one 2 rfl)
  · exact add_eq (pair 0 (by decide)) (pair 1 (by decide)) (two 2 rfl)
  · exact add_eq (pair 0 (by decide)) (pair 1 (by decide)) (three 2 rfl)
  · exact add_eq (pair 0 (by decide)) (pair 1 (by decide)) (pair 2 (by decide))

/-- Steps for bytes behind the end of the key would add zeros. -/
theorem addBytes_eq (steps : List (ℕ × (Jenkins → UInt32 → Jenkins)))
    (hzero : ∀ step ∈ steps, ∀ s, step.2 s 0 = s) :
    addBytes m k (steps.filter (·.1 < n)) s =
      some (steps.foldl (fun s step => step.2 s (word ((bytes.drop step.1).take 1))) s) := by
  induction steps generalizing s with
  | nil => rfl
  | cons step steps ih =>
      have hrest := fun s => ih (s := s) fun step hmem => hzero step (List.mem_cons_of_mem _ hmem)
      by_cases hinside : step.1 < n
      · rw [List.filter_cons_of_pos (by simpa using hinside), addBytes, List.foldlM_cons,
          k8_eq hread hinside]
        exact hrest _
      · have hnil : bytes.drop step.1 = [] :=
          List.drop_eq_nil_of_le (length_readBytes hread ▸ Nat.not_lt.mp hinside)
        rw [List.filter_cons_of_neg (by simpa using hinside), hrest, List.foldl_cons, hnil,
          List.take_nil, word_nil, hzero step List.mem_cons_self]

omit hread in
theorem byteSteps_zero : ∀ step ∈ byteSteps, ∀ s, step.2 s 0 = s := by
  intro step hmem s
  simp only [byteSteps, List.mem_cons, List.not_mem_nil, or_false] at hmem
  rcases hmem with rfl | rfl | rfl | rfl | rfl | rfl | rfl | rfl | rfl | rfl | rfl | rfl <;>
    simp [addA, addB, addC]

omit hread in
theorem wordAt_bytes (i : ℕ) :
    wordAt bytes i = word ((bytes.drop (4 * i)).take 1) +
      word ((bytes.drop (4 * i + 1)).take 1) <<< 8 +
      word ((bytes.drop (4 * i + 2)).take 1) <<< 16 +
      word ((bytes.drop (4 * i + 3)).take 1) <<< 24 := by
  rw [wordAt, word_bytes, List.drop_drop, List.drop_drop, List.drop_drop]

theorem block8_eq (hle : 12 ≤ n) : block8 m k s = some (absorb bytes s) := by
  have hall : byteSteps.filter (·.1 < n) = byteSteps := by
    apply List.filter_eq_self.mpr
    intro step hmem
    have hlt : ∀ step ∈ byteSteps, step.1 < 12 := by simp [byteSteps]
    exact decide_eq_true ((hlt step hmem).trans_le hle)
  rw [block8, ← hall, addBytes_eq hread byteSteps byteSteps_zero]
  simp [byteSteps, addA, addB, addC, absorb, wordAt_bytes, UInt32.add_assoc]

theorem last8_eq : last8 m k n s = some (absorb bytes s) := by
  rw [last8, addBytes_eq hread byteSteps.reverse fun step hmem =>
    byteSteps_zero step (List.mem_reverse.mp hmem), List.foldl_reverse]
  have hsum : ∀ x w₀ w₁ w₂ w₃ : UInt32, x + w₃ + w₂ + w₁ + w₀ = x + (w₀ + w₁ + w₂ + w₃) := by
    intros
    ac_rfl
  simp only [byteSteps, List.foldr_cons, List.foldr_nil, addA, addB, addC, absorb, wordAt_bytes, hsum,
    UInt32.shiftLeft_zero]

theorem block32_eq (hle : 12 ≤ n) : block32 m k s = some (absorb bytes s) :=
  add_eq (k32_eq hread (by omega)) (k32_eq hread (by omega)) (k32_eq hread (by omega))

theorem block16_eq (hle : 12 ≤ n) : block16 m k s = some (absorb bytes s) :=
  add_eq (k16Pair_eq (i := 0) hread (by omega)) (k16Pair_eq (i := 1) hread (by omega))
    (k16Pair_eq (i := 2) hread (by omega))

end

/-- The loop, for addresses of one kind, with what a block does. -/
theorem jenkinsLoop_eq {block : Bytes → ℕ → Jenkins → Option Jenkins}
    {last : Bytes → ℕ → ℕ → Jenkins → Option Jenkins} (Aligned : ℕ → Prop)
    (hnext : ∀ k, Aligned k → Aligned (k + 12))
    (hblock : ∀ k n bytes s, Aligned k → readBytes m k n = some bytes → 12 ≤ n →
      block m k s = some (absorb bytes s))
    (hlast : ∀ k n bytes s, Aligned k → readBytes m k n = some bytes → n ≠ 0 → n ≤ 12 →
      last m k n s = some (absorb bytes s))
    (haligned : Aligned k) (hread : readBytes m k n = some bytes) :
    jenkinsLoop block last m k n s = some (after bytes s) := by
  induction n using Nat.strong_induction_on generalizing k bytes s with
  | _ n ih =>
      have hlength := length_readBytes hread
      rw [jenkinsLoop, after, hlength]
      by_cases hlong : 12 < n
      · have htail : readBytes m (k + 12) (n - 12) = some (bytes.drop 12) :=
          (readBytes_split (by rwa [Nat.add_sub_of_le hlong.le])).2
        rw [if_pos hlong, if_pos hlong, hblock k n bytes s haligned hread hlong.le, Option.bind_some]
        exact ih (n - 12) (by omega) (hnext k haligned) htail
      · rw [if_neg hlong, if_neg hlong]
        by_cases hzero : n = 0
        · have hnil : bytes = [] := List.length_eq_zero_iff.mp (hlength.trans hzero)
          rw [if_pos hzero, if_pos hnil]
        · have hcons : bytes ≠ [] := fun hnil => hzero (by rw [← hlength, hnil, List.length_nil])
          rw [if_neg hzero, if_neg hcons, hlast k n bytes s haligned hread hzero (by omega),
            Option.map_some]

theorem jenkinsState_eq (hwords : MappedByWords m) (hread : readBytes m k n = some bytes) :
    jenkinsState m k n = some (after bytes (jenkinsInit n)) := by
  rw [jenkinsState]
  split_ifs with hfour htwo
  · exact jenkinsLoop_eq (· % 4 = 0) (fun k hk => by omega)
      (fun k n bytes s _ hread hle => block32_eq hread hle)
      (fun k n bytes s hk hread hpos hle => last32_eq hread hk hwords hpos hle) hfour hread
  · exact jenkinsLoop_eq (fun _ => True) (fun _ _ => trivial)
      (fun k n bytes s _ hread hle => block16_eq hread hle)
      (fun k n bytes s _ hread hpos hle => last16_eq hread hpos hle) trivial hread
  · exact jenkinsLoop_eq (fun _ => True) (fun _ _ => trivial)
      (fun k n bytes s _ hread hle => block8_eq hread hle)
      (fun k n bytes s _ hread _ _ => last8_eq hread) trivial hread

end Jenkins

open Jenkins

/-- Wherever a key lies, its hash is one function of its bytes, and no read of
`jenkins_hash` is of an address that is not mapped. -/
theorem jenkins_hash_of_bytes (m : Bytes) (hwords : MappedByWords m) (key : ℕ) (bytes : List UInt8)
    (hread : readBytes m key bytes.length = some bytes) :
    jenkinsHash m key bytes.length = some (hashOf bytes) := by
  rw [jenkinsHash, jenkinsState_eq hwords hread, Option.map_some, hashOf]

/-- A key of three bytes at the end of what is mapped, of which a whole word is read. -/
theorem jenkins_hash_of_bytes_word :
    jenkinsHash (fun p => if p < 8 then some (UInt8.ofNat p) else none) 4 3 =
      some (hashOf [4, 5, 6]) :=
  jenkins_hash_of_bytes _ (fun p q hpq hp => by simp at hp ⊢; omega) 4 [4, 5, 6] rfl

end ArmsTiering
