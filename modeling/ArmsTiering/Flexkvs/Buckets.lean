import ArmsTiering.Core.LinkedList
import ArmsTiering.Flexkvs.Hashtable
import Mathlib.Data.Finset.Card
import Mathlib.Data.Finset.Range
import Mathlib.Data.List.Nodup

/-!
# The items of the table

What holds of the slots and of the chain of every bucket, and what a search for a
key finds there.
-/

namespace ArmsTiering.Flexkvs

variable {m m' : Memory} {extent : ℕ → ℕ} {b : HashBucket} {chain : List ℕ} {p : ℕ}

/-- The item is in a slot of the bucket or in its chain. -/
def HashBucket.Holds (b : HashBucket) (chain : List ℕ) (p : ℕ) : Prop :=
  (p ≠ 0 ∧ ∃ i, b.items i = p) ∨ p ∈ chain

theorem HashBucket.holds_slot {i : Fin bucketNitems} (hi : b.items i ≠ 0) :
    b.Holds chain (b.items i) :=
  .inl ⟨hi, i, rfl⟩

/-- The bucket with index `j`, for keys with the given hashes. -/
structure BucketInv (hash : List UInt8 → UInt32) (m : Memory) (extent : ℕ → ℕ) (b : HashBucket)
    (j : ℕ) (chain : List ℕ) : Prop where
  linked : b.items lastSlot ≠ 0 → IsChain (itemNext m) 0 (itemNext m (b.items lastSlot)) chain
  full : chain ≠ [] → ∀ i, b.items i ≠ 0
  live : ∀ p, b.Holds chain p → extent p ≠ 0
  hv : ∀ p, b.Holds chain p → (contentAt m p).hv = (hash (contentAt m p).key).toNat
  index : ∀ p, b.Holds chain p → (contentAt m p).hv % nbuckets = j
  hashes : ∀ i, b.items i ≠ 0 → b.hashes i = (contentAt m (b.items i)).hv
  slots : ∀ i k, b.items i ≠ 0 →
    (contentAt m (b.items i)).key = (contentAt m (b.items k)).key → b.items k ≠ 0 → i = k
  apart : ∀ i, b.items i ≠ 0 → ∀ q ∈ chain, (contentAt m (b.items i)).key ≠ (contentAt m q).key
  keys : (chain.map fun q => (contentAt m q).key).Nodup

/-! ## Comparing keys -/

theorem itemKeyMatches_iff {it : ℕ} {key : List UInt8} :
    itemKeyMatches m it key = true ↔ (contentAt m it).key = key := by
  rw [itemKeyMatches, decide_eq_true_iff]
  constructor
  · rintro ⟨hlength, hread⟩
    rw [contentAt, ← hlength]
    exact hread
  · rintro rfl
    have hlength : (contentAt m it).key.length = itemKeylen m it := Memory.length_read _ _ _
    refine ⟨hlength, ?_⟩
    rw [hlength]
    rfl

theorem itemHkeyMatches_iff {it : ℕ} {key : List UInt8} {hv : ℕ} :
    itemHkeyMatches m it key hv = true ↔
      (contentAt m it).hv = hv ∧ (contentAt m it).key = key := by
  rw [itemHkeyMatches, decide_eq_true_iff, itemKeyMatches_iff]
  rfl

/-- The walk stops at the first item with the key, or at the end. -/
theorem findChain_cases {key : List UInt8} {hv fuel it : ℕ} (prev : ℕ)
    (hchain : IsChain (itemNext m) 0 it chain) (hfuel : chain.length < fuel) :
    (∃ before found after, chain = before ++ found :: after ∧
        itemHkeyMatches m found key hv = true ∧
        findChain m key hv fuel prev it = some (before.getLastD prev, found)) ∨
      ((∀ q ∈ chain, itemHkeyMatches m q key hv = false) ∧
        findChain m key hv fuel prev it = some (chain.getLastD prev, 0)) := by
  induction chain generalizing fuel prev it with
  | nil =>
      obtain ⟨fuel, rfl⟩ := Nat.exists_eq_succ_of_ne_zero (Nat.ne_of_gt hfuel)
      refine .inr ⟨fun q hq => absurd hq List.not_mem_nil, ?_⟩
      rw [findChain, if_neg fun hcond => hcond.1 hchain]
      exact congrArg (fun last => some (prev, last)) hchain
  | cons first rest ih =>
      obtain ⟨fuel, rfl⟩ := Nat.exists_eq_succ_of_ne_zero (Nat.ne_zero_of_lt hfuel)
      obtain ⟨rfl, hne, hrest⟩ := hchain
      by_cases hmatch : itemHkeyMatches m it key hv = true
      · refine .inl ⟨[], it, rest, rfl, hmatch, ?_⟩
        rw [findChain, if_neg fun hcond => by simp [hmatch] at hcond]
        rfl
      · rw [Bool.not_eq_true] at hmatch
        rw [findChain, if_pos ⟨hne, hmatch⟩]
        rcases ih it hrest (Nat.lt_of_succ_lt_succ hfuel) with
          ⟨before, found, after, hsplit, hfound, hwalk⟩ | ⟨hnone, hwalk⟩
        · refine .inl ⟨it :: before, found, after, by rw [hsplit]; rfl, hfound, ?_⟩
          rw [List.getLastD_cons]
          exact hwalk
        · refine .inr ⟨fun q hq => ?_, by rw [List.getLastD_cons]; exact hwalk⟩
          rcases List.mem_cons.mp hq with rfl | hq
          · exact hmatch
          · exact hnone q hq

/-- The walk depends on the links and the contents of the chain only. -/
theorem findChain_congr {key : List UInt8} {hv fuel prev it : ℕ}
    (hchain : IsChain (itemNext m) 0 it chain) (hnext : ∀ q ∈ chain, itemNext m' q = itemNext m q)
    (hcontent : ∀ q ∈ chain, contentAt m' q = contentAt m q) :
    findChain m' key hv fuel prev it = findChain m key hv fuel prev it := by
  induction fuel generalizing prev it chain with
  | zero => rfl
  | succ fuel ih =>
      cases chain with
      | nil =>
          have hstart : ¬it ≠ 0 := not_not.mpr hchain
          rw [findChain, findChain, if_neg fun hcond => hstart hcond.1,
            if_neg fun hcond => hstart hcond.1]
      | cons first rest =>
          obtain ⟨rfl, hne, hrest⟩ := hchain
          have hmatch : itemHkeyMatches m' it key hv = itemHkeyMatches m it key hv := by
            rw [Bool.eq_iff_iff, itemHkeyMatches_iff, itemHkeyMatches_iff,
              hcontent it List.mem_cons_self]
          rw [findChain, findChain, hmatch, hnext it List.mem_cons_self,
            ih hrest (fun q hq => hnext q (List.mem_cons_of_mem _ hq))
              (fun q hq => hcontent q (List.mem_cons_of_mem _ hq))]

namespace BucketInv

variable {hash : List UInt8 → UInt32} {j : ℕ}

/-- Only the links, the keys and the hashes of the items of the bucket matter. -/
theorem congr_keys (hinv : BucketInv hash m extent b j chain)
    (hnext : ∀ p, b.Holds chain p → itemNext m' p = itemNext m p)
    (hkeys : ∀ p, b.Holds chain p → (contentAt m' p).hv = (contentAt m p).hv ∧
      (contentAt m' p).key = (contentAt m p).key) :
    BucketInv hash m' extent b j chain := by
  have hslot : ∀ i, b.items i ≠ 0 → (contentAt m' (b.items i)).hv = (contentAt m (b.items i)).hv ∧
      (contentAt m' (b.items i)).key = (contentAt m (b.items i)).key :=
    fun i hi => hkeys _ (HashBucket.holds_slot hi)
  have hchained : ∀ q ∈ chain, (contentAt m' q).key = (contentAt m q).key :=
    fun q hq => (hkeys q (.inr hq)).2
  refine ⟨fun hlast => ?_, hinv.full, hinv.live, fun p hp => ?_, fun p hp => ?_, fun i hi => ?_,
    fun i k hi hkey hk => ?_, fun i hi q hq => ?_, ?_⟩
  · rw [hnext _ (HashBucket.holds_slot hlast)]
    exact (hinv.linked hlast).congr fun q hq => hnext q (.inr hq)
  · rw [(hkeys p hp).1, (hkeys p hp).2]
    exact hinv.hv p hp
  · rw [(hkeys p hp).1]
    exact hinv.index p hp
  · rw [(hslot i hi).1]
    exact hinv.hashes i hi
  · rw [(hslot i hi).2, (hslot k hk).2] at hkey
    exact hinv.slots i k hi hkey hk
  · rw [(hslot i hi).2, hchained q hq]
    exact hinv.apart i hi q hq
  · rw [List.map_congr_left hchained]
    exact hinv.keys

theorem congr (hinv : BucketInv hash m extent b j chain)
    (hnext : ∀ p, b.Holds chain p → itemNext m' p = itemNext m p)
    (hcontent : ∀ p, b.Holds chain p → contentAt m' p = contentAt m p) :
    BucketInv hash m' extent b j chain :=
  hinv.congr_keys hnext fun p hp => by rw [hcontent p hp]; exact ⟨rfl, rfl⟩

theorem empty (hash : List UInt8 → UInt32) (m : Memory) (extent : ℕ → ℕ) (j : ℕ) :
    BucketInv hash m extent .empty j [] := by
  have hnone : ∀ p, ¬HashBucket.empty.Holds [] p := by
    rintro p (⟨hp, i, hi⟩ | hp)
    · exact hp hi.symm
    · cases hp
  exact ⟨fun hlast => absurd rfl hlast, fun hne => absurd rfl hne,
    fun p hp => absurd hp (hnone p), fun p hp => absurd hp (hnone p),
    fun p hp => absurd hp (hnone p), fun i hi => absurd rfl hi, fun i k hi => absurd rfl hi,
    fun i hi => absurd rfl hi, List.nodup_nil⟩

theorem chain_nodup (hinv : BucketInv hash m extent b j chain) : chain.Nodup :=
  hinv.keys.of_map _

/-- An item of the bucket is in one slot or at one place of the chain. -/
theorem slot_not_mem (hinv : BucketInv hash m extent b j chain) {i : Fin bucketNitems}
    (hi : b.items i ≠ 0) : b.items i ∉ chain :=
  fun hmem => hinv.apart i hi _ hmem rfl

/-- No key is stored twice. -/
theorem eq_of_key (hinv : BucketInv hash m extent b j chain) {p q : ℕ} (hp : b.Holds chain p)
    (hq : b.Holds chain q) (hkey : (contentAt m p).key = (contentAt m q).key) : p = q := by
  rcases hp with ⟨hp, i, rfl⟩ | hp
  · rcases hq with ⟨hq, k, rfl⟩ | hq
    · rw [hinv.slots i k hp hkey hq]
    · exact absurd hkey (hinv.apart i hp q hq)
  · rcases hq with ⟨hq, k, rfl⟩ | hq
    · exact absurd hkey.symm (hinv.apart k hq p hp)
    · exact List.inj_on_of_nodup_map hinv.keys hp hq hkey

/-- A chain is shorter than the address space. -/
theorem chain_length_lt (hinv : BucketInv hash m extent b j chain) (hlaid : Laid m extent) :
    chain.length < 2 ^ 64 := by
  have hbelow : ∀ q ∈ chain, q < 2 ^ 64 ∧ q ≠ 0 := fun q hq =>
    ⟨hlaid.lt (hinv.live q (.inr hq)), hlaid.ne_zero (hinv.live q (.inr hq))⟩
  have hsub : (0 :: chain).toFinset ⊆ Finset.range (2 ^ 64) := by
    intro q hq
    rcases List.mem_cons.mp (List.mem_toFinset.mp hq) with rfl | hq
    · exact Finset.mem_range.mpr (Nat.two_pow_pos 64)
    · exact Finset.mem_range.mpr (hbelow q hq).1
  have hnodup : (0 :: chain).Nodup :=
    List.nodup_cons.mpr ⟨fun hzero => (hbelow 0 hzero).2 rfl, hinv.chain_nodup⟩
  have hcard := Finset.card_le_card hsub
  rw [List.toFinset_card_of_nodup hnodup, Finset.card_range, List.length_cons] at hcard
  exact hcard

/-! ## Searching a bucket -/

theorem findSlot_some {key : List UInt8} {hv : ℕ} {i : Fin bucketNitems}
    (hfind : findSlot m b key hv = some i) :
    b.items i ≠ 0 ∧ (contentAt m (b.items i)).key = key := by
  have hcond := List.find?_some hfind
  rw [decide_eq_true_iff] at hcond
  exact ⟨hcond.1, itemKeyMatches_iff.mp hcond.2.2⟩

theorem findSlot_none (hinv : BucketInv hash m extent b j chain) {key : List UInt8}
    (hfind : findSlot m b key (hash key).toNat = none) (i : Fin bucketNitems)
    (hi : b.items i ≠ 0) : (contentAt m (b.items i)).key ≠ key := by
  rintro rfl
  have hcond := List.find?_eq_none.mp hfind i (List.mem_finRange i)
  rw [decide_eq_true_iff] at hcond
  refine hcond ⟨hi, ?_, itemKeyMatches_iff.mpr rfl⟩
  rw [hinv.hashes i hi, hinv.hv _ (HashBucket.holds_slot hi)]

/-- What the search for a key finds in a bucket: the slot of the key, its place
in the chain, or that the key is not there. -/
inductive Found (m : Memory) (b : HashBucket) (chain : List ℕ) (key : List UInt8) (hv : ℕ) : Prop
  | slot (i : Fin bucketNitems) (hfind : findSlot m b key hv = some i) (hi : b.items i ≠ 0)
      (hkey : (contentAt m (b.items i)).key = key)
  | chained (before : List ℕ) (it : ℕ) (after : List ℕ) (hfind : findSlot m b key hv = none)
      (hlast : b.items lastSlot ≠ 0) (hchain : chain = before ++ it :: after)
      (hsearch : searchChain m b key hv = some (before.getLastD (b.items lastSlot), it))
      (hkey : (contentAt m it).key = key)
  | missing (hfind : findSlot m b key hv = none)
      (hsearch : b.items lastSlot ≠ 0 → ∃ prev, searchChain m b key hv = some (prev, 0))
      (hnone : ∀ p, b.Holds chain p → (contentAt m p).key ≠ key)

theorem found (hinv : BucketInv hash m extent b j chain) (hlaid : Laid m extent)
    (key : List UInt8) : Found m b chain key (hash key).toNat := by
  cases hfind : findSlot m b key (hash key).toNat with
  | some i =>
      obtain ⟨hi, hkey⟩ := findSlot_some hfind
      exact .slot i hfind hi hkey
  | none =>
      have hslots := hinv.findSlot_none hfind
      by_cases hlast : b.items lastSlot = 0
      · refine .missing hfind (fun hne => absurd hlast hne) ?_
        rintro p (⟨hp, i, rfl⟩ | hp)
        · exact hslots i hp
        · exact absurd hlast (hinv.full (List.ne_nil_of_mem hp) lastSlot)
      · rcases findChain_cases (b.items lastSlot) (hinv.linked hlast) (hinv.chain_length_lt hlaid)
          with ⟨before, it, after, hchain, hmatch, hsearch⟩ | ⟨hnone, hsearch⟩
        · exact .chained before it after hfind hlast hchain hsearch
            (itemHkeyMatches_iff.mp hmatch).2
        · refine .missing hfind (fun _ => ⟨_, hsearch⟩) ?_
          rintro p (⟨hp, i, rfl⟩ | hp) hkey
          · exact hslots i hp hkey
          · have hmatch := hnone p hp
            rw [← Bool.not_eq_true, itemHkeyMatches_iff] at hmatch
            exact hmatch ⟨by rw [hinv.hv p (.inr hp), hkey], hkey⟩

theorem searchChain_congr (hinv : BucketInv hash m extent b j chain)
    (hlast : b.items lastSlot ≠ 0) (hnext : ∀ p, b.Holds chain p → itemNext m' p = itemNext m p)
    (hcontent : ∀ p, b.Holds chain p → contentAt m' p = contentAt m p) (key : List UInt8)
    (hv : ℕ) : searchChain m' b key hv = searchChain m b key hv := by
  rw [searchChain, searchChain, hnext _ (HashBucket.holds_slot hlast)]
  exact findChain_congr (hinv.linked hlast) (fun q hq => hnext q (.inr hq))
    fun q hq => hcontent q (.inr hq)

/-! ## Changing a bucket -/

/-- An item that is not yet in the bucket but has its key hashed there. -/
structure Fits (hash : List UInt8 → UInt32) (m : Memory) (extent : ℕ → ℕ) (b : HashBucket)
    (j : ℕ) (chain : List ℕ) (nit : ℕ) : Prop where
  live : extent nit ≠ 0
  ne_zero : nit ≠ 0
  hv : (contentAt m nit).hv = (hash (contentAt m nit).key).toNat
  index : (contentAt m nit).hv % nbuckets = j
  absent : ¬b.Holds chain nit

/-- Contents stay, and links except those of the two items. -/
structure Relinked (m m' : Memory) (extent : ℕ → ℕ) (nit prev : ℕ) : Prop where
  contents : ∀ p, extent p ≠ 0 → contentAt m' p = contentAt m p
  next : ∀ p, extent p ≠ 0 → p ≠ nit → p ≠ prev → itemNext m' p = itemNext m p

variable {nit prev : ℕ}

theorem holds_replaceSlot {i : Fin bucketNitems} (hinv : BucketInv hash m extent b j chain)
    (hfits : Fits hash m extent b j chain nit) (hi : b.items i ≠ 0) (p : ℕ) :
    HashBucket.Holds { b with items := Function.update b.items i nit } chain p ↔
      p = nit ∨ b.Holds chain p ∧ p ≠ b.items i := by
  constructor
  · rintro (⟨hp, k, rfl⟩ | hp)
    · rcases eq_or_ne k i with rfl | hk
      · exact .inl (Function.update_self ..)
      · have hold : Function.update b.items i nit k = b.items k := Function.update_of_ne hk ..
        dsimp only at hp ⊢
        rw [hold] at hp ⊢
        refine .inr ⟨HashBucket.holds_slot hp, fun hsame => hk ?_⟩
        exact hinv.slots k i hp (by rw [hsame]) hi
    · refine .inr ⟨.inr hp, ?_⟩
      rintro rfl
      exact hinv.slot_not_mem hi hp
  · rintro (rfl | ⟨⟨hp, k, rfl⟩ | hp, hne⟩)
    · exact .inl ⟨hfits.ne_zero, i, Function.update_self ..⟩
    · refine .inl ⟨hp, k, Function.update_of_ne ?_ ..⟩
      rintro rfl
      exact hne rfl
    · exact .inr hp

/-- The item of a slot is replaced by one with its key and its link. -/
theorem replaceSlot {i : Fin bucketNitems} (hinv : BucketInv hash m extent b j chain)
    (hfits : Fits hash m extent b j chain nit) (hi : b.items i ≠ 0)
    (hkey : (contentAt m (b.items i)).key = (contentAt m nit).key)
    (hrelinked : Relinked m m' extent nit nit) (hnext : itemNext m' nit = itemNext m (b.items i)) :
    BucketInv hash m' extent { b with items := Function.update b.items i nit } j chain := by
  have hcontent : ∀ p, b.Holds chain p → contentAt m' p = contentAt m p :=
    fun p hp => hrelinked.contents p (hinv.live p hp)
  have hnit := hrelinked.contents nit hfits.live
  -- every slot keeps its key, and is empty exactly if it was
  have hslot : ∀ k, (Function.update b.items i nit k ≠ 0 ↔ b.items k ≠ 0) ∧
      (b.items k ≠ 0 → contentAt m' (Function.update b.items i nit k) =
        contentAt m (Function.update b.items i nit k) ∧
        (contentAt m (Function.update b.items i nit k)).key = (contentAt m (b.items k)).key) := by
    intro k
    rcases eq_or_ne k i with rfl | hk
    · rw [Function.update_self]
      exact ⟨⟨fun _ => hi, fun _ => hfits.ne_zero⟩, fun _ => ⟨hnit, hkey.symm⟩⟩
    · rw [Function.update_of_ne hk]
      exact ⟨Iff.rfl, fun hne => ⟨hcontent _ (HashBucket.holds_slot hne), rfl⟩⟩
  have hholds := holds_replaceSlot hinv hfits hi
  refine ⟨fun hlast => ?_, fun hne k => (hslot k).1.mpr (hinv.full hne k), fun p hp => ?_,
    fun p hp => ?_, fun p hp => ?_, fun k hk => ?_, fun k l hk hsame hl => ?_,
    fun k hk q hq => ?_, ?_⟩
  · have hold := (hslot lastSlot).1.mp hlast
    have hchain : IsChain (itemNext m') 0 (itemNext m (b.items lastSlot)) chain := by
      refine (hinv.linked hold).congr fun q hq => ?_
      have hne : q ≠ nit := by
        rintro rfl
        exact hfits.absent (.inr hq)
      exact hrelinked.next q (hinv.live q (.inr hq)) hne hne
    dsimp only
    rcases eq_or_ne lastSlot i with rfl | hne
    · rw [Function.update_self, hnext]
      exact hchain
    · have hother : b.items lastSlot ≠ nit := fun hsame =>
        hfits.absent (hsame ▸ HashBucket.holds_slot hold)
      rw [Function.update_of_ne hne, hrelinked.next _ (hinv.live _ (HashBucket.holds_slot hold))
        hother hother]
      exact hchain
  · rcases (hholds p).mp hp with rfl | ⟨hold, _⟩
    · exact hfits.live
    · exact hinv.live p hold
  · rcases (hholds p).mp hp with rfl | ⟨hold, _⟩
    · rw [hnit]
      exact hfits.hv
    · rw [hcontent p hold]
      exact hinv.hv p hold
  · rcases (hholds p).mp hp with rfl | ⟨hold, _⟩
    · rw [hnit]
      exact hfits.index
    · rw [hcontent p hold]
      exact hinv.index p hold
  · have hold := (hslot k).1.mp hk
    obtain ⟨hsame, hsameKey⟩ := (hslot k).2 hold
    dsimp only at hk ⊢
    rw [hinv.hashes k hold, hsame, hinv.hv _ (HashBucket.holds_slot hold)]
    rcases eq_or_ne k i with rfl | hne
    · rw [Function.update_self, hfits.hv, hkey]
    · rw [Function.update_of_ne hne, hinv.hv _ (HashBucket.holds_slot hold)]
  · have holdK := (hslot k).1.mp hk
    have holdL := (hslot l).1.mp hl
    dsimp only at hsame
    rw [((hslot k).2 holdK).1, ((hslot l).2 holdL).1, ((hslot k).2 holdK).2,
      ((hslot l).2 holdL).2] at hsame
    exact hinv.slots k l holdK hsame holdL
  · have hold := (hslot k).1.mp hk
    dsimp only
    rw [((hslot k).2 hold).1, ((hslot k).2 hold).2, hcontent q (.inr hq)]
    exact hinv.apart k hold q hq
  · rw [List.map_congr_left fun q hq => congrArg Content.key (hcontent q (.inr hq))]
    exact hinv.keys

theorem holds_replaceChain {before after : List ℕ} {it : ℕ}
    (hinv : BucketInv hash m extent b j (before ++ it :: after)) (nit p : ℕ) :
    b.Holds (before ++ nit :: after) p ↔
      p = nit ∨ b.Holds (before ++ it :: after) p ∧ p ≠ it := by
  have hnodup := hinv.chain_nodup
  rw [List.nodup_middle, List.nodup_cons] at hnodup
  have hmem : p ∈ before ++ nit :: after ↔ p = nit ∨ p ∈ before ++ after := by
    rw [List.mem_append, List.mem_cons, List.mem_append]
    tauto
  have hold : p ∈ before ++ it :: after ↔ p = it ∨ p ∈ before ++ after := by
    rw [List.mem_append, List.mem_cons, List.mem_append]
    tauto
  unfold HashBucket.Holds
  rw [hmem, hold]
  constructor
  · rintro (⟨hp, i, rfl⟩ | hp | hp)
    · refine .inr ⟨.inl ⟨hp, i, rfl⟩, ?_⟩
      rintro rfl
      exact hinv.slot_not_mem hp (List.mem_append_right _ List.mem_cons_self)
    · exact .inl hp
    · refine .inr ⟨.inr (.inr hp), ?_⟩
      rintro rfl
      exact hnodup.1 hp
  · rintro (rfl | ⟨hslot | rfl | hp, hne⟩)
    · exact .inr (.inl rfl)
    · exact .inl hslot
    · exact absurd rfl hne
    · exact .inr (.inr hp)

/-- An item of the chain is replaced by one with its key and its link. -/
theorem replaceChain {before after : List ℕ} {it : ℕ}
    (hinv : BucketInv hash m extent b j (before ++ it :: after))
    (hfits : Fits hash m extent b j (before ++ it :: after) nit) (hlast : b.items lastSlot ≠ 0)
    (hkey : (contentAt m it).key = (contentAt m nit).key)
    (hprev : prev = before.getLastD (b.items lastSlot))
    (hrelinked : Relinked m m' extent nit prev) (hnext : itemNext m' nit = itemNext m it)
    (hlink : itemNext m' prev = nit) :
    BucketInv hash m' extent b j (before ++ nit :: after) := by
  have hcontent : ∀ p, b.Holds (before ++ it :: after) p → contentAt m' p = contentAt m p :=
    fun p hp => hrelinked.contents p (hinv.live p hp)
  have hnit := hrelinked.contents nit hfits.live
  have hholds := holds_replaceChain hinv nit
  have hkeys : (before ++ nit :: after).map (fun q => (contentAt m' q).key) =
      (before ++ it :: after).map fun q => (contentAt m q).key := by
    have hbefore : before.map (fun q => (contentAt m' q).key) =
        before.map fun q => (contentAt m q).key :=
      List.map_congr_left fun q hq =>
        congrArg Content.key (hcontent q (.inr (List.mem_append_left _ hq)))
    have hafter : after.map (fun q => (contentAt m' q).key) =
        after.map fun q => (contentAt m q).key :=
      List.map_congr_left fun q hq =>
        congrArg Content.key (hcontent q (.inr (List.mem_append_right _ (List.mem_cons_of_mem _ hq))))
    rw [List.map_append, List.map_cons, List.map_append, List.map_cons, hbefore, hafter, hnit, hkey]
  refine ⟨fun _ => ?_, fun _ => hinv.full (by simp), fun p hp => ?_, fun p hp => ?_,
    fun p hp => ?_, fun i hi => ?_, fun i k hi hsame hk => ?_, fun i hi q hq => ?_, ?_⟩
  · -- the chain behind the last slot, with the slot as its first node
    have hwhole : IsChain (itemNext m) 0 (b.items lastSlot)
        (b.items lastSlot :: (before ++ it :: after)) := ⟨rfl, hlast, hinv.linked hlast⟩
    have hnodup : (b.items lastSlot :: (before ++ it :: after)).Nodup :=
      List.nodup_cons.mpr ⟨hinv.slot_not_mem hlast, hinv.chain_nodup⟩
    have hkeep : ∀ q ∈ b.items lastSlot :: (before ++ it :: after), q ≠ prev →
        itemNext m' q = itemNext m q := by
      intro q hq hne
      have hheld : b.Holds (before ++ it :: after) q := by
        rcases List.mem_cons.mp hq with rfl | hq
        · exact HashBucket.holds_slot hlast
        · exact .inr hq
      refine hrelinked.next q (hinv.live q hheld) ?_ hne
      rintro rfl
      exact hfits.absent hheld
    rw [hprev] at hlink hkeep
    exact (hwhole.replace_behind hnodup hfits.ne_zero hlink hnext hkeep).2.2
  · rcases (hholds p).mp hp with rfl | ⟨hold, _⟩
    · exact hfits.live
    · exact hinv.live p hold
  · rcases (hholds p).mp hp with rfl | ⟨hold, _⟩
    · rw [hnit]
      exact hfits.hv
    · rw [hcontent p hold]
      exact hinv.hv p hold
  · rcases (hholds p).mp hp with rfl | ⟨hold, _⟩
    · rw [hnit]
      exact hfits.index
    · rw [hcontent p hold]
      exact hinv.index p hold
  · rw [hcontent _ (HashBucket.holds_slot hi)]
    exact hinv.hashes i hi
  · rw [hcontent _ (HashBucket.holds_slot hi), hcontent _ (HashBucket.holds_slot hk)] at hsame
    exact hinv.slots i k hi hsame hk
  · -- the keys of the chain are those of the old one
    rw [hcontent _ (HashBucket.holds_slot hi)]
    intro hsame
    have hq' : (contentAt m' q).key ∈ (before ++ nit :: after).map fun q => (contentAt m' q).key :=
      List.mem_map_of_mem hq
    rw [hkeys, ← hsame] at hq'
    obtain ⟨old, hold, holdKey⟩ := List.mem_map.mp hq'
    exact hinv.apart i hi old hold holdKey.symm
  · rw [hkeys]
    exact hinv.keys

theorem freeSlot_cases (b : HashBucket) :
    b.items (freeSlot b) = 0 ∨ (freeSlot b = lastSlot ∧ ∀ i, b.items i ≠ 0) := by
  unfold freeSlot
  cases hfind : (List.finRange bucketNitems).reverse.find? fun i => b.items i = 0 with
  | some i =>
      have hcond := List.find?_some hfind
      exact .inl (of_decide_eq_true hcond)
  | none =>
      refine .inr ⟨rfl, fun i hi => ?_⟩
      have hcond := List.find?_eq_none.mp hfind i (List.mem_reverse.mpr (List.mem_finRange i))
      exact hcond (decide_eq_true hi)

/-- The chain after an item has been stuck in a slot. -/
def chainBehind (b : HashBucket) (chain : List ℕ) : List ℕ :=
  if b.items (freeSlot b) = 0 then chain else b.items (freeSlot b) :: chain

/-- The bucket after an item has been stuck in a slot. -/
def inserted (b : HashBucket) (nit hv : ℕ) : HashBucket :=
  ⟨Function.update b.items (freeSlot b) nit, Function.update b.hashes (freeSlot b) hv⟩

theorem inserted_self (b : HashBucket) (nit hv : ℕ) :
    (inserted b nit hv).items (freeSlot b) = nit ∧ (inserted b nit hv).hashes (freeSlot b) = hv :=
  ⟨Function.update_self .., Function.update_self ..⟩

theorem inserted_of_ne (b : HashBucket) (nit hv : ℕ) {k : Fin bucketNitems} (hk : k ≠ freeSlot b) :
    (inserted b nit hv).items k = b.items k ∧ (inserted b nit hv).hashes k = b.hashes k :=
  ⟨Function.update_of_ne hk .., Function.update_of_ne hk ..⟩

/-- Behind the new item are items that the bucket held before. -/
theorem holds_of_mem_chainBehind {q : ℕ} (hq : q ∈ chainBehind b chain) : b.Holds chain q := by
  unfold chainBehind at hq
  split at hq
  · exact .inr hq
  · rename_i hfull
    rcases List.mem_cons.mp hq with rfl | hq
    · exact HashBucket.holds_slot hfull
    · exact .inr hq

theorem holds_insertSlot (hfits : Fits hash m extent b j chain nit) (hv p : ℕ) :
    (inserted b nit hv).Holds (chainBehind b chain) p ↔ p = nit ∨ b.Holds chain p := by
  constructor
  · rintro (⟨hp, k, rfl⟩ | hp)
    · rcases eq_or_ne k (freeSlot b) with rfl | hk
      · exact .inl (inserted_self b nit hv).1
      · rw [(inserted_of_ne b nit hv hk).1] at hp ⊢
        exact .inr (HashBucket.holds_slot hp)
    · exact .inr (holds_of_mem_chainBehind hp)
  · unfold chainBehind
    rintro (rfl | ⟨hp, k, rfl⟩ | hp)
    · exact .inl ⟨hfits.ne_zero, freeSlot b, (inserted_self b p hv).1⟩
    · rcases eq_or_ne k (freeSlot b) with rfl | hk
      · rw [if_neg hp]
        exact .inr List.mem_cons_self
      · exact .inl ⟨hp, k, (inserted_of_ne b nit hv hk).1⟩
    · refine .inr ?_
      split
      · exact hp
      · exact List.mem_cons_of_mem _ hp

/-- A new item is stuck in a free slot, or in the last one before its chain. -/
theorem insertSlot (hinv : BucketInv hash m extent b j chain)
    (hfits : Fits hash m extent b j chain nit)
    (hnew : ∀ p, b.Holds chain p → (contentAt m p).key ≠ (contentAt m nit).key)
    (hrelinked : Relinked m m' extent nit nit)
    (hnext : itemNext m' nit = b.items (freeSlot b)) :
    BucketInv hash m' extent (inserted b nit (contentAt m nit).hv) j (chainBehind b chain) := by
  have hcontent : ∀ p, b.Holds chain p → contentAt m' p = contentAt m p :=
    fun p hp => hrelinked.contents p (hinv.live p hp)
  have hnit := hrelinked.contents nit hfits.live
  have hholds := holds_insertSlot hfits (contentAt m nit).hv
  have hlinks : ∀ p, b.Holds chain p → itemNext m' p = itemNext m p := by
    intro p hp
    have hne : p ≠ nit := by
      rintro rfl
      exact hfits.absent hp
    exact hrelinked.next p (hinv.live p hp) hne hne
  have hfree := freeSlot_cases b
  obtain ⟨hself, hself'⟩ := inserted_self b nit (contentAt m nit).hv
  have hslot := fun k hk => inserted_of_ne b nit (contentAt m nit).hv (k := k) hk
  have hbehind : ∀ q ∈ chainBehind b chain, b.Holds chain q :=
    fun _ => holds_of_mem_chainBehind
  refine ⟨fun hlast => ?_, fun hne k => ?_, fun p hp => ?_, fun p hp => ?_, fun p hp => ?_,
    fun k hk => ?_, fun k l hk hsame hl => ?_, fun k hk q hq => ?_, ?_⟩
  · unfold chainBehind
    split
    · rename_i hempty
      rcases eq_or_ne lastSlot (freeSlot b) with heq | hne
      · have hnil : chain = [] := by
          by_contra hne
          exact hinv.full hne _ hempty
        rw [heq, hself, hnext, hempty, hnil]
        rfl
      · rw [(hslot _ hne).1] at hlast ⊢
        rw [hlinks _ (HashBucket.holds_slot hlast)]
        exact (hinv.linked hlast).congr fun q hq => hlinks q (.inr hq)
    · rename_i hfull
      have heq := (hfree.resolve_left hfull).1
      rw [heq] at hself hnext hfull ⊢
      rw [hself, hnext]
      refine ⟨rfl, hfull, ?_⟩
      rw [hlinks _ (HashBucket.holds_slot hfull)]
      exact (hinv.linked hfull).congr fun q hq => hlinks q (.inr hq)
  · rcases eq_or_ne k (freeSlot b) with rfl | hk
    · rw [hself]
      exact hfits.ne_zero
    · rw [(hslot k hk).1]
      unfold chainBehind at hne
      split at hne
      · exact hinv.full hne k
      · rename_i hfull
        exact (hfree.resolve_left hfull).2 k
  · rcases (hholds p).mp hp with rfl | hold
    · exact hfits.live
    · exact hinv.live p hold
  · rcases (hholds p).mp hp with rfl | hold
    · rw [hnit]
      exact hfits.hv
    · rw [hcontent p hold]
      exact hinv.hv p hold
  · rcases (hholds p).mp hp with rfl | hold
    · rw [hnit]
      exact hfits.index
    · rw [hcontent p hold]
      exact hinv.index p hold
  · rcases eq_or_ne k (freeSlot b) with rfl | hne
    · rw [hself, hself', hnit]
    · rw [(hslot k hne).1] at hk
      rw [(hslot k hne).1, (hslot k hne).2, hcontent _ (HashBucket.holds_slot hk)]
      exact hinv.hashes k hk
  · rcases eq_or_ne k (freeSlot b) with rfl | hneK
    · rcases eq_or_ne l (freeSlot b) with rfl | hneL
      · rfl
      · rw [(hslot l hneL).1] at hl hsame
        rw [hself, hnit, hcontent _ (HashBucket.holds_slot hl)] at hsame
        exact absurd hsame.symm (hnew _ (HashBucket.holds_slot hl))
    · rw [(hslot k hneK).1] at hk hsame
      rw [hcontent _ (HashBucket.holds_slot hk)] at hsame
      rcases eq_or_ne l (freeSlot b) with rfl | hneL
      · rw [hself, hnit] at hsame
        exact absurd hsame (hnew _ (HashBucket.holds_slot hk))
      · rw [(hslot l hneL).1] at hl hsame
        rw [hcontent _ (HashBucket.holds_slot hl)] at hsame
        exact hinv.slots k l hk hsame hl
  · rw [hcontent q (hbehind q hq)]
    rcases eq_or_ne k (freeSlot b) with rfl | hne
    · rw [hself, hnit]
      exact fun hsame => hnew q (hbehind q hq) hsame.symm
    · rw [(hslot k hne).1] at hk ⊢
      rw [hcontent _ (HashBucket.holds_slot hk)]
      unfold chainBehind at hq
      split at hq
      · exact hinv.apart k hk q hq
      · rename_i hfull
        rcases List.mem_cons.mp hq with rfl | hq
        · exact fun hsame => hne (hinv.slots k _ hk hsame hfull)
        · exact hinv.apart k hk q hq
  · rw [List.map_congr_left fun q hq => congrArg Content.key (hcontent q (hbehind q hq))]
    unfold chainBehind
    split
    · exact hinv.keys
    · rename_i hfull
      rw [List.map_cons, List.nodup_cons]
      refine ⟨fun hmem => ?_, hinv.keys⟩
      obtain ⟨q, hq, hsame⟩ := List.mem_map.mp hmem
      exact hinv.apart _ hfull q hq hsame.symm

end BucketInv

end ArmsTiering.Flexkvs
