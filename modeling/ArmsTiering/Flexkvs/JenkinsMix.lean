import ArmsTiering.Flexkvs.JenkinsHash

/-!
# The mixing of the hash is reversible

No information about a key is lost before `jenkins_hash` returns one word of its state:
keys of one length that differ in a single block lead to different states.
-/

namespace ArmsTiering

open LittleEndian

namespace Jenkins

/-- The first line of `mix`, with its rotation; the other lines are this one with the
words in other places. -/
def mixLine (r : UInt32) (s : Jenkins) : Jenkins :=
  ⟨(s.a - s.c) ^^^ rot s.c r, s.b, s.c + s.b⟩

/-- The first line of `final`. -/
def finalLine (r : UInt32) (s : Jenkins) : Jenkins :=
  ⟨s.a, s.b, (s.c ^^^ s.b) - rot s.b r⟩

/-- The word that a line starts with becomes the last one. -/
def turn (s : Jenkins) : Jenkins := ⟨s.b, s.c, s.a⟩

theorem mixLine_injective (r : UInt32) : Function.Injective (mixLine r) := by
  rintro ⟨a, b, c⟩ ⟨a', b', c'⟩ heq
  obtain ⟨ha, rfl, hc⟩ := Jenkins.mk.inj heq
  obtain rfl : c = c' := (UInt32.add_left_inj b).mp hc
  obtain rfl : a = a' := (UInt32.sub_left_inj c).mp ((UInt32.xor_left_inj _).mp ha)
  rfl

theorem finalLine_injective (r : UInt32) : Function.Injective (finalLine r) := by
  rintro ⟨a, b, c⟩ ⟨a', b', c'⟩ heq
  obtain ⟨rfl, rfl, hc⟩ := Jenkins.mk.inj heq
  obtain rfl : c = c' := (UInt32.xor_left_inj b).mp ((UInt32.sub_left_inj _).mp hc)
  rfl

theorem turn_injective : Function.Injective turn := by
  rintro ⟨a, b, c⟩ ⟨a', b', c'⟩ heq
  obtain ⟨rfl, rfl, rfl⟩ := Jenkins.mk.inj heq
  rfl

/-- Every line of `mix` is the first one after a turn. -/
theorem mix_eq (s : Jenkins) :
    s.mix = (turn ∘ mixLine 4 ∘ turn ∘ mixLine 19 ∘ turn ∘ mixLine 16 ∘
      turn ∘ mixLine 8 ∘ turn ∘ mixLine 6 ∘ turn ∘ mixLine 4) s := rfl

theorem final_eq (s : Jenkins) :
    s.final = (finalLine 24 ∘ turn ∘ finalLine 14 ∘ turn ∘ finalLine 4 ∘ turn ∘ finalLine 16 ∘
      turn ∘ finalLine 25 ∘ turn ∘ finalLine 11 ∘ turn ∘ finalLine 14) s := rfl

theorem mix_injective : Function.Injective mix := by
  have hline : ∀ r, Function.Injective (turn ∘ mixLine r) := fun r =>
    turn_injective.comp (mixLine_injective r)
  rw [funext mix_eq]
  exact (hline 4).comp <| (hline 19).comp <| (hline 16).comp <| (hline 8).comp <|
    (hline 6).comp (hline 4)

theorem final_injective : Function.Injective final := by
  have hline : ∀ r, Function.Injective (turn ∘ finalLine r) := fun r =>
    turn_injective.comp (finalLine_injective r)
  rw [funext final_eq]
  exact (finalLine_injective 24).comp <| (hline 14).comp <| (hline 4).comp <| (hline 16).comp <|
    (hline 25).comp <| (hline 11).comp (hline 14)

variable {l l' : List UInt8} {s s' : Jenkins}

theorem absorb_injective (l : List UInt8) : Function.Injective (absorb l) := by
  rintro ⟨a, b, c⟩ ⟨a', b', c'⟩ heq
  obtain ⟨ha, hb, hc⟩ := Jenkins.mk.inj heq
  obtain rfl : a = a' := (UInt32.add_left_inj _).mp ha
  obtain rfl : b = b' := (UInt32.add_left_inj _).mp hb
  obtain rfl : c = c' := (UInt32.add_left_inj _).mp hc
  rfl

/-- The words of a block tell its bytes. -/
theorem take_eq_of_absorb (hlength : l.length = l'.length) (heq : absorb l s = absorb l' s) :
    l.take 12 = l'.take 12 := by
  obtain ⟨ha, hb, hc⟩ := Jenkins.mk.inj heq
  have hword : ∀ i, wordAt l i = wordAt l' i → (l.drop (4 * i)).take 4 = (l'.drop (4 * i)).take 4 :=
    fun i => word_injective (by simp [hlength]) (by simp)
  have hthree : ∀ bytes : List UInt8, bytes.take 12 = bytes.take 4 ++
      ((bytes.drop 4).take 4 ++ (bytes.drop 8).take 4) := fun bytes => by
    rw [← List.drop_drop (i := 4) (j := 4), ← List.take_add, ← List.take_add]
  have hzero := hword 0 ((UInt32.add_right_inj _).mp ha)
  rw [hthree l, hthree l', hword 1 ((UInt32.add_right_inj _).mp hb),
    hword 2 ((UInt32.add_right_inj _).mp hc)]
  exact congrArg (· ++ _) hzero

theorem after_long (hlong : 12 < l.length) : after l s = after (l.drop 12) (absorb l s).mix := by
  rw [after, if_pos hlong]

theorem after_nil : after [] s = s := by
  rw [after, if_neg (by decide), if_pos rfl]

theorem after_last (hlast : l.length ≤ 12) (hne : l ≠ []) : after l s = (absorb l s).final := by
  rw [after, if_neg hlast.not_gt, if_neg hne]

/-- For every key, the state at the end tells the one at the start. -/
theorem after_injective (l : List UInt8) : Function.Injective (after l) := by
  induction hn : l.length using Nat.strong_induction_on generalizing l with
  | _ n ih =>
      subst hn
      intro s s' heq
      rcases Nat.lt_or_ge 12 l.length with hlong | hlast
      · rw [after_long hlong, after_long hlong] at heq
        have hrest := ih _ (by rw [List.length_drop]; omega) (l.drop 12) rfl
        exact absorb_injective l (mix_injective (hrest heq))
      · rcases eq_or_ne l [] with rfl | hne
        · rwa [after_nil, after_nil] at heq
        · rw [after_last hlast hne, after_last hlast hne] at heq
          exact absorb_injective l (final_injective heq)

/-- Keys of one length that agree everywhere but in one block. -/
def AgreeOutside (block : ℕ) (l l' : List UInt8) : Prop :=
  l.length = l'.length ∧ ∀ i, i / 12 ≠ block → l[i]? = l'[i]?

theorem AgreeOutside.take {block : ℕ} (hagree : AgreeOutside (block + 1) l l') :
    l.take 12 = l'.take 12 := by
  apply List.ext_getElem?
  intro i
  rw [List.getElem?_take, List.getElem?_take]
  split_ifs with hi
  · exact hagree.2 i (by omega)
  · rfl

theorem AgreeOutside.drop {block : ℕ} (hagree : AgreeOutside (block + 1) l l') :
    AgreeOutside block (l.drop 12) (l'.drop 12) := by
  refine ⟨by rw [List.length_drop, List.length_drop, hagree.1], fun i hi => ?_⟩
  rw [List.getElem?_drop, List.getElem?_drop]
  exact hagree.2 _ (by omega)

theorem AgreeOutside.drop_first (hagree : AgreeOutside 0 l l') : l.drop 12 = l'.drop 12 := by
  apply List.ext_getElem?
  intro i
  rw [List.getElem?_drop, List.getElem?_drop]
  exact hagree.2 _ (by omega)

theorem absorb_congr (htake : l.take 12 = l'.take 12) : absorb l s = absorb l' s := by
  have hword : ∀ bytes : List UInt8, ∀ i < 3, wordAt bytes i = wordAt (bytes.take 12) i := by
    intro bytes i hi
    rw [wordAt, wordAt, List.drop_take, List.take_take, Nat.min_eq_left (by omega)]
  rw [absorb, absorb, hword l 0 (by decide), hword l 1 (by decide), hword l 2 (by decide), htake,
    ← hword l' 0 (by decide), ← hword l' 1 (by decide), ← hword l' 2 (by decide)]

theorem eq_of_halves (htake : l.take 12 = l'.take 12) (hdrop : l.drop 12 = l'.drop 12) : l = l' := by
  rw [← List.take_append_drop 12 l, htake, hdrop, List.take_append_drop]

theorem eq_of_after {block : ℕ} (hagree : AgreeOutside block l l') (heq : after l s = after l' s) :
    l = l' := by
  induction block generalizing l l' s with
  | zero =>
      have hrest := hagree.drop_first
      have hlength := hagree.1
      have hfront : absorb l s = absorb l' s := by
        rcases Nat.lt_or_ge 12 l.length with hlong | hlast
        · have hlong' : 12 < l'.length := hlength ▸ hlong
          rw [after_long hlong, after_long hlong', hrest] at heq
          exact mix_injective (after_injective _ heq)
        · have hlast' : l'.length ≤ 12 := hlength ▸ hlast
          rcases eq_or_ne l [] with rfl | hne
          · rw [List.length_eq_zero_iff.mp hlength.symm]
          · have hne' : l' ≠ [] := by
              rintro rfl
              exact hne (List.length_eq_zero_iff.mp hlength)
            rw [after_last hlast hne, after_last hlast' hne'] at heq
            exact final_injective heq
      exact eq_of_halves (take_eq_of_absorb hlength hfront) hrest
  | succ block ih =>
      have hfront := hagree.take
      rcases Nat.lt_or_ge 12 l.length with hlong | hlast
      · have hlong' : 12 < l'.length := hagree.1 ▸ hlong
        rw [after_long hlong, after_long hlong', absorb_congr hfront] at heq
        exact eq_of_halves hfront (ih hagree.drop heq)
      · have hlast' : l'.length ≤ 12 := hagree.1 ▸ hlast
        exact eq_of_halves hfront
          ((List.drop_eq_nil_of_le hlast).trans (List.drop_eq_nil_of_le hlast').symm)

end Jenkins

open Jenkins

/-- The state of `jenkins_hash` tells keys of one length apart that differ in a single
block of twelve bytes, wherever these lie. -/
theorem jenkins_mixing_reversible (m m' : Bytes) (hwords : MappedByWords m)
    (hwords' : MappedByWords m') (key key' length block : ℕ) (bytes bytes' : List UInt8)
    (hread : readBytes m key length = some bytes) (hread' : readBytes m' key' length = some bytes')
    (hagree : AgreeOutside block bytes bytes') :
    jenkinsState m key length = jenkinsState m' key' length ↔ bytes = bytes' := by
  rw [jenkinsState_eq hwords hread, jenkinsState_eq hwords' hread', Option.some.injEq]
  constructor
  · exact eq_of_after hagree
  · rintro rfl
    rfl

/-- Two keys of three bytes, at an aligned address and at an odd one. -/
theorem jenkins_mixing_reversible_word :
    jenkinsState (fun p => if p < 8 then some (UInt8.ofNat p) else none) 4 3 =
        jenkinsState (fun p => if p < 8 then some (UInt8.ofNat p) else none) 5 3 ↔
      ([4, 5, 6] : List UInt8) = [5, 6, 7] :=
  jenkins_mixing_reversible _ _ (fun p q hpq hp => by simp at hp ⊢; omega)
    (fun p q hpq hp => by simp at hp ⊢; omega) 4 5 3 0 [4, 5, 6] [5, 6, 7] rfl rfl
    ⟨rfl, fun i hi => by
      have hle : 3 ≤ i := by omega
      rw [List.getElem?_eq_none (by simpa using hle), List.getElem?_eq_none (by simpa using hle)]⟩

end ArmsTiering
