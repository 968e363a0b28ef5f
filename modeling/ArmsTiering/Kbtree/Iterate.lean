import ArmsTiering.Kbtree.Tree

/-!
# Iteration over a B-tree

The iterator is a stack of nodes, each with the index of the key to come.  What it has
still to visit can be read off the stack, and every call of `kb_itr_next` takes one key
from it.
-/

namespace ArmsTiering

open Interleaving KbNode

variable {K A : Type} {h : ℕ}

/-- `kbpos_t`; the node is missing where the pointer is null. -/
structure KbPos (K : Type) where
  x : Option (Σ h, KbNode K h)
  i : ℕ

/-- The frames of `kbitr_t` up to `itr->p`, that one first; there is none if `itr->p` is
below the stack. -/
abbrev KbStack (K : Type) := List (KbPos K)

/-- `KB_MAX_DEPTH` -/
def kbMaxDepth : ℕ := 64

/-- `++itr->p`, and the new frame; undefined behind the end of the array. -/
def kbItrPush (stack : KbStack K) (x : Option (Σ h, KbNode K h)) : Option (KbStack K) :=
  if stack.length < kbMaxDepth then some (⟨x, 0⟩ :: stack) else none

/-- The loop of `kb_itr_first` -/
def kbItrLeft : {h : ℕ} → KbNode K h → KbStack K → Option (KbStack K)
  | 0, x, stack => kbItrPush stack (some ⟨0, x⟩)
  | h + 1, x, stack =>
      (kbItrPush stack (some ⟨h + 1, x⟩)).bind fun stack =>
        x.ptrs[0]?.bind fun y => kbItrLeft y stack

/-- `kb_itr_first` -/
def kbItrFirst (b : KbTree K) : Option (KbStack K) :=
  if b.nKeys = 0 then some [] else kbItrLeft b.root []

/-- The inner loop of `kb_itr_next`, for the frame of `x` with index `i` on top. -/
def kbItrDown : {h : ℕ} → KbNode K h → ℕ → KbStack K → Option (KbStack K)
  | 0, x, i, stack => if i ≤ x.n then kbItrPush stack none else some stack
  | h + 1, x, i, stack =>
      if i ≤ x.n then
        x.ptrs[i]?.bind fun y => (kbItrPush stack (some ⟨h, y⟩)).bind fun stack => kbItrDown y 0 stack
      else some stack

/-- The frame on top, for the inner loop. -/
def kbItrEnter (stack : KbStack K) : Option (KbStack K) :=
  match stack with
  | ⟨some ⟨_, x⟩, i⟩ :: _ => kbItrDown x i stack
  | _ => some stack

/-- The iterator is at a key. -/
def kbItrAt : KbStack K → Bool
  | ⟨some ⟨_, x⟩, i⟩ :: _ => i < x.n
  | _ => false

/-- The outer loop of `kb_itr_next` -/
def kbItrLoop : ℕ → KbStack K → Option (KbStack K)
  | 0, _ => none
  | _, [] => some []
  | fuel + 1, pos :: stack =>
      (kbItrEnter (⟨pos.x, pos.i + 1⟩ :: stack)).bind fun stack =>
        let stack := stack.tail
        if stack = [] ∨ kbItrAt stack then some stack else kbItrLoop fuel stack

/-- `kb_itr_next` -/
def kbItrNext (stack : KbStack K) : Option (KbStack K) := kbItrLoop (stack.length + 1) stack

/-- `kb_itr_key` -/
def kbItrKey : KbStack K → Option K
  | ⟨some ⟨_, x⟩, i⟩ :: _ => x.keys[i]?
  | _ => none

/-- The loop over the iterator, with the key of every round. -/
def kbTraverse : ℕ → KbStack K → Option (List K)
  | _, [] => some []
  | 0, _ => none
  | fuel + 1, stack =>
      (kbItrKey stack).bind fun key => (kbItrNext stack).bind fun stack =>
        (kbTraverse fuel stack).map (key :: ·)

/-- `for (kb_itr_first(..); kb_itr_valid(..); kb_itr_next(..))`, with the keys in the order
of the rounds -/
def kbEntries (b : KbTree K) : Option (List K) := (kbItrFirst b).bind (kbTraverse b.nKeys)

/-- `kb_itr_first` and then `n` calls of `kb_itr_next` -/
def kbItrAdvance (b : KbTree K) : ℕ → Option (KbStack K)
  | 0 => kbItrFirst b
  | n + 1 => (kbItrAdvance b n).bind kbItrNext

/-! ## What is still to come -/

/-- The keys of a frame from its index on, with what is behind each. -/
def posRest : {h : ℕ} → KbNode K h → ℕ → List K
  | 0, x, i => x.keys.drop i
  | _ + 1, x, i => back (x.keys.drop i) (x.ptrs.drop (i + 1))

/-- The keys that the iterator has still to visit. -/
def itrRest : KbStack K → List K
  | [] => []
  | ⟨some ⟨_, x⟩, i⟩ :: stack => posRest x i ++ itrRest stack
  | ⟨none, _⟩ :: stack => itrRest stack

/-- The frames are those of sound nodes, one a level below a root of height `top`. -/
inductive StackOk (t top : ℕ) : KbStack K → Prop
  | nil : StackOk t top []
  | cons {h : ℕ} (x : KbNode K h) (i : ℕ) (stack : KbStack K) (hwf : x.Wf t 1) (hi : i ≤ x.n)
      (hdepth : h + stack.length ≤ top) (hrest : StackOk t top stack) :
      StackOk t top (⟨some ⟨h, x⟩, i⟩ :: stack)

variable {t top i fuel : ℕ} {x : KbNode K h} {stack : KbStack K} {y : Option (Σ h, KbNode K h)}

theorem kbItrPush_eq (hlt : stack.length < kbMaxDepth) :
    kbItrPush stack y = some (⟨y, 0⟩ :: stack) := if_pos hlt

theorem posRest_internal (keys : List K) (ptrs : List (KbNode K h)) (i : ℕ) :
    posRest (internal keys ptrs) i = back (keys.drop i) (ptrs.drop (i + 1)) := rfl

theorem posRest_end (x : KbNode K h) : posRest x x.n = [] := by
  cases h with
  | zero => exact List.drop_length
  | succ h =>
      rw [posRest, n, List.drop_length]
      rfl

theorem kbItrDown_of_lt (hlt : x.n < i) (stack : KbStack K) : kbItrDown x i stack = some stack := by
  cases h with
  | zero => exact if_neg (Nat.not_le_of_lt hlt)
  | succ h => exact if_neg (Nat.not_le_of_lt hlt)

/-- From a node that is entered, the iterator goes down to its first key. -/
theorem kbItrDown_eq (ht : 2 ≤ t) (htop : top + 1 < kbMaxDepth) (x : KbNode K h) (hwf : x.Wf t 1)
    (hdepth : h + stack.length ≤ top) (hok : StackOk t top stack) :
    ∃ left stack', kbItrDown x 0 (⟨some ⟨h, x⟩, 0⟩ :: stack) = some (left :: stack') ∧
      StackOk t top stack' ∧ itrRest stack' = x.toList ++ itrRest stack ∧ kbItrAt stack' = true := by
  have hok' : StackOk t top (⟨some ⟨h, x⟩, 0⟩ :: stack) := .cons x 0 stack hwf (Nat.zero_le _) hdepth hok
  induction h generalizing stack with
  | zero =>
      rw [kbItrDown, if_pos (Nat.zero_le _), kbItrPush_eq (by rw [List.length_cons]; omega)]
      exact ⟨_, _, rfl, hok', rfl, decide_eq_true hwf.le_n⟩
  | succ h ih =>
      obtain ⟨keys, ptrs, rfl⟩ := exists_internal x
      obtain ⟨_, _, hlength, hchildren⟩ := wf_internal.mp hwf
      obtain ⟨y, ptrs, rfl⟩ := List.exists_cons_of_length_eq_add_one hlength
      have hy := (hchildren y List.mem_cons_self)
      have hlow := hy.le_n
      rw [kbItrDown, if_pos (Nat.zero_le _), ptrs_internal, List.getElem?_cons_zero, Option.bind_some,
        kbItrPush_eq (by rw [List.length_cons]; omega), Option.bind_some]
      have hdepth' : h + (⟨some ⟨h + 1, internal keys (y :: ptrs)⟩, 0⟩ :: stack : KbStack K).length ≤
          top := by
        rw [List.length_cons]
        omega
      have hbelow := hy.mono (show 1 ≤ y.n by omega)
      obtain ⟨left, stack', hdown, hok'', hrest, hat⟩ :=
        ih y hbelow hdepth' hok' (.cons y 0 _ hbelow (Nat.zero_le _) hdepth' hok')
      refine ⟨left, stack', hdown, hok'', hrest.trans ?_, hat⟩
      rw [toList_internal, List.map_cons, interleave, List.append_assoc]
      rfl

/-- `kb_itr_first` goes down to the first key. -/
theorem kbItrLeft_eq (ht : 2 ≤ t) (htop : top + 1 < kbMaxDepth) (x : KbNode K h) (hwf : x.Wf t 1)
    (hdepth : h + stack.length ≤ top) (hok : StackOk t top stack) :
    ∃ stack', kbItrLeft x stack = some stack' ∧ StackOk t top stack' ∧
      itrRest stack' = x.toList ++ itrRest stack ∧ kbItrAt stack' = true := by
  have hok' : StackOk t top (⟨some ⟨h, x⟩, 0⟩ :: stack) := .cons x 0 stack hwf (Nat.zero_le _) hdepth hok
  induction h generalizing stack with
  | zero =>
      rw [kbItrLeft, kbItrPush_eq (by omega)]
      exact ⟨_, rfl, hok', rfl, decide_eq_true hwf.le_n⟩
  | succ h ih =>
      obtain ⟨keys, ptrs, rfl⟩ := exists_internal x
      obtain ⟨_, _, hlength, hchildren⟩ := wf_internal.mp hwf
      obtain ⟨y, ptrs, rfl⟩ := List.exists_cons_of_length_eq_add_one hlength
      have hy := (hchildren y List.mem_cons_self)
      have hlow := hy.le_n
      rw [kbItrLeft, kbItrPush_eq (by omega), Option.bind_some, ptrs_internal, List.getElem?_cons_zero,
        Option.bind_some]
      have hdepth' : h + (⟨some ⟨h + 1, internal keys (y :: ptrs)⟩, 0⟩ :: stack : KbStack K).length ≤
          top := by
        rw [List.length_cons]
        omega
      have hbelow := hy.mono (show 1 ≤ y.n by omega)
      obtain ⟨stack', hleft, hok'', hrest, hat⟩ :=
        ih y hbelow hdepth' hok' (.cons y 0 _ hbelow (Nat.zero_le _) hdepth' hok')
      refine ⟨stack', hleft, hok'', hrest.trans ?_, hat⟩
      rw [toList_internal, List.map_cons, interleave, List.append_assoc]
      rfl

section

variable {pos left : KbPos K} {next : KbStack K}

theorem kbItrLoop_done (henter : kbItrEnter (⟨pos.x, pos.i + 1⟩ :: stack) = some (left :: next))
    (hdone : next = [] ∨ kbItrAt next = true) (fuel : ℕ) :
    kbItrLoop (fuel + 1) (pos :: stack) = some next := by
  rw [kbItrLoop, henter, Option.bind_some]
  exact if_pos hdone

theorem kbItrLoop_more (henter : kbItrEnter (⟨pos.x, pos.i + 1⟩ :: stack) = some (left :: next))
    (hne : next ≠ []) (hnot : ¬kbItrAt next = true) (fuel : ℕ) :
    kbItrLoop (fuel + 1) (pos :: stack) = kbItrLoop fuel next := by
  rw [kbItrLoop, henter, Option.bind_some]
  exact if_neg (not_or.mpr ⟨hne, hnot⟩)

end

/-- Nodes whose keys are all visited are left, up to one with a key to come. -/
theorem kbItrLoop_pop (hok : StackOk t top stack) (x : KbNode K h) (hfuel : stack.length < fuel) :
    ∃ stack', kbItrLoop fuel (⟨some ⟨h, x⟩, x.n⟩ :: stack) = some stack' ∧ StackOk t top stack' ∧
      itrRest stack' = itrRest stack ∧ (stack' = [] ∨ kbItrAt stack' = true) := by
  obtain ⟨fuel, rfl⟩ := Nat.exists_eq_succ_of_ne_zero (Nat.ne_zero_of_lt hfuel)
  have henter : ∀ (h : ℕ) (x : KbNode K h) (stack : KbStack K),
      kbItrEnter (⟨some ⟨h, x⟩, x.n + 1⟩ :: stack) = some (⟨some ⟨h, x⟩, x.n + 1⟩ :: stack) :=
    fun h x stack => kbItrDown_of_lt (Nat.lt_succ_self _) _
  induction hok generalizing h fuel with
  | nil => exact ⟨[], kbItrLoop_done (henter h x []) (.inl rfl) fuel, .nil, rfl, .inl rfl⟩
  | @cons h' x' i stack hwf hi hdepth hrest ih =>
      have hstack : StackOk t top (⟨some ⟨h', x'⟩, i⟩ :: stack) := .cons x' i stack hwf hi hdepth hrest
      by_cases hat : kbItrAt (⟨some ⟨h', x'⟩, i⟩ :: stack) = true
      · exact ⟨_, kbItrLoop_done (henter h x _) (.inr hat) fuel, hstack, rfl, .inr hat⟩
      · have hend : i = x'.n := Nat.le_antisymm hi (Nat.not_lt.mp fun hlt => hat (decide_eq_true hlt))
        subst hend
        rw [List.length_cons] at hfuel
        obtain ⟨fuel, rfl⟩ := Nat.exists_eq_succ_of_ne_zero
          (Nat.ne_zero_of_lt (Nat.lt_of_succ_lt_succ hfuel))
        obtain ⟨stack', hloop, hok', heq, hdone⟩ := ih x' fuel (Nat.lt_of_succ_lt_succ hfuel)
        refine ⟨stack', (kbItrLoop_more (henter h x _) (List.cons_ne_nil _ _) hat _).trans hloop, hok',
          heq.trans ?_, hdone⟩
        rw [itrRest, posRest_end, List.nil_append]

/-- `kb_itr_next` takes the key of `kb_itr_key` from what is to come. -/
theorem kbItrNext_eq (ht : 2 ≤ t) (htop : top + 1 < kbMaxDepth) (hok : StackOk t top stack)
    (hat : kbItrAt stack = true) :
    ∃ key stack', kbItrKey stack = some key ∧ kbItrNext stack = some stack' ∧
      itrRest stack = key :: itrRest stack' ∧ StackOk t top stack' ∧
      (stack' = [] ∨ kbItrAt stack' = true) := by
  cases hok with
  | nil => cases hat
  | @cons h x i stack hwf hi hdepth hrest =>
      have hlt : i < x.keys.length := of_decide_eq_true hat
      have hle : i + 1 ≤ x.n := hlt
      have hkey : kbItrKey (⟨some ⟨h, x⟩, i⟩ :: stack) = some x.keys[i] :=
        List.getElem?_eq_getElem hlt
      rw [kbItrNext, List.length_cons]
      cases h with
      | zero =>
          have hok' : StackOk t top (⟨some ⟨0, x⟩, i + 1⟩ :: stack) :=
            .cons x (i + 1) stack hwf hlt hdepth hrest
          have henter : kbItrEnter (⟨some ⟨0, x⟩, i + 1⟩ :: stack) =
              some (⟨none, 0⟩ :: ⟨some ⟨0, x⟩, i + 1⟩ :: stack) := by
            rw [kbItrEnter, kbItrDown, if_pos hle, kbItrPush_eq (by rw [List.length_cons]; omega)]
          have hsplit : itrRest (⟨some ⟨0, x⟩, i⟩ :: stack) =
              x.keys[i] :: itrRest (⟨some ⟨0, x⟩, i + 1⟩ :: stack) := by
            rw [itrRest, itrRest, posRest, posRest, List.drop_eq_getElem_cons hlt]
            rfl
          by_cases hnext : kbItrAt (⟨some ⟨0, x⟩, i + 1⟩ :: stack) = true
          · exact ⟨_, _, hkey, kbItrLoop_done henter (.inr hnext) _, hsplit, hok', .inr hnext⟩
          · have hend : i + 1 = x.n :=
              Nat.le_antisymm hlt (Nat.not_lt.mp fun hmore => hnext (decide_eq_true hmore))
            obtain ⟨stack', hloop, hok'', heq, hdone⟩ :=
              kbItrLoop_pop hrest x (Nat.lt_succ_self stack.length)
            rw [← hend] at hloop
            refine ⟨_, stack', hkey, (kbItrLoop_more henter (List.cons_ne_nil _ _) hnext _).trans hloop,
              hsplit.trans ?_, hok'', hdone⟩
            rw [hend, heq, itrRest, posRest_end, List.nil_append]
      | succ h =>
          obtain ⟨keys, ptrs, rfl⟩ := exists_internal x
          simp only [keys_internal] at hlt hkey
          obtain ⟨_, _, hlength, hchildren⟩ := wf_internal.mp hwf
          have hptr : i + 1 < ptrs.length := by omega
          have hy := hchildren ptrs[i + 1] (List.getElem_mem hptr)
          have hlow := hy.le_n
          have hdepth' : h + (⟨some ⟨h + 1, internal keys ptrs⟩, i + 1⟩ :: stack : KbStack K).length ≤
              top := by
            rw [List.length_cons]
            omega
          obtain ⟨left, stack', hdown, hok', hrest', hnext⟩ := kbItrDown_eq ht htop ptrs[i + 1]
            (hy.mono (show 1 ≤ _ by omega)) hdepth' (.cons _ (i + 1) stack hwf hle hdepth hrest)
          have henter : kbItrEnter (⟨some ⟨h + 1, internal keys ptrs⟩, i + 1⟩ :: stack) =
              some (left :: stack') := by
            rw [kbItrEnter, kbItrDown, if_pos hle, ptrs_internal, List.getElem?_eq_getElem hptr,
              Option.bind_some, kbItrPush_eq (by rw [List.length_cons]; omega), Option.bind_some, hdown]
          refine ⟨_, _, hkey, kbItrLoop_done henter (.inr hnext) _, ?_, hok', .inr hnext⟩
          rw [hrest', itrRest, itrRest, posRest_internal, posRest_internal,
            List.drop_eq_getElem_cons hlt, List.drop_eq_getElem_cons hptr, back, List.map_cons,
            after_cons]
          simp [back]

theorem kbTraverse_cons (fuel : ℕ) (pos : KbPos K) (stack : KbStack K) :
    kbTraverse (fuel + 1) (pos :: stack) = (kbItrKey (pos :: stack)).bind fun key =>
      (kbItrNext (pos :: stack)).bind fun stack => (kbTraverse fuel stack).map (key :: ·) := rfl

/-- The loop over the iterator sees what is to come. -/
theorem kbTraverse_eq (ht : 2 ≤ t) (htop : top + 1 < kbMaxDepth) (hok : StackOk t top stack)
    (hat : stack = [] ∨ kbItrAt stack = true) (hfuel : (itrRest stack).length ≤ fuel) :
    kbTraverse fuel stack = some (itrRest stack) := by
  induction fuel generalizing stack with
  | zero =>
      rcases hat with rfl | hat
      · rfl
      · obtain ⟨key, stack', _, _, hrest, _⟩ := kbItrNext_eq ht htop hok hat
        rw [hrest] at hfuel
        cases hfuel
  | succ fuel ih =>
      rcases hat with rfl | hat
      · rfl
      · obtain ⟨key, stack', hkey, hnext, hrest, hok', hat'⟩ := kbItrNext_eq ht htop hok hat
        rw [hrest] at hfuel ⊢
        have hne : stack ≠ [] := by
          rintro rfl
          cases hat
        obtain ⟨pos, stack, rfl⟩ := List.exists_cons_of_ne_nil hne
        rw [kbTraverse_cons, hkey, Option.bind_some, hnext, Option.bind_some,
          ih hok' hat' (Nat.le_of_succ_le_succ hfuel), Option.map_some]

/-! ## The height -/

theorem length_after_le (c : ℕ) (keys : List K) (lists : List (List K))
    (hlength : lists.length = keys.length) (hlists : ∀ l ∈ lists, c ≤ l.length) :
    (c + 1) * keys.length ≤ (after keys lists).length := by
  induction keys generalizing lists with
  | nil => exact Nat.zero_le _
  | cons k keys ih =>
      obtain ⟨l, lists, rfl⟩ := List.exists_cons_of_length_eq_add_one hlength
      have hl := hlists l List.mem_cons_self
      have hrest := ih lists (Nat.succ.inj hlength) fun l hl => hlists l (List.mem_cons_of_mem _ hl)
      rw [after_cons, List.length_cons, List.length_cons, List.length_append, Nat.mul_succ]
      omega

/-- A tree of some height has many entries. -/
theorem two_pow_le (ht : 2 ≤ t) (x : KbNode K h) (hwf : x.Wf t 1) : 2 ^ (h + 1) ≤ x.toList.length + 1 := by
  induction h with
  | zero => exact Nat.succ_le_succ hwf.le_n
  | succ h ih =>
      obtain ⟨keys, ptrs, rfl⟩ := exists_internal x
      obtain ⟨hlow, _, hlength, hchildren⟩ := wf_internal.mp hwf
      have hlarge : ∀ y ∈ ptrs, 2 ^ (h + 1) - 1 ≤ y.toList.length := by
        intro y hy
        have hchild := hchildren y hy
        have hn := hchild.le_n
        exact Nat.sub_le_of_le_add (ih y (hchild.mono (by omega)))
      obtain ⟨y, ptrs, rfl⟩ := List.exists_cons_of_length_eq_add_one hlength
      have hfirst := hlarge y List.mem_cons_self
      have hrest := length_after_le (2 ^ (h + 1) - 1) keys (ptrs.map toList)
        (by rw [List.length_map]; exact Nat.succ.inj hlength) (by
          intro l hl
          obtain ⟨z, hz, rfl⟩ := List.mem_map.mp hl
          exact hlarge z (List.mem_cons_of_mem _ hz))
      have hpos := Nat.two_pow_pos (h + 1)
      have hkeys : 2 ^ (h + 1) - 1 + 1 ≤ (2 ^ (h + 1) - 1 + 1) * keys.length :=
        Nat.le_mul_of_pos_right _ hlow
      rw [toList_internal, List.map_cons, interleave, List.length_append, Nat.pow_succ]
      omega

section

variable [LinearOrder A] {va : K → A} {b : KbTree K}

/-- The stack of the iterator is high enough for as many entries as `n_keys` can count. -/
theorem KbTree.Wf.height_lt (hwf : b.Wf va) (hcount : b.nKeys < 2 ^ 31) :
    b.height + 1 < kbMaxDepth := by
  have hlow : b.height < 31 := by
    rcases Nat.eq_zero_or_pos b.height with hzero | hpos
    · omega
    · have hheight := two_pow_le hwf.two_le b.root
        (hwf.root.mono (Nat.le_trans (Nat.le_min.mpr ⟨hpos, Nat.le_refl 1⟩) hwf.root.le_n))
      have hsame : b.root.toList.length = b.nKeys := hwf.count.symm
      by_contra hge
      have hpow : 2 ^ 32 ≤ 2 ^ (b.height + 1) := Nat.pow_le_pow_right Nat.two_pos (by omega)
      omega
  unfold kbMaxDepth
  omega

/-- The first state of the iterator has all entries to come. -/
theorem KbTree.Wf.kbItrFirst (hwf : b.Wf va) (hcount : b.nKeys < 2 ^ 31) :
    ∃ stack, kbItrFirst b = some stack ∧ StackOk b.t b.height stack ∧ itrRest stack = b.toList ∧
      (stack = [] ∨ kbItrAt stack = true) := by
  unfold ArmsTiering.kbItrFirst
  by_cases hempty : b.nKeys = 0
  · rw [if_pos hempty]
    exact ⟨[], rfl, .nil, (List.length_eq_zero_iff.mp (hwf.count.symm.trans hempty)).symm, .inl rfl⟩
  · rw [if_neg hempty]
    have hne : b.toList ≠ [] := fun hnil => hempty (by rw [hwf.count, hnil, List.length_nil])
    obtain ⟨stack, hleft, hok, hrest, hat⟩ := kbItrLeft_eq hwf.two_le (hwf.height_lt hcount) b.root
      (hwf.root.mono (one_le_n hwf.root hne)) (Nat.le_refl _) .nil
    refine ⟨stack, hleft, hok, hrest.trans ?_, .inr hat⟩
    rw [itrRest, List.append_nil]
    rfl

/-- A loop over the iterator visits the entries in order. -/
theorem KbTree.Wf.kbEntries (hwf : b.Wf va) (hcount : b.nKeys < 2 ^ 31) :
    kbEntries b = some b.toList := by
  obtain ⟨stack, hfirst, hok, hrest, hat⟩ := hwf.kbItrFirst hcount
  have hfuel : (itrRest stack).length ≤ b.nKeys := by
    rw [hrest]
    exact Nat.le_of_eq hwf.count.symm
  unfold ArmsTiering.kbEntries
  rw [hfirst, Option.bind_some, kbTraverse_eq hwf.two_le (hwf.height_lt hcount) hok hat hfuel, hrest]

/-- After `n` steps the iterator has the entries behind the first `n` to come. -/
theorem KbTree.Wf.kbItrAdvance (hwf : b.Wf va) (hcount : b.nKeys < 2 ^ 31) (n : ℕ) :
    ∃ stack, kbItrAdvance b n = some stack ∧ StackOk b.t b.height stack ∧
      itrRest stack = b.toList.drop n ∧ (stack = [] ∨ kbItrAt stack = true) := by
  induction n with
  | zero => exact hwf.kbItrFirst hcount
  | succ n ih =>
      obtain ⟨stack, hadvance, hok, hrest, hat⟩ := ih
      rw [ArmsTiering.kbItrAdvance, hadvance, Option.bind_some]
      rcases hat with rfl | hat
      · refine ⟨[], rfl, .nil, ?_, .inl rfl⟩
        rw [← List.drop_drop, ← hrest]
        rfl
      · obtain ⟨key, stack', _, hnext, hsplit, hok', hat'⟩ :=
          kbItrNext_eq hwf.two_le (hwf.height_lt hcount) hok hat
        refine ⟨stack', hnext, hok', ?_, hat'⟩
        rw [← List.drop_drop, ← hrest, hsplit]
        rfl

/-- After `n` steps `kb_itr_key` is the entry number `n`, and the iterator is valid as
long as there is one. -/
theorem KbTree.Wf.kbItrKey (hwf : b.Wf va) (hcount : b.nKeys < 2 ^ 31) (n : ℕ) :
    ∃ stack, ArmsTiering.kbItrAdvance b n = some stack ∧ kbItrKey stack = b.toList[n]? ∧
      (stack ≠ [] ↔ n < b.nKeys) := by
  obtain ⟨stack, hadvance, hok, hrest, rfl | hat⟩ := hwf.kbItrAdvance hcount n
  · have hle : b.toList.length ≤ n := List.drop_eq_nil_iff.mp hrest.symm
    refine ⟨[], hadvance, (List.getElem?_eq_none hle).symm, ?_⟩
    have hcount' := hwf.count
    exact iff_of_false (fun hne => hne rfl) (by omega)
  · obtain ⟨key, stack', hkey, _, hsplit, _⟩ :=
      kbItrNext_eq hwf.two_le (hwf.height_lt hcount) hok hat
    have hget : b.toList[n]? = some key := by
      rw [← List.head?_drop, ← hrest, hsplit, List.head?_cons]
    refine ⟨stack, hadvance, hkey.trans hget.symm, iff_of_true ?_ ?_⟩
    · rintro rfl
      cases hat
    · rw [hwf.count]
      exact (List.getElem?_eq_some_iff.mp hget).1

end

end ArmsTiering
