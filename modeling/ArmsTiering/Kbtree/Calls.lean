import ArmsTiering.Core.Simulation
import ArmsTiering.Kbtree.Iterate
import ArmsTiering.Pebs.Smoothing
import Mathlib.Data.List.Sort

/-!
# The B-tree is a list in order

The answers of all calls are those of a list that is kept in the order of the
addresses.
-/

namespace ArmsTiering

open KbNode Transition Simulation

variable {K A : Type}

/-- The calls of a user; `entries` stands for a loop over the iterator. -/
inductive KbCall (K : Type)
  | put (k : K)
  | get (k : K)
  | del (k : K)
  | entries

/-- A call with its answer; `entries` also for `kb_size`. -/
inductive KbEvent (K : Type)
  | put (k : K)
  | get (k : K) (answer : Option K)
  | del (k : K)
  | entries (keys : List K) (size : ℕ)

section

variable [LinearOrder A] (va : K → A)

/-- A call on the tree.  An address is put once, and only what is there is deleted; the
entries are counted by an `int`. -/
def kbApply (b : KbTree K) : KbCall K → Option (KbTree K × KbEvent K)
  | .put k =>
      (kbGetp va k b.root 0).bind fun found =>
        if found.isNone ∧ b.nKeys + 1 < 2 ^ 31 then (kbPutp va b k).map fun b => (b, .put k)
        else none
  | .get k => (kbGetp va k b.root 0).map fun answer => (b, .get k answer)
  | .del k =>
      (kbGetp va k b.root 0).bind fun found =>
        if found.isSome then (kbDelp va b k).map fun (b, _) => (b, .del k) else none
  | .entries => (kbEntries b).map fun keys => (b, .entries keys b.nKeys)

/-- The same on a list in order. -/
def orderedStep [DecidableEq K] (l : List K) : KbEvent K → Option (List K)
  | .put k =>
      if (l.find? fun e => va e = va k).isNone then some (l.orderedInsert (va · ≤ va ·) k) else none
  | .get k answer => if answer = l.find? fun e => va e = va k then some l else none
  | .del k =>
      if (l.find? fun e => va e = va k).isSome then some (l.filter fun e => va e ≠ va k) else none
  | .entries keys size => if keys = l ∧ size = l.length then some l else none

def kbStep (b : KbTree K) (call : KbCall K) : Option (KbTree K) := (kbApply va b call).map Prod.fst

def kbObserve (b : KbTree K) (call : KbCall K) : Option (KbEvent K) :=
  (kbApply va b call).map Prod.snd

end

namespace KbTree

variable [LinearOrder A] {va : K → A} {b : KbTree K} {k : K} {l : List K}

theorem orderedInsert_eq (hinserted : Inserted va k b.toList l) :
    l = b.toList.orderedInsert (va · ≤ va ·) k := by
  obtain ⟨left, right, hsplit, rfl, hleft, hright⟩ := hinserted
  rw [hsplit]
  clear hsplit
  induction left with
  | nil =>
      cases right with
      | nil => rfl
      | cons e right => exact (if_pos (hright e List.mem_cons_self).le).symm
  | cons e left ih =>
      have hlt := hleft e List.mem_cons_self
      rw [List.cons_append, List.cons_append, List.orderedInsert_cons, if_neg hlt.not_ge,
        ← ih fun a ha => hleft a (List.mem_cons_of_mem _ ha)]

/-- `kb_getp` answers as a search through the list does. -/
theorem Wf.kbGetp (hwf : b.Wf va) (k : K) :
    kbGetp va k b.root 0 = some (b.toList.find? fun e => va e = va k) := by
  rcases kbGetp_cases b.root hwf.root hwf.sorted 0 with ⟨e, he, heq, hget⟩ | ⟨hget, hnone⟩
  · rw [hget, Option.some.injEq]
    cases hfind : b.toList.find? fun e => va e = va k with
    | none => exact absurd heq (by simpa using List.find?_eq_none.mp hfind e he)
    | some e' =>
        have heq' : va e' = va k := by simpa using List.find?_some hfind
        rw [eq_of_mem hwf.sorted he (List.mem_of_find?_eq_some hfind) (heq.trans heq'.symm)]
  · rw [hget, Option.some.injEq, eq_comm, List.find?_eq_none]
    exact fun e he => by simpa using hnone e he

/-- The calls that a user makes. -/
def Admits (va : K → A) (b : KbTree K) : KbCall K → Prop
  | .put k => (∀ e ∈ b.toList, va e ≠ va k) ∧ b.nKeys + 1 < 2 ^ 31
  | .del k => ∃ e ∈ b.toList, va e = va k
  | _ => True

/-- The tree and the list after the same calls. -/
def Refines (va : K → A) (b : KbTree K) (l : List K) : Prop :=
  b.Wf va ∧ b.nKeys < 2 ^ 31 ∧ b.toList = l

/-- Every call that is admitted is carried out, and its answer is that of the list. -/
theorem Refines.kbApply [DecidableEq K] (href : Refines va b l) (call : KbCall K)
    (hadmits : b.Admits va call) :
    ∃ b' event l', kbApply va b call = some (b', event) ∧ orderedStep va l event = some l' ∧
      Refines va b' l' := by
  obtain ⟨hwf, hcount, rfl⟩ := href
  cases call with
  | put k =>
      obtain ⟨hnew, hroom⟩ := hadmits
      have hfind : (b.toList.find? fun e => va e = va k) = none :=
        List.find?_eq_none.mpr fun e he => by simpa using hnew e he
      obtain ⟨b', hput, hwf', hinserted, hkeys⟩ := hwf.kbPutp hnew
      refine ⟨b', .put k, b'.toList, ?_, ?_, hwf', by omega, rfl⟩
      · rw [ArmsTiering.kbApply, hwf.kbGetp, Option.bind_some, hfind, if_pos ⟨rfl, hroom⟩, hput,
          Option.map_some]
      · rw [orderedStep, hfind, orderedInsert_eq hinserted]
        rfl
  | get k =>
      refine ⟨b, .get k _, b.toList, ?_, if_pos rfl, hwf, hcount, rfl⟩
      rw [ArmsTiering.kbApply, hwf.kbGetp, Option.map_some]
  | del k =>
      have hfind : (b.toList.find? fun e => va e = va k).isSome = true := by
        obtain ⟨e, he, heq⟩ := id hadmits
        exact List.find?_isSome.mpr ⟨e, he, decide_eq_true heq⟩
      obtain ⟨b', kp, hdel, hwf', _, hlist, hkeys⟩ := hwf.kbDelp hadmits
      refine ⟨b', .del k, b'.toList, ?_, ?_, hwf', by omega, rfl⟩
      · rw [ArmsTiering.kbApply, hwf.kbGetp, Option.bind_some, if_pos hfind, hdel, Option.map_some]
      · rw [orderedStep, if_pos hfind, hlist]
  | entries =>
      refine ⟨b, .entries b.toList b.nKeys, b.toList, ?_, if_pos ⟨rfl, hwf.count⟩, hwf, hcount, rfl⟩
      rw [ArmsTiering.kbApply, hwf.kbEntries hcount, Option.map_some]

theorem kbApply_admits (hwf : b.Wf va) {call : KbCall K} {result : KbTree K × KbEvent K}
    (happly : ArmsTiering.kbApply va b call = some result) : b.Admits va call := by
  cases call with
  | put k =>
      rw [ArmsTiering.kbApply, hwf.kbGetp, Option.bind_some] at happly
      obtain ⟨⟨hnone, hroom⟩, _⟩ := Option.ite_none_right_eq_some.mp happly
      refine ⟨fun e he => ?_, hroom⟩
      simpa using List.find?_eq_none.mp (Option.isNone_iff_eq_none.mp hnone) e he
  | get k => trivial
  | del k =>
      rw [ArmsTiering.kbApply, hwf.kbGetp, Option.bind_some] at happly
      obtain ⟨hsome, _⟩ := Option.ite_none_right_eq_some.mp happly
      obtain ⟨e, he, heq⟩ := List.find?_isSome.mp hsome
      exact ⟨e, he, of_decide_eq_true heq⟩
  | entries => trivial

theorem kbtree_simulates [DecidableEq K] (va : K → A) :
    ForwardSimulation (kbStep va) (kbObserve va) (orderedStep va) (Refines va) where
  silent := by
    intro b call next l _ hstep hobserve
    obtain ⟨⟨next', event⟩, happly, rfl⟩ := Option.map_eq_some_iff.mp hstep
    rw [kbObserve, happly] at hobserve
    cases hobserve
  visible := by
    intro b call next l event href hstep hobserve
    obtain ⟨⟨next', event'⟩, happly, rfl⟩ := Option.map_eq_some_iff.mp hstep
    rw [kbObserve, happly] at hobserve
    obtain rfl : event' = event := Option.some.inj hobserve
    obtain ⟨b', event, l', hcall, hordered, href'⟩ := href.kbApply call (kbApply_admits href.1 happly)
    rw [happly, Option.some.injEq, Prod.mk.injEq] at hcall
    obtain ⟨rfl, rfl⟩ := hcall
    exact ⟨l', hordered, href'⟩

theorem refines_kbInit {sizeofKey size : ℕ} (hinit : kbInit sizeofKey size = some b) :
    Refines va b [] := by
  obtain ⟨hwf, hnil⟩ : b.Wf va ∧ b.toList = [] := wf_kbInit hinit
  refine ⟨hwf, ?_, hnil⟩
  rw [hwf.count, hnil]
  exact Nat.two_pow_pos 31

end KbTree

open KbTree

variable [DecidableEq K] [LinearOrder A]

/-- The answers of any calls, lookups and loops over the iterator among them, are those
of a list in order, which the tree holds in the end. -/
theorem kbtree_refines_ordered (va : K → A) (sizeofKey size : ℕ) (b₀ : KbTree K)
    (hinit : kbInit sizeofKey size = some b₀) (calls : List (KbCall K)) :
    ∃ l, run (orderedStep va) [] (trace (kbStep va) (kbObserve va) b₀ calls) = some l ∧
      ∀ b, run (kbStep va) b₀ calls = some b → b.toList = l := by
  obtain ⟨l, haccepts, hfinal⟩ := (kbtree_simulates va).accepts (refines_kbInit hinit) calls
  exact ⟨l, haccepts, fun b hrun => (hfinal b hrun).2.2⟩

/-- `pages_tree`, with two pages of which one is removed. -/
theorem kbtree_refines_ordered_pages :
    ∃ l, run (orderedStep PageTreeEntry.va) []
        (trace (kbStep PageTreeEntry.va) (kbObserve PageTreeEntry.va) ⟨10, 0, leaf [], 0⟩
          [.put ⟨0x400000, 1⟩, .put ⟨0x200000, 2⟩, .entries, .del ⟨0x400000, 1⟩]) = some l ∧
      ∀ b, run (kbStep PageTreeEntry.va) ⟨10, 0, leaf [], 0⟩
        [.put ⟨0x400000, 1⟩, .put ⟨0x200000, 2⟩, .entries, .del ⟨0x400000, 1⟩] = some b →
          b.toList = l :=
  kbtree_refines_ordered PageTreeEntry.va 16 512 ⟨10, 0, leaf [], 0⟩ rfl _

/-- In every state that calls lead to, the nodes are as full as they must be and no
fuller than their arrays, the entries are in order, and each call that is admitted is
carried out: no access is outside of an array or of the iterator's stack. -/
theorem kbtree_sound (va : K → A) (sizeofKey size : ℕ) (b₀ : KbTree K)
    (hinit : kbInit sizeofKey size = some b₀) (calls : List (KbCall K)) (b : KbTree K)
    (hrun : run (kbStep va) b₀ calls = some b) :
    b.root.Wf b.t (min b.height 1) ∧ Ascending va b.toList ∧
      ∀ call, b.Admits va call → ∃ result, kbApply va b call = some result := by
  obtain ⟨l, _, hfinal⟩ := (kbtree_simulates va).accepts (refines_kbInit hinit) calls
  have href := hfinal b hrun
  refine ⟨href.1.root, href.1.sorted, fun call hadmits => ?_⟩
  obtain ⟨b', event, _, happly, _⟩ := href.kbApply call hadmits
  exact ⟨_, happly⟩

theorem kbtree_sound_pages :
    ∃ b, run (kbStep PageTreeEntry.va) ⟨10, 0, leaf [], 0⟩
        [.put ⟨0x400000, 1⟩, .put ⟨0x200000, 2⟩, .del ⟨0x400000, 1⟩] = some b ∧
      b.root.Wf b.t (min b.height 1) ∧ Ascending PageTreeEntry.va b.toList ∧ b.nKeys = 1 := by
  have hsome : (run (kbStep PageTreeEntry.va) ⟨10, 0, leaf [], 0⟩
      [.put ⟨0x400000, 1⟩, .put ⟨0x200000, 2⟩, .del ⟨0x400000, 1⟩]).map KbTree.nKeys = some 1 := by
    decide
  obtain ⟨b, hrun, hcount⟩ := Option.map_eq_some_iff.mp hsome
  obtain ⟨hroot, hsorted, _⟩ :=
    kbtree_sound PageTreeEntry.va 16 512 ⟨10, 0, leaf [], 0⟩ rfl _ b hrun
  exact ⟨b, hrun, hroot, hsorted, hcount⟩

/-- In every state that calls lead to, the iterator stands on entry number `n` after `n`
calls of `kb_itr_next`, and it is valid as long as there is one. -/
theorem kbtree_iterates (va : K → A) (sizeofKey size : ℕ) (b₀ : KbTree K)
    (hinit : kbInit sizeofKey size = some b₀) (calls : List (KbCall K)) (b : KbTree K)
    (hrun : run (kbStep va) b₀ calls = some b) (n : ℕ) :
    ∃ stack, kbItrAdvance b n = some stack ∧ kbItrKey stack = b.toList[n]? ∧
      (stack ≠ [] ↔ n < b.nKeys) := by
  obtain ⟨l, _, hfinal⟩ := (kbtree_simulates va).accepts (refines_kbInit hinit) calls
  obtain ⟨hwf, hcount, _⟩ := hfinal b hrun
  exact hwf.kbItrKey hcount n

theorem kbtree_iterates_pages :
    ∃ b, run (kbStep PageTreeEntry.va) ⟨10, 0, leaf [], 0⟩ [.put ⟨0x400000, 1⟩, .put ⟨0x200000, 2⟩] =
        some b ∧ b.nKeys = 2 ∧
      ∃ stack, kbItrAdvance b 1 = some stack ∧ kbItrKey stack = b.toList[1]? ∧
        (stack ≠ [] ↔ 1 < b.nKeys) := by
  have hsome : (run (kbStep PageTreeEntry.va) ⟨10, 0, leaf [], 0⟩
      [.put ⟨0x400000, 1⟩, .put ⟨0x200000, 2⟩]).map KbTree.nKeys = some 2 := by
    decide
  obtain ⟨b, hrun, hcount⟩ := Option.map_eq_some_iff.mp hsome
  exact ⟨b, hrun, hcount,
    kbtree_iterates PageTreeEntry.va 16 512 ⟨10, 0, leaf [], 0⟩ rfl _ b hrun 1⟩

end ArmsTiering
