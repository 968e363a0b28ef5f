import ArmsTiering.Core.Transition
import ArmsTiering.Lru.Fifo
import Mathlib.Data.Fintype.Basic

/-!
# The lists as sequences

Any sequence of operations on any number of lists that share their pages.  Beside
the lists the state records for each of them the pages in the order in which they
were enqueued, without those that were removed, and the pages that were dequeued.
-/

namespace ArmsTiering.Lru

open Function

/-- The functions of one kind of list. -/
structure FifoOperations (Page Queue : Type*) where
  enqueue : Fifos Page Queue → Queue → Page → Except Crash (Fifos Page Queue)
  dequeue : Fifos Page Queue → Queue → Except Crash (Option Page × Fifos Page Queue)
  remove : Option (Fifos Page Queue → Queue → Page → Except Crash (Fifos Page Queue))

inductive FifoAction (Page Queue : Type*)
  | enqueue (queue : Queue) (entry : Page)
  | dequeue (queue : Queue)
  | remove (queue : Queue) (page : Page)

structure FifoRun (Page Queue : Type*) where
  heap : Fifos Page Queue
  crashed : Bool
  order : Queue → List Page
  returned : Queue → List Page

variable {Page Queue : Type*}

namespace FifoRun

def initial : FifoRun Page Queue where
  heap := .empty
  crashed := false
  order := fun _ => []
  returned := fun _ => []

/-- The pages of a list that were neither removed nor dequeued, oldest first. -/
def waiting (t : FifoRun Page Queue) (queue : Queue) : List Page :=
  (t.order queue).drop (t.returned queue).length

/-- A page is enqueued while it is on no list, and removed from the list it is on. -/
def Proper (t : FifoRun Page Queue) : FifoAction Page Queue → Prop
  | .enqueue _ entry => ∀ other, entry ∉ t.waiting other
  | .dequeue _ => True
  | .remove queue page => page ∈ t.waiting queue

/-- The lists are well formed and hold the waiting pages, from the last one enqueued
to the first one, and the pages returned are the first in order. -/
structure WellFormed (t : FifoRun Page Queue) : Prop where
  running : t.crashed = false
  lists : Represents t.heap fun queue => (t.waiting queue).reverse
  inOrder : ∀ queue, t.returned queue <+: t.order queue

/-- The lists are well formed, and the next page to be returned is the one that waits
longest. -/
structure AreSequences (operations : FifoOperations Page Queue) (t : FifoRun Page Queue) :
    Prop extends WellFormed t where
  oldest : ∀ queue, ∃ heap, operations.dequeue t.heap queue = .ok ((t.waiting queue).head?, heap)

end FifoRun

section

variable [DecidableEq Page] [DecidableEq Queue]

/-- `enqueue_fifo_m`; a request has the same links as a page, and its list the same fields. -/
def enqueueFifoM (heap : Fifos Page Queue) (queue : Queue) (entry : Page) :
    Except Crash (Fifos Page Queue) :=
  enqueueFifo heap queue entry

/-- `dequeue_fifo_m` -/
def dequeueFifoM (heap : Fifos Page Queue) (queue : Queue) :
    Except Crash (Option Page × Fifos Page Queue) :=
  dequeueFifo heap queue

def pageLists : FifoOperations Page Queue where
  enqueue := enqueueFifo
  dequeue := dequeueFifo
  remove := some pageListRemovePage

/-- Requests only leave their list at its end. -/
def requestLists : FifoOperations Page Queue where
  enqueue := enqueueFifoM
  dequeue := dequeueFifoM
  remove := none

/-- The operations are those on pages, with or without the removal. -/
structure FifoOperations.OnPages (operations : FifoOperations Page Queue) : Prop where
  enqueue_eq : operations.enqueue = enqueueFifo
  dequeue_eq : operations.dequeue = dequeueFifo
  remove_eq : ∀ remove ∈ operations.remove, remove = pageListRemovePage

theorem onPages_pageLists : (pageLists : FifoOperations Page Queue).OnPages :=
  ⟨rfl, rfl, fun _ hremove => (Option.some.inj hremove).symm⟩

theorem onPages_requestLists : (requestLists : FifoOperations Page Queue).OnPages :=
  ⟨rfl, rfl, nofun⟩

end

namespace FifoRun

def step [DecidableEq Page] [DecidableEq Queue] (operations : FifoOperations Page Queue)
    (t : FifoRun Page Queue) (action : FifoAction Page Queue) : Option (FifoRun Page Queue) :=
  if t.crashed then none
  else match action with
    | .enqueue queue entry =>
        match operations.enqueue t.heap queue entry with
        | .error _ => some { t with crashed := true }
        | .ok heap =>
            some { t with
              heap := heap
              order := update t.order queue (t.order queue ++ [entry]) }
    | .dequeue queue =>
        match operations.dequeue t.heap queue with
        | .error _ => some { t with crashed := true }
        | .ok (ret, heap) =>
            some { t with
              heap := heap
              returned := update t.returned queue (t.returned queue ++ ret.toList) }
    | .remove queue page =>
        operations.remove.bind fun remove =>
          match remove t.heap queue page with
          | .error _ => some { t with crashed := true }
          | .ok heap =>
              some { t with
                heap := heap
                order := update t.order queue
                  (t.returned queue ++ (t.waiting queue).erase page) }

variable {operations : FifoOperations Page Queue} {t t' : FifoRun Page Queue}

/-! ## One operation -/

theorem WellFormed.order_eq (h : WellFormed t) (queue : Queue) :
    t.returned queue ++ t.waiting queue = t.order queue :=
  List.prefix_iff_eq_append.mp (h.inOrder queue)

theorem wellFormed_initial : WellFormed (initial : FifoRun Page Queue) where
  running := rfl
  lists := represents_empty
  inOrder _ := List.prefix_rfl

variable [DecidableEq Queue]

/-- Only one list has changed. -/
theorem WellFormed.of_update (queue : Queue) (nodes : List Page) (hrunning : t'.crashed = false)
    (hwaiting : t'.waiting = update t.waiting queue nodes)
    (hlists : Represents t'.heap
      (update (fun queue => (t.waiting queue).reverse) queue nodes.reverse))
    (hinOrder : ∀ queue, t'.returned queue <+: t'.order queue) : WellFormed t' where
  running := hrunning
  lists := by
    have hreverse : (fun queue => (t'.waiting queue).reverse) =
        update (fun queue => (t.waiting queue).reverse) queue nodes.reverse := by
      rw [hwaiting]
      exact comp_update List.reverse t.waiting queue nodes
    rwa [hreverse]
  inOrder := hinOrder

variable [DecidableEq Page]

theorem WellFormed.enqueue (h : WellFormed t) (queue : Queue) {entry : Page}
    (hfree : ∀ other, entry ∉ t.waiting other) :
    ∃ heap, enqueueFifo t.heap queue entry = .ok heap ∧
      WellFormed { t with
        heap := heap
        order := update t.order queue (t.order queue ++ [entry]) } := by
  obtain ⟨heap, henqueue, hlists⟩ := h.lists.enqueueFifo queue
    (h.lists.list_none_iff.mpr fun other hmem => hfree other (List.mem_reverse.mp hmem))
  refine ⟨heap, henqueue, WellFormed.of_update (t := t) queue (t.waiting queue ++ [entry])
    h.running ?_ ?_ ?_⟩
  · funext other
    by_cases hother : other = queue
    · subst hother
      have hle := (h.inOrder other).length_le
      simp only [waiting, update_self]
      exact List.drop_append_of_le_length hle
    · simp [waiting, hother]
  · rw [List.reverse_append]
    exact hlists
  · intro other
    dsimp only
    by_cases hother : other = queue
    · subst hother
      rw [update_self]
      exact (h.inOrder other).trans (List.prefix_append _ _)
    · rw [update_of_ne hother]
      exact h.inOrder other

theorem WellFormed.dequeue (h : WellFormed t) (queue : Queue) :
    ∃ heap, dequeueFifo t.heap queue = .ok ((t.waiting queue).head?, heap) ∧
      WellFormed { t with
        heap := heap
        returned := update t.returned queue
          (t.returned queue ++ (t.waiting queue).head?.toList) } := by
  have horder := h.order_eq queue
  cases hwaiting : t.waiting queue with
  | nil =>
      have hnil : (t.waiting queue).reverse = [] := by rw [hwaiting, List.reverse_nil]
      refine ⟨t.heap, h.lists.dequeueFifo_nil hnil, ?_⟩
      have hreturned : update t.returned queue (t.returned queue ++ (none : Option Page).toList) =
          t.returned := by simp
      rw [List.head?_nil, hreturned]
      exact h
  | cons page rest =>
      rw [hwaiting] at horder
      have hlast : (t.waiting queue).reverse = rest.reverse ++ [page] := by
        rw [hwaiting, List.reverse_cons]
      obtain ⟨heap, hdequeue, hlists⟩ := h.lists.dequeueFifo hlast
      refine ⟨heap, hdequeue,
        WellFormed.of_update (t := t) queue rest h.running ?_ hlists ?_⟩
      · funext other
        by_cases hother : other = queue
        · subst hother
          simp only [waiting, update_self]
          rw [← horder]
          simp
        · simp [waiting, hother]
      · intro other
        dsimp only
        by_cases hother : other = queue
        · subst hother
          rw [update_self, ← horder]
          exact ⟨rest, by simp⟩
        · rw [update_of_ne hother]
          exact h.inOrder other

theorem WellFormed.remove (h : WellFormed t) {queue : Queue} {page : Page}
    (hmem : page ∈ t.waiting queue) :
    ∃ heap, pageListRemovePage t.heap queue page = .ok heap ∧
      WellFormed { t with
        heap := heap
        order := update t.order queue (t.returned queue ++ (t.waiting queue).erase page) } := by
  obtain ⟨before, after, -, hwaiting, herase⟩ := List.exists_erase_eq hmem
  have hcontents : (t.waiting queue).reverse = after.reverse ++ page :: before.reverse := by
    rw [hwaiting]
    simp
  obtain ⟨heap, hremove, hlists⟩ := h.lists.pageListRemovePage hcontents
  refine ⟨heap, hremove,
    WellFormed.of_update (t := t) queue ((t.waiting queue).erase page) h.running ?_ ?_ ?_⟩
  · funext other
    by_cases hother : other = queue
    · subst hother
      simp only [waiting, update_self]
      exact List.drop_left
    · simp [waiting, hother]
  · rw [herase, List.reverse_append]
    exact hlists
  · intro other
    dsimp only
    by_cases hother : other = queue
    · subst hother
      rw [update_self]
      exact List.prefix_append _ _
    · rw [update_of_ne hother]
      exact h.inOrder other

/-! ## Runs -/

/-- Step lemma: a proper operation meets no assertion and keeps the lists well formed. -/
theorem WellFormed.step (h : WellFormed t) (hoperations : operations.OnPages)
    {action : FifoAction Page Queue} (hproper : t.Proper action)
    (hstep : t.step operations action = some t') : WellFormed t' := by
  unfold FifoRun.step at hstep
  rw [if_neg (by simp [h.running])] at hstep
  cases action with
  | enqueue queue entry =>
      obtain ⟨heap, henqueue, hnext⟩ := h.enqueue queue hproper
      dsimp only at hstep
      rw [hoperations.enqueue_eq, henqueue] at hstep
      obtain rfl := Option.some.inj hstep
      exact hnext
  | dequeue queue =>
      obtain ⟨heap, hdequeue, hnext⟩ := h.dequeue queue
      dsimp only at hstep
      rw [hoperations.dequeue_eq, hdequeue] at hstep
      obtain rfl := Option.some.inj hstep
      exact hnext
  | remove queue page =>
      obtain ⟨heap, hremove, hnext⟩ := h.remove hproper
      obtain ⟨remove, hsome, hstep⟩ := Option.bind_eq_some_iff.mp hstep
      rw [hoperations.remove_eq remove hsome, hremove] at hstep
      obtain rfl := Option.some.inj hstep
      exact hnext

theorem WellFormed.areSequences (h : WellFormed t) (hoperations : operations.OnPages) :
    AreSequences operations t where
  toWellFormed := h
  oldest queue := by
    obtain ⟨heap, hdequeue, -⟩ := h.dequeue queue
    rw [hoperations.dequeue_eq]
    exact ⟨heap, hdequeue⟩

/-- Run lemma for either kind of list. -/
theorem areSequences_of_meets (hoperations : operations.OnPages)
    {actions : List (FifoAction Page Queue)}
    (hmeets : Transition.Meets (FifoRun.step operations) Proper initial actions) :
    Transition.Along (FifoRun.step operations) (AreSequences operations) initial actions :=
  Transition.along_of_meets WellFormed (fun _ h => h.areSequences hoperations)
    (fun _ _ _ h hproper hstep => h.step hoperations hproper hstep) wellFormed_initial hmeets

/-- In every sequence of proper operations the lists of pages are the sequences of their
waiting pages, and so are the lists of requests. -/
theorem areSequences_along (actions : List (FifoAction Page Queue)) :
    (Transition.Meets (FifoRun.step pageLists) Proper initial actions →
      Transition.Along (FifoRun.step pageLists) (AreSequences pageLists) initial actions) ∧
    (Transition.Meets (FifoRun.step requestLists) Proper initial actions →
      Transition.Along (FifoRun.step requestLists) (AreSequences requestLists) initial
        actions) :=
  ⟨areSequences_of_meets onPages_pageLists, areSequences_of_meets onPages_requestLists⟩

instance [Fintype Queue] (t : FifoRun Page Queue) (action : FifoAction Page Queue) :
    Decidable (t.Proper action) :=
  match action with
  | .enqueue _ entry => inferInstanceAs (Decidable (∀ other, entry ∉ t.waiting other))
  | .dequeue _ => isTrue trivial
  | .remove queue page => inferInstanceAs (Decidable (page ∈ t.waiting queue))

/-- Two lists: a page is taken out of the middle of one and put on the other. -/
def twoLists : List (FifoAction ℕ Bool) :=
  [.enqueue true 1, .enqueue true 2, .enqueue true 3, .enqueue false 4, .remove true 2,
    .enqueue false 2, .dequeue true, .dequeue false, .dequeue true, .dequeue true]

/-- Two lists without removals. -/
def twoRequestLists : List (FifoAction ℕ Bool) :=
  [.enqueue true 1, .enqueue false 2, .enqueue true 3, .dequeue true, .dequeue false]

theorem areSequences_along_twoLists :
    (((Transition.run (FifoRun.step pageLists) initial twoLists).map fun t =>
        (t.returned true, t.returned false, t.waiting false)) = some ([1, 3], [4], [2]) ∧
      Transition.Along (FifoRun.step pageLists) (AreSequences pageLists) initial twoLists) ∧
    ((Transition.run (FifoRun.step requestLists) initial twoRequestLists).map fun t =>
        (t.returned true, t.returned false, t.waiting true)) = some ([1], [2], [3]) ∧
      Transition.Along (FifoRun.step requestLists) (AreSequences requestLists) initial
        twoRequestLists :=
  ⟨⟨by decide +kernel, (areSequences_along twoLists).1 (by decide +kernel)⟩,
    by decide +kernel, (areSequences_along twoRequestLists).2 (by decide +kernel)⟩

end FifoRun

end ArmsTiering.Lru
