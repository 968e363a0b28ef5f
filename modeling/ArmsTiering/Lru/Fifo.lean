import ArmsTiering.Core.DoublyLinked

/-!
# Page lists

The lists of page structs as the policies use them: every page carries its two
neighbours and the list it is on, every list its two ends and a count, and each
operation runs under the list's own lock.  The operations are tied to plain lists
of pages, the first page of the struct list at the head.
-/

namespace ArmsTiering.Lru

open Function

/-- How a thread brings the process down. -/
inductive Crash where
  | assertion
  | nullDereference
  | outOfMemory
  deriving DecidableEq, Repr

structure FifoList (Page : Type*) where
  first : Option Page
  last : Option Page
  numentries : Nat
  deriving DecidableEq

/-- All lists, and the link fields of all pages. -/
structure Fifos (Page Queue : Type*) where
  queues : Queue → FifoList Page
  next : Page → Option Page
  prev : Page → Option Page
  list : Page → Option Queue

section Operations

variable {Page Queue : Type*} [DecidableEq Page] [DecidableEq Queue]

def enqueueFifo (heap : Fifos Page Queue) (queue : Queue) (entry : Page) :
    Except Crash (Fifos Page Queue) :=
  let q := heap.queues queue
  if heap.prev entry ≠ none then .error .assertion
  else match q.first with
    | some first =>
        if heap.prev first ≠ none then .error .assertion
        else .ok {
          queues := update heap.queues queue
            { q with first := some entry, numentries := q.numentries + 1 }
          next := update heap.next entry q.first
          prev := update heap.prev first (some entry)
          list := update heap.list entry (some queue) }
    | none =>
        if q.last ≠ none ∨ q.numentries ≠ 0 then .error .assertion
        else .ok {
          queues := update heap.queues queue
            { first := some entry, last := some entry, numentries := q.numentries + 1 }
          next := update heap.next entry q.first
          prev := heap.prev
          list := update heap.list entry (some queue) }

def dequeueFifo (heap : Fifos Page Queue) (queue : Queue) :
    Except Crash (Option Page × Fifos Page Queue) :=
  let q := heap.queues queue
  match q.last with
  | none => .ok (none, heap)
  | some ret =>
      if q.numentries = 0 then .error .assertion
      else
        let last := heap.prev ret
        let next := match last with
          | some last => update heap.next last none
          | none => heap.next
        .ok (some ret, {
          queues := update heap.queues queue
            { first := if last = none then none else q.first
              last := last
              numentries := q.numentries - 1 }
          next := update next ret none
          prev := update heap.prev ret none
          list := update heap.list ret none })

def pageListRemovePage (heap : Fifos Page Queue) (queue : Queue) (page : Page) :
    Except Crash (Fifos Page Queue) :=
  let q := heap.queues queue
  if q.first = none then
    if q.last ≠ none ∨ q.numentries ≠ 0 then .error .assertion
    else .ok heap
  else if q.numentries = 0 then .error .assertion
  else
    let prev := match heap.next page with
      | some next => update heap.prev next (heap.prev page)
      | none => heap.prev
    let next := match prev page with
      | some before => update heap.next before (heap.next page)
      | none => heap.next
    .ok {
      queues := update heap.queues queue
        { first := if q.first = some page then heap.next page else q.first
          last := if q.last = some page then heap.prev page else q.last
          numentries := q.numentries - 1 }
      next := update next page none
      prev := update prev page none
      list := update heap.list page none }

end Operations

variable {Page Queue : Type*}

/-- Lists and pages as they are allocated, with all links zero. -/
def Fifos.empty : Fifos Page Queue where
  queues _ := ⟨none, none, 0⟩
  next _ := none
  prev _ := none
  list _ := none

/-- The lists hold exactly the given pages, and a page on no list has no links. -/
structure Represents (heap : Fifos Page Queue) (contents : Queue → List Page) : Prop where
  linked : ∀ queue, IsDoublyLinked heap.next heap.prev (heap.queues queue).first
    (heap.queues queue).last (contents queue)
  numentries : ∀ queue, (heap.queues queue).numentries = (contents queue).length
  list_iff : ∀ page queue, heap.list page = some queue ↔ page ∈ contents queue
  unlinked : ∀ page, heap.list page = none → heap.next page = none ∧ heap.prev page = none

theorem represents_empty : Represents (Fifos.empty : Fifos Page Queue) fun _ => [] where
  linked _ := IsDoublyLinked.nil
  numentries _ := rfl
  list_iff _ _ := by simp [Fifos.empty]
  unlinked _ _ := ⟨rfl, rfl⟩

namespace Represents

variable {heap heap' : Fifos Page Queue} {contents : Queue → List Page} {queue : Queue}
  {page : Page}

theorem list_none_iff (hrep : Represents heap contents) :
    heap.list page = none ↔ ∀ queue, page ∉ contents queue := by
  rw [Option.eq_none_iff_forall_not_mem]
  exact forall_congr' fun queue => not_congr (hrep.list_iff page queue)

theorem unique (hrep : Represents heap contents) {other : Queue} (hmem : page ∈ contents queue)
    (hother : page ∈ contents other) : other = queue :=
  Option.some.inj (((hrep.list_iff page other).mpr hother).symm.trans
    ((hrep.list_iff page queue).mpr hmem))

theorem prev_first (hrep : Represents heap contents) {first : Page}
    (hfirst : (heap.queues queue).first = some first) : heap.prev first = none := by
  rw [(hrep.linked queue).first_eq] at hfirst
  obtain ⟨rest, hrest⟩ := List.head?_eq_some_iff.mp hfirst
  exact (hrep.linked queue).prev_eq [] first rest hrest

variable [DecidableEq Queue]

/-- One list gets other pages, and the links of the pages on the others stay. -/
theorem relink (hrep : Represents heap contents) {nodes : List Page}
    (hqueues : ∀ other, other ≠ queue → heap'.queues other = heap.queues other)
    (hlinked : IsDoublyLinked heap'.next heap'.prev (heap'.queues queue).first
      (heap'.queues queue).last nodes)
    (hcount : (heap'.queues queue).numentries = nodes.length)
    (hnext : ∀ page other, other ≠ queue → page ∈ contents other →
      heap'.next page = heap.next page)
    (hprev : ∀ page other, other ≠ queue → page ∈ contents other →
      heap'.prev page = heap.prev page)
    (hlist : ∀ page other, heap'.list page = some other ↔
      page ∈ update contents queue nodes other)
    (hunlinked : ∀ page, heap'.list page = none →
      heap'.next page = none ∧ heap'.prev page = none) :
    Represents heap' (update contents queue nodes) where
  linked other := by
    by_cases hother : other = queue
    · subst hother
      rwa [update_self]
    · rw [update_of_ne hother, hqueues other hother]
      exact (hrep.linked other).congr (fun page hmem => hnext page other hother hmem)
        fun page hmem => hprev page other hother hmem
  numentries other := by
    by_cases hother : other = queue
    · subst hother
      rwa [update_self]
    · rw [update_of_ne hother, hqueues other hother]
      exact hrep.numentries other
  list_iff := hlist
  unlinked := hunlinked

/-- A page taken out of its list is on no list. -/
theorem not_mem_unlinked (hrep : Represents heap contents) {before after : List Page}
    (hcontents : contents queue = before ++ page :: after) (other : Queue) :
    page ∉ update contents queue (before ++ after) other := by
  have hnodup := (hrep.linked queue).nodup
  rw [hcontents] at hnodup
  by_cases hother : other = queue
  · subst hother
    simpa using (List.nodup_cons.mp (List.nodup_middle.mp hnodup)).1
  · rw [update_of_ne hother]
    intro hmem
    exact hother (hrep.unique (by simp [hcontents]) hmem)

variable [DecidableEq Page]

theorem enqueueFifo (queue : Queue) (hrep : Represents heap contents) (hfree : heap.list page = none) :
    ∃ heap', Lru.enqueueFifo heap queue page = .ok heap' ∧
      Represents heap' (update contents queue (page :: contents queue)) := by
  have hlinked := hrep.linked queue
  have hnotMem := hrep.list_none_iff.mp hfree
  obtain ⟨-, hprev⟩ := hrep.unlinked page hfree
  have hlist : ∀ other target, update heap.list page (some queue) other = some target ↔
      other ∈ update contents queue (page :: contents queue) target := by
    intro other target
    by_cases htarget : target = queue
    · subst htarget
      by_cases hother : other = page
      · simp [hother]
      · simp [hother, hrep.list_iff]
    · by_cases hother : other = page
      · subst hother
        simp [update_of_ne htarget, hnotMem, Ne.symm htarget]
      · simp [hother, update_of_ne htarget, hrep.list_iff]
  cases hfirst : (heap.queues queue).first with
  | some first =>
      have hhead : (contents queue).head? = some first := hlinked.first_eq.symm.trans hfirst
      have hin : first ∈ contents queue := List.mem_of_mem_head? hhead
      have hne : page ≠ first := fun heq => hnotMem queue (heq ▸ hin)
      have hfirstPrev := hrep.prev_first hfirst
      refine ⟨_, by simp only [Lru.enqueueFifo, hprev, hfirst, hfirstPrev, ne_eq,
        not_true_eq_false, if_false]; rfl, ?_⟩
      refine hrep.relink (fun other hother => by simp [hother]) ?_ (by simp [hrep.numentries])
        ?_ ?_ hlist ?_
      · have hlast : (page :: contents queue).getLast? = (heap.queues queue).last := by
          rw [hlinked.last_eq]
          exact List.getLast?_append_of_ne_nil [page] (List.ne_nil_of_mem hin)
        have hcons := hlinked.cons (hnotMem queue)
          (show update heap.next page (some first) page = _ by simp [hfirst])
          (show update heap.prev first (some page) page = none by simp [hne, hprev])
          (fun head hmem => by
            obtain rfl := Option.some.inj (hhead.symm.trans hmem)
            simp)
          (fun other hmem => by
            have : other ≠ page := fun heq => hnotMem queue (heq ▸ hmem)
            simp [this])
          (fun other hmem => by
            have : other ≠ first := by
              rintro rfl
              obtain ⟨rest, hrest⟩ := List.head?_eq_some_iff.mp hhead
              have hnodup := hlinked.nodup
              rw [hrest] at hmem hnodup
              exact (List.nodup_cons.mp hnodup).1 hmem
            simp [this])
        simpa [hlast] using hcons
      · intro other target htarget hmem
        have : other ≠ page := fun heq => hnotMem target (heq ▸ hmem)
        simp [this]
      · intro other target htarget hmem
        have : other ≠ first := fun heq => htarget (hrep.unique hin (heq ▸ hmem))
        simp [this]
      · intro other hnone
        have hother : other ≠ page := by
          rintro rfl
          simp at hnone
        have hnone' : heap.list other = none := by simpa [hother] using hnone
        have hne : other ≠ first := fun heq => hrep.list_none_iff.mp hnone' queue (heq ▸ hin)
        simpa [hother, hne] using hrep.unlinked other hnone'
  | none =>
      have hnil : contents queue = [] := hlinked.first_eq_none.mp hfirst
      have hlast : (heap.queues queue).last = none := hlinked.last_eq_none.mpr hnil
      have hcount : (heap.queues queue).numentries = 0 := by
        rw [hrep.numentries, hnil]
        rfl
      refine ⟨_, by simp only [Lru.enqueueFifo, hprev, hfirst, hlast, hcount, ne_eq,
        not_true_eq_false, or_self, if_false]; rfl, ?_⟩
      refine hrep.relink (fun other hother => by simp [hother]) ?_ (by simp [hnil])
        ?_ (fun _ _ _ _ => rfl) hlist ?_
      · have hempty : IsDoublyLinked heap.next heap.prev none none [] := IsDoublyLinked.nil
        have hcons := hempty.cons (List.not_mem_nil (a := page))
          (show update heap.next page none page = none by simp) hprev (by simp) (by simp) (by simp)
        simpa [hnil] using hcons
      · intro other target htarget hmem
        have : other ≠ page := fun heq => hnotMem target (heq ▸ hmem)
        simp [this]
      · intro other hnone
        have hother : other ≠ page := by
          rintro rfl
          simp at hnone
        simpa [hother] using hrep.unlinked other (by simpa [hother] using hnone)

/-- A page is taken out of its list: its neighbours are linked to each other. -/
theorem unlink (hrep : Represents heap contents) {before after : List Page}
    (hcontents : contents queue = before ++ page :: after)
    (hqueues : ∀ other, other ≠ queue → heap'.queues other = heap.queues other)
    (hfirst : (heap'.queues queue).first = (before ++ after).head?)
    (hlast : (heap'.queues queue).last = (before ++ after).getLast?)
    (hcount : (heap'.queues queue).numentries = (heap.queues queue).numentries - 1)
    (hnext : ∀ other, heap'.next other = if other = page then none
      else if before.getLast? = some other then heap.next page else heap.next other)
    (hprev : ∀ other, heap'.prev other = if other = page then none
      else if after.head? = some other then heap.prev page else heap.prev other)
    (hlist : heap'.list = update heap.list page none) :
    Represents heap' (update contents queue (before ++ after)) := by
  have hlinked := hrep.linked queue
  rw [hcontents] at hlinked
  have hnotMem : page ∉ before ++ after :=
    (List.nodup_cons.mp (List.nodup_middle.mp hlinked.nodup)).1
  have hpage : page ∈ contents queue := by simp [hcontents]
  have hfar : ∀ other target, target ≠ queue → other ∈ contents target →
      other ∉ contents queue :=
    fun other target htarget hmem hin => htarget (hrep.unique hin hmem)
  refine hrep.relink hqueues ?_ (by rw [hcount, hrep.numentries, hcontents]; simp) ?_ ?_ ?_ ?_
  · rw [hfirst, hlast]
    refine hlinked.unlink ?_ ?_ ?_ ?_
    · intro other hother
      have : other ≠ page := by
        rintro rfl
        exact hnotMem (by simp [List.mem_of_mem_getLast? hother])
      rw [hnext, if_neg this, if_pos (Option.mem_def.mp hother)]
    · intro other hother
      have : other ≠ page := by
        rintro rfl
        exact hnotMem (by simp [List.mem_of_mem_head? hother])
      rw [hprev, if_neg this, if_pos (Option.mem_def.mp hother)]
    · intro other hmem hother
      have : other ≠ page := fun heq => hnotMem (heq ▸ hmem)
      rw [hnext, if_neg this, if_neg (mt Option.mem_def.mpr hother)]
    · intro other hmem hother
      have : other ≠ page := fun heq => hnotMem (heq ▸ hmem)
      rw [hprev, if_neg this, if_neg (mt Option.mem_def.mpr hother)]
  · intro other target htarget hmem
    have hout := hfar other target htarget hmem
    have : other ≠ page := fun heq => hout (heq ▸ hpage)
    rw [hnext, if_neg this, if_neg]
    intro hother
    exact hout (by simp [hcontents, List.mem_of_mem_getLast? hother])
  · intro other target htarget hmem
    have hout := hfar other target htarget hmem
    have : other ≠ page := fun heq => hout (heq ▸ hpage)
    rw [hprev, if_neg this, if_neg]
    intro hother
    exact hout (by simp [hcontents, List.mem_of_mem_head? hother])
  · intro other target
    rw [hlist]
    by_cases hother : other = page
    · subst hother
      by_cases htarget : target = queue
      · subst htarget
        simpa using hnotMem
      · have hout : other ∉ contents target := fun hmem => hfar other target htarget hmem hpage
        simpa [htarget] using hout
    · by_cases htarget : target = queue
      · subst htarget
        simp [hother, hrep.list_iff, hcontents]
      · simp [hother, htarget, hrep.list_iff]
  · intro other hnone
    by_cases hother : other = page
    · rw [hnext, hprev, if_pos hother, if_pos hother]
      exact ⟨rfl, rfl⟩
    · have hnone' : heap.list other = none := by simpa [hlist, hother] using hnone
      have hout := hrep.list_none_iff.mp hnone' queue
      rw [hnext, hprev, if_neg hother, if_neg hother, if_neg, if_neg]
      · exact hrep.unlinked other hnone'
      · intro hhead
        exact hout (by simp [hcontents, List.mem_of_mem_head? hhead])
      · intro hlast'
        exact hout (by simp [hcontents, List.mem_of_mem_getLast? hlast'])

theorem dequeueFifo_nil (hrep : Represents heap contents) (hnil : contents queue = []) :
    Lru.dequeueFifo heap queue = .ok (none, heap) := by
  have hlast := (hrep.linked queue).last_eq_none.mpr hnil
  simp [Lru.dequeueFifo, hlast]

theorem dequeueFifo (hrep : Represents heap contents) {rest : List Page}
    (hcontents : contents queue = rest ++ [page]) :
    ∃ heap', Lru.dequeueFifo heap queue = .ok (some page, heap') ∧
      Represents heap' (update contents queue rest) := by
  have hlinked := hrep.linked queue
  rw [hcontents] at hlinked
  have hlast : (heap.queues queue).last = some page := by
    rw [hlinked.last_eq, List.getLast?_concat]
  have hcount : (heap.queues queue).numentries ≠ 0 := by
    rw [hrep.numentries, hcontents]
    simp
  have hprev : heap.prev page = rest.getLast? := hlinked.prev_eq rest page [] rfl
  have hnext : heap.next page = none := hlinked.next_eq rest page [] rfl
  refine ⟨_, by simp only [Lru.dequeueFifo, hlast, hcount, if_false]; rfl, ?_⟩
  rw [← List.append_nil rest]
  refine hrep.unlink hcontents (fun other hother => by simp [hother]) ?_ (by simp [hprev])
    (by simp) ?_ ?_ rfl
  · rw [List.append_nil]
    cases rest with
    | nil => simp [hprev]
    | cons first rest =>
        simp only [update_self, hprev, List.getLast?_eq_none_iff, List.cons_ne_nil, if_false]
        exact hlinked.first_eq
  · intro other
    by_cases hother : other = page
    · simp [hother]
    · rw [if_neg hother]
      dsimp only
      rw [update_of_ne hother, hprev, hnext]
      cases hback : rest.getLast? with
      | none => simp
      | some back =>
          by_cases hback' : other = back
          · simp [hback']
          · simp [hback', Ne.symm hback']
  · intro other
    by_cases hother : other = page
    · simp [hother]
    · simp [hother]

theorem pageListRemovePage (hrep : Represents heap contents) {before after : List Page}
    (hcontents : contents queue = before ++ page :: after) :
    ∃ heap', Lru.pageListRemovePage heap queue page = .ok heap' ∧
      Represents heap' (update contents queue (before ++ after)) := by
  have hlinked := hrep.linked queue
  rw [hcontents] at hlinked
  have hfirst : (heap.queues queue).first ≠ none := fun hnone => by
    simpa using hlinked.first_eq_none.mp hnone
  have hcount : (heap.queues queue).numentries ≠ 0 := by
    rw [hrep.numentries, hcontents]
    simp
  have hprev : heap.prev page = before.getLast? := hlinked.prev_eq before page after rfl
  have hnext : heap.next page = after.head? := hlinked.next_eq before page after rfl
  have hnotMem : page ∉ before ++ after :=
    (List.nodup_cons.mp (List.nodup_middle.mp hlinked.nodup)).1
  have hself : after.head? ≠ some page := fun heq =>
    hnotMem (by simp [List.mem_of_mem_head? heq])
  -- reading the predecessor after the successor was relinked changes nothing
  have hback : (match heap.next page with
      | some next => update heap.prev next (heap.prev page)
      | none => heap.prev) page = before.getLast? := by
    rw [hnext]
    cases hhead : after.head? with
    | none => exact hprev
    | some head =>
        have : page ≠ head := fun heq => hself (heq ▸ hhead)
        simp [this, hprev]
  refine ⟨_, by simp only [Lru.pageListRemovePage, hfirst, hcount, if_false]; rfl, ?_⟩
  refine hrep.unlink hcontents (fun other hother => by simp [hother]) ?_ ?_ (by simp) ?_ ?_ rfl
  · dsimp only
    rw [update_self, hlinked.first_eq, hnext]
    cases before with
    | nil => simp
    | cons head before =>
        have : head ≠ page := fun heq => hnotMem (by simp [heq])
        simp [this]
  · dsimp only
    rw [update_self, hlinked.last_eq, hprev]
    cases hafter : after with
    | nil => simp
    | cons head tail =>
        have hne : (head :: tail).getLast? ≠ some page := fun heq =>
          hnotMem (by simp [hafter, List.mem_of_getLast? heq])
        rw [List.getLast?_append_of_ne_nil _ (by simp), List.getLast?_append_of_ne_nil _ (by simp),
          List.getLast?_cons_cons, if_neg hne]
  · intro other
    by_cases hother : other = page
    · simp [hother]
    · rw [if_neg hother]
      dsimp only
      rw [update_of_ne hother, hback, hnext]
      cases hlast : before.getLast? with
      | none => simp
      | some last =>
          by_cases hlast' : other = last
          · simp [hlast']
          · simp [hlast', Ne.symm hlast']
  · intro other
    by_cases hother : other = page
    · simp [hother]
    · rw [if_neg hother]
      dsimp only
      rw [update_of_ne hother, hnext, hprev]
      cases hhead : after.head? with
      | none => simp
      | some head =>
          by_cases hhead' : other = head
          · simp [hhead']
          · simp [hhead', Ne.symm hhead']

end Represents

end ArmsTiering.Lru
