import ArmsTiering.Core.Counting
import ArmsTiering.Machine.Effect
import ArmsTiering.Migration.Loans

/-!
# Where a page struct is

A struct is on a free list, owned by a client thread, tracked in `pages`,
waiting in a free record, or lent to an unfinished request as its free page.
Every step moves a struct from one place to another; only a free record that
names a page missing in `pages_map` loses one.
-/

namespace ArmsTiering

open Counting

/-- The thread has the struct: it is on no list and in no map or queue. -/
def Client.owns (p : PageId) : Client → Bool
  | .allocated _ q | .mapped _ q | .vaSet q | .deleted _ q => q == p
  | _ => false

def ModPage.frees (p : PageId) (mp : ModPage) : Bool := mp.free && mp.page == p

namespace Machine

def freeCount (s : Machine) (p : PageId) : ℕ :=
  (s.freeList .dram).count p + (s.freeList .nvm).count p

def ownedCount (s : Machine) (p : PageId) : ℕ := s.clients.countP (Client.owns p)

/-- `pages` has the struct. -/
def tracked (s : Machine) (p : PageId) : Bool := s.pages (s.page p).va == some p

def pendingFreeCount (s : Machine) (p : PageId) : ℕ := s.modPageDq.countP (ModPage.frees p)

/-- The number of places where the struct is. -/
def places (s : Machine) (p : PageId) : ℕ :=
  s.freeCount p + s.ownedCount p + one (s.tracked p) + s.pendingFreeCount p +
    s.pipe.borrowed p

/-- Structs are never in two places, and `pages` has each under its own `va`. -/
structure Placed (s : Machine) : Prop where
  once : ∀ p, s.places p ≤ 1
  keyed : ∀ va p, s.pages va = some p → (s.page p).va = va

/-! ## Counts under the list operations -/

theorem freeCount_enqueueFifo (s : Machine) (list : FreeList) (q p : PageId) :
    (s.enqueueFifo list q).freeCount p = s.freeCount p + one (q == p) := by
  cases list <;>
    simp [freeCount, enqueueFifo, List.count_append, List.count_singleton, one] <;> omega

theorem freeCount_dequeueFifo {s : Machine} {list : FreeList} {q : PageId}
    (hhead : (s.freeList list).head? = some q) (p : PageId) :
    (s.dequeueFifo list).freeCount p + one (q == p) = s.freeCount p := by
  obtain ⟨rest, hlist⟩ := List.head?_eq_some_iff.mp hhead
  cases list <;>
    simp [freeCount, dequeueFifo, hlist, List.count_cons, one] <;> omega

theorem pendingFreeCount_tail {s : Machine} {mp : ModPage}
    (hhead : s.modPageDq.head? = some mp) (p : PageId) :
    s.modPageDq.tail.countP (ModPage.frees p) + one (mp.frees p) = s.pendingFreeCount p := by
  obtain ⟨rest, hqueue⟩ := List.head?_eq_some_iff.mp hhead
  rw [pendingFreeCount, hqueue, List.tail_cons, countP_cons]

end Machine

/-! ## The pipeline's part -/

namespace Pipeline

/-- The same for a machine step's share in the pipeline. -/
theorem borrowed_advance {s next : Pipeline} {action : Option PipelineAction}
    (hadvance : s.advance action = some next) (p : PageId) :
    next.borrowed p + (action.map (s.returned p)).getD 0 =
      s.borrowed p + (action.map (lent p)).getD 0 := by
  cases action with
  | none =>
      obtain rfl : s = next := Option.some.inj hadvance
      rfl
  | some action => exact (step_cases hadvance).borrowed p

end Pipeline

namespace Machine

/-! ## The step lemma -/

/-- Places outside of the pipeline. -/
def held (s : Machine) (p : PageId) : ℕ :=
  s.freeCount p + s.ownedCount p + one (s.tracked p) + s.pendingFreeCount p

theorem places_eq (s : Machine) (p : PageId) : s.places p = s.held p + s.pipe.borrowed p := rfl

theorem held_setClient (s : Machine) {c : ℕ} {old : Client} (hclient : s.clients[c]? = some old)
    (new : Client) (p : PageId) :
    (s.setClient c new).held p + one (old.owns p) = s.held p + one (new.owns p) := by
  have hcount : (s.setClient c new).ownedCount p + one (old.owns p) =
      s.ownedCount p + one (new.owns p) := countP_set (Client.owns p) hclient new
  have hheld : (s.setClient c new).held p =
      s.freeCount p + (s.setClient c new).ownedCount p + one (s.tracked p) +
        s.pendingFreeCount p := rfl
  unfold held at *
  omega

theorem held_of_tracked {s t : Machine} {p : PageId} {gain loss : ℕ}
    (hfree : t.freeCount p = s.freeCount p) (howned : t.ownedCount p = s.ownedCount p)
    (hpending : t.pendingFreeCount p = s.pendingFreeCount p)
    (htracked : one (t.tracked p) + loss = one (s.tracked p) + gain) :
    t.held p + loss = s.held p + gain := by
  unfold held
  omega

theorem held_setPage (s : Machine) (q : PageId) (f : Page → Page)
    (hva : ∀ page, (f page).va = page.va) (p : PageId) : (s.setPage q f).held p = s.held p := by
  have htracked : (s.setPage q f).tracked p = s.tracked p := by
    by_cases hpq : p = q
    · subst hpq
      simp [tracked, setPage, hva]
    · simp [tracked, setPage, hpq]
  simp only [held, htracked]
  rfl

theorem held_enqueueFifo (s : Machine) (list : FreeList) (q p : PageId) :
    (s.enqueueFifo list q).held p = s.held p + one (q == p) := by
  have hfree := freeCount_enqueueFifo s list q p
  have hheld : (s.enqueueFifo list q).held p =
      (s.enqueueFifo list q).freeCount p + s.ownedCount p + one (s.tracked p) +
        s.pendingFreeCount p := rfl
  unfold held at *
  omega

theorem held_dequeueFifo {s : Machine} {list : FreeList} {q : PageId}
    (hhead : (s.freeList list).head? = some q) (p : PageId) :
    (s.dequeueFifo list).held p + one (q == p) = s.held p := by
  have hfree := freeCount_dequeueFifo hhead p
  have hheld : (s.dequeueFifo list).held p =
      (s.dequeueFifo list).freeCount p + s.ownedCount p + one (s.tracked p) +
        s.pendingFreeCount p := rfl
  unfold held at *
  omega

theorem held_pushRecord (s : Machine) (mp : ModPage) (p : PageId) :
    (s.pushRecord mp).held p = s.held p + one (mp.frees p) := by
  have hpending : (s.pushRecord mp).pendingFreeCount p =
      s.pendingFreeCount p + one (mp.frees p) :=
    countP_append_singleton (ModPage.frees p) s.modPageDq mp
  have hheld : (s.pushRecord mp).held p =
      s.freeCount p + s.ownedCount p + one (s.tracked p) +
        (s.pushRecord mp).pendingFreeCount p := rfl
  unfold held at *
  omega

/-- The drained record frees a page that `pages_map` does not have. -/
def loses (s : Machine) (p : PageId) : MachineAction → Bool
  | .drain mp => mp.frees p && (s.pagesMap (s.page mp.page).va).isNone
  | _ => false

theorem Placed.not_tracked {s : Machine} (hplaced : s.Placed) {p : PageId} {c : ℕ}
    {client : Client} (hclient : s.clients[c]? = some client) (howns : client.owns p = true) :
    s.tracked p = false := by
  rw [← Bool.not_eq_true]
  intro htracked
  have honce := hplaced.once p
  have howned : 0 < s.ownedCount p := one_le_countP hclient howns
  simp only [places, htracked, one_true] at honce
  omega

theorem tracked_setVa {s : Machine} (hplaced : s.Placed) {c : ℕ} {va : Va} {q : PageId}
    (hclient : s.clients[c]? = some (.mapped va q)) (f : Page → Page)
    (hva : ∀ page, (f page).va = va) (p : PageId) :
    (s.setPage q f).tracked p = s.tracked p := by
  by_cases hpq : p = q
  · subst hpq
    have howns : (Client.mapped va p).owns p = true := by simp [Client.owns]
    have huntracked := hplaced.not_tracked hclient howns
    rw [huntracked]
    simp only [tracked, setPage, Function.update_self, hva, beq_eq_false_iff_ne]
    intro hpages
    have hkey := hplaced.keyed va p hpages
    simp [tracked, hkey, hpages] at huntracked
  · simp [tracked, setPage, hpq]

/-- The struct is entered under a key that was absent. -/
theorem tracked_addToPages {s : Machine} {q : PageId} (habsent : s.pages (s.page q).va = none)
    (p : PageId) :
    one ({ s with pages := Function.update s.pages (s.page q).va (some q) }.tracked p) =
      one (s.tracked p) + one (q == p) := by
  by_cases hva : (s.page p).va = (s.page q).va
  · by_cases hpq : q = p <;> simp [tracked, hva, habsent, hpq, one]
  · have hpq : q ≠ p := by
      rintro rfl
      exact hva rfl
    simp [tracked, hva, hpq, one]

theorem tracked_deleteFromPages {s : Machine} {q : PageId}
    (hpresent : s.pages (s.page q).va = some q) (p : PageId) :
    one ({ s with pages := Function.update s.pages (s.page q).va none }.tracked p) +
        one (q == p) =
      one (s.tracked p) := by
  by_cases hva : (s.page p).va = (s.page q).va
  · by_cases hpq : q = p <;> simp [tracked, hva, hpresent, hpq, one]
  · have hpq : q ≠ p := by
      rintro rfl
      exact hva rfl
    simp [tracked, hva, hpq, one]

theorem freeCount_drain (s : Machine) (mp : ModPage) (p : PageId) :
    (s.effect (.drain mp)).freeCount p =
      s.freeCount p + one (s.drainFrees mp && mp.page == p) := by
  have hfreeList : (s.effect (.drain mp)).freeCount p =
      if s.drainFrees mp then
        (s.enqueueFifo (.ofTier (s.page mp.page).inDram) mp.page).freeCount p
      else s.freeCount p := by
    simp only [freeCount, effect]
    split <;> rfl
  rw [hfreeList, freeCount_enqueueFifo]
  cases s.drainFrees mp <;> simp

theorem held_drain {s : Machine} {mp : ModPage} (hhead : s.modPageDq.head? = some mp)
    (p : PageId) :
    (s.effect (.drain mp)).held p + one (s.loses p (.drain mp)) = s.held p := by
  have hfree := freeCount_drain s mp p
  have hpending : (s.effect (.drain mp)).pendingFreeCount p + one (mp.frees p) =
      s.pendingFreeCount p := pendingFreeCount_tail hhead p
  have htracked : (s.effect (.drain mp)).tracked p = s.tracked p := by
    simp only [tracked]
    rw [va_effect p (by simp), pages_effect (by simp) (by simp)]
  -- a free record frees its page or loses it
  have hfrees : one (mp.frees p) =
      one (s.drainFrees mp && mp.page == p) + one (s.loses p (.drain mp)) := by
    simp only [loses, ModPage.frees, drainFrees]
    cases mp.free <;> cases (mp.page == p) <;>
      cases s.pagesMap (s.page mp.page).va <;> rfl
  have howned : (s.effect (.drain mp)).ownedCount p = s.ownedCount p := rfl
  unfold held
  rw [htracked]
  omega

/-- A client's step moves the struct between its owner and another place. -/
theorem held_client {s : Machine} (t : Machine) {c : ℕ} {old new : Client} {p : PageId}
    (hclient : t.clients[c]? = some old)
    (hheld : t.held p + one (new.owns p) = s.held p + one (old.owns p)) :
    (t.setClient c new).held p = s.held p := by
  have hmoved := held_setClient t hclient new p
  omega

theorem held_effect {s : Machine} {action : MachineAction} (hplaced : s.Placed)
    (henabled : s.Enabled action) (hasserts : s.Asserts action) (p : PageId) :
    (s.effect action).held p + (action.pipeAction.map (Pipeline.lent p)).getD 0 +
        one (s.loses p action) =
      s.held p + (action.pipeAction.map (s.pipe.returned p)).getD 0 := by
  cases action with
  | allocate c va list q =>
      obtain ⟨hclient, -, hhead, -⟩ := henabled
      let present : Page → Page := fun page => { page with present := true }
      refine held_client ((s.dequeueFifo list).setPage q present) hclient ?_
      rw [held_setPage _ q present fun _ => rfl]
      exact held_dequeueFifo hhead p
  | outOfMemory => exact hasserts.elim
  | zeroAndMap c va q =>
      exact held_client ((s.setMem (s.frameOf q) fun _ => 0).mapFrame va (some (s.frameOf q)))
        henabled rfl
  | setVa c va q =>
      let located : Page → Page := fun page => { page with va := va, migrating := false }
      have htracked := tracked_setVa hplaced henabled located (fun _ => rfl) p
      refine held_client (s.setPage q located) henabled ?_
      exact held_of_tracked rfl rfl rfl (by rw [htracked]; rfl)
  | addToPages c q =>
      refine held_client { s with pages := Function.update s.pages (s.page q).va (some q) }
        henabled ?_
      exact held_of_tracked rfl rfl rfl (tracked_addToPages hasserts p)
  | pushAdd c q =>
      exact held_client (s.pushRecord ⟨q, false⟩) henabled (held_pushRecord s ⟨q, false⟩ p)
  | deleteFromPages c va q =>
      obtain ⟨hclient, hpages⟩ := henabled
      have hkey := hplaced.keyed va q hpages
      refine held_client { s with pages := Function.update s.pages (s.page q).va none }
        hclient ?_
      exact held_of_tracked rfl rfl rfl (tracked_deleteFromPages (by rw [hkey, hpages]) p)
  | pushFree c va q =>
      let logged : Machine := { s with removed := s.removed ++ [q] }
      exact held_client (logged.pushRecord ⟨q, true⟩) henabled
        (held_pushRecord logged ⟨q, true⟩ p)
  | clearPresent c va q =>
      let absent : Page → Page := fun page => { page with present := false }
      refine held_client (s.setPage q absent) henabled.1 ?_
      rw [held_setPage _ q absent fun _ => rfl]
      rfl
  | unmap c va => exact held_client (s.mapFrame va none) henabled rfl
  | load va offset => rfl
  | store va offset byte => rfl
  | drain mp => exact held_drain henabled.2 p
  | beginSchedule batch => rfl
  | schedulePromotion key q np =>
      exact held_dequeueFifo henabled.2.2 p
  | scheduleDemotion key coldKey q cp np =>
      exact held_dequeueFifo henabled.2.2.2.2.2 p
  | returnFree np =>
      have hdequeued := held_dequeueFifo henabled p
      have henqueued := held_enqueueFifo (s.dequeueFifo .dram) .dram np p
      exact henqueued.trans hdequeued
  | testPresent i half req => rfl
  | testAbsent i half req => cases half <;> rfl
  | writeProtect i half req oldOffset =>
      exact held_setPage s (half.page req) (fun page => { page with migrating := true })
        (fun _ => rfl) p
  | copy i half req oldOffset => rfl
  | remap i half req oldOffset =>
      exact held_setPage s (half.page req)
        (fun page =>
          { page with
            devdaxOffset := (s.newFrame half req).devdaxOffset
            inDram := (s.newFrame half req).inDram
            migrating := false }) (fun _ => rfl) p
  | unlock i half req oldOffset => rfl
  | give i half req oldOffset =>
      have hgiven := held_setPage s req.freePage
        (fun page => resetPageAccessFields
          { page with
            devdaxOffset := oldOffset
            inDram := half.sourceInDram
            present := false }) (fun _ => rfl) p
      cases half <;> exact hgiven
  | recycle i req outcome =>
      have hrecycled : (s.effect (.recycle i req outcome)).held p =
          (s.enqueueFifo outcome.freeList req.freePage).held p := rfl
      have hreturned : s.pipe.returned p (.recycle i) = one (req.freePage == p) := by
        simp only [Pipeline.returned, henabled.1, MigrationReq.borrows]
      simp only [MachineAction.pipeAction, Option.map_some, Option.getD_some, hreturned]
      rw [hrecycled]
      exact held_enqueueFifo s outcome.freeList req.freePage p
  | pipeline action =>
      cases action with
      | recycle => cases henabled
      | submit => cases henabled
      | _ => rfl

/-- Step lemma: a step moves structs between places, and loses at most the
page of the record that it drains. -/
theorem places_step {s next : Machine} {action : MachineAction} (hplaced : s.Placed)
    (hstep : machineStep s action = some next) (p : PageId) :
    next.places p + one (s.loses p action) = s.places p := by
  obtain ⟨-, henabled, ⟨hfails, rfl⟩ | ⟨hasserts, pipe, hpipe, rfl⟩⟩ := step_cases hstep
  · have hloses : s.loses p action = false := by
      cases action with
      | drain mp =>
          have hadd : mp.free = false := by
            by_contra hfree
            exact hfails fun hadd => absurd hadd hfree
          simp [loses, ModPage.frees, hadd]
      | _ => rfl
    rw [hloses]
    rfl
  · have hheld := held_effect hplaced henabled hasserts p
    have hborrowed := Pipeline.borrowed_advance hpipe p
    have hplaces : ((s.effect action).setPipe pipe).places p =
        (s.effect action).held p + pipe.borrowed p := rfl
    rw [hplaces, places_eq]
    omega

theorem keyed_effect {s : Machine} {action : MachineAction} (hplaced : s.Placed)
    (henabled : s.Enabled action) {va : Va} {p : PageId}
    (hpages : (s.effect action).pages va = some p) : ((s.effect action).page p).va = va := by
  cases action with
  | setVa c v q =>
      have hkey := hplaced.keyed va p hpages
      have howns : (Client.mapped v q).owns q = true := by simp [Client.owns]
      have huntracked := hplaced.not_tracked henabled howns
      have hpq : p ≠ q := by
        rintro rfl
        have hpagesOld : s.pages va = some p := hpages
        simp [tracked, hkey, hpagesOld] at huntracked
      simpa [effect, setClient, setPage, hpq] using hkey
  | addToPages c q =>
      by_cases hva : va = (s.page q).va
      · subst hva
        have hqp : q = p := by simpa [effect, setClient] using hpages
        rw [hqp]
        rfl
      · simp only [effect, setClient, Function.update_of_ne hva] at hpages
        exact hplaced.keyed va p hpages
  | deleteFromPages c v q =>
      by_cases hva : va = (s.page q).va
      · subst hva
        simp [effect, setClient] at hpages
      · simp only [effect, setClient, Function.update_of_ne hva] at hpages
        exact hplaced.keyed va p hpages
  | _ =>
      rw [pages_effect (by simp) (by simp)] at hpages
      rw [va_effect p (by simp)]
      exact hplaced.keyed va p hpages

theorem Placed.step {s next : Machine} {action : MachineAction} (hplaced : s.Placed)
    (hstep : machineStep s action = some next) : next.Placed := by
  constructor
  · intro p
    have honce := hplaced.once p
    have hplaces := places_step hplaced hstep p
    omega
  · intro va p hpages
    obtain ⟨-, henabled, ⟨-, rfl⟩ | ⟨hasserts, pipe, hpipe, rfl⟩⟩ := step_cases hstep
    · exact hplaced.keyed va p hpages
    · exact keyed_effect hplaced henabled hpages

/-! ## The initial state -/

/-- The number of page structs that `pebs_init` creates. -/
def total (s : Machine) : ℕ := s.dramsize / pageSize + s.nvmsize / pageSize

theorem places_pebsInit (dramsize nvmsize workers clients : ℕ) (p : PageId) :
    (pebsInit dramsize nvmsize workers clients).places p =
      one (decide (p < dramsize / pageSize + nvmsize / pageSize)) := by
  have hfree : (pebsInit dramsize nvmsize workers clients).freeCount p =
      one (decide (p < dramsize / pageSize + nvmsize / pageSize)) := by
    simp only [freeCount, pebsInit, List.count_range, List.count_range_1', one,
      decide_eq_true_eq]
    grind
  have hborrowed : (pipelineInit workers).borrowed p = 0 := by
    simp [Pipeline.borrowed, pipelineInit, List.countP_replicate, Worker.borrows]
  have howned : (pebsInit dramsize nvmsize workers clients).ownedCount p = 0 := by
    simp [ownedCount, pebsInit, List.countP_replicate, Client.owns]
  have hrest : (pebsInit dramsize nvmsize workers clients).places p =
      (pebsInit dramsize nvmsize workers clients).freeCount p +
        (pebsInit dramsize nvmsize workers clients).ownedCount p + 0 + 0 +
          (pipelineInit workers).borrowed p := rfl
  omega

theorem placed_pebsInit (dramsize nvmsize workers clients : ℕ) :
    (pebsInit dramsize nvmsize workers clients).Placed := by
  constructor
  · intro p
    rw [places_pebsInit]
    unfold one
    split <;> omega
  · intro va p hpages
    cases hpages

end Machine

end ArmsTiering
