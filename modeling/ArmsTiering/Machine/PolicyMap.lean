import ArmsTiering.Core.DelayedMap
import ArmsTiering.Machine.Blocks
import ArmsTiering.Machine.Presence

/-!
# The policy thread's map

`pages_map` lags behind `pages` by the records in `mod_page_dq`.  A record names
a struct only, and the drain reads the struct's `va`: that a struct with a
record cannot be faulted in again keeps the address unchanged until then.
-/

namespace ArmsTiering

open Counting DelayedMap

def ModPage.adds (p : PageId) (mp : ModPage) : Bool := !mp.free && mp.page == p

namespace Machine

/-- The edit of `pages_map` that a record stands for now. -/
def edit (s : Machine) (mp : ModPage) : Edit Va PageId :=
  ⟨(s.page mp.page).va, mp.page, mp.free⟩

def edits (s : Machine) : List (Edit Va PageId) := s.modPageDq.map s.edit

def pendingAddCount (s : Machine) (p : PageId) : ℕ := s.modPageDq.countP (ModPage.adds p)

/-- `pages_map` has the struct. -/
def inMap (s : Machine) (p : PageId) : Bool := s.pagesMap (s.page p).va == some p

/-- What holds while insertions into `pages`, and deletions, go together with
the pushes of their records. -/
structure Synced (s : Machine) : Prop where
  applied : applyAll s.pagesMap s.edits = s.pages
  fit : AllFit s.pagesMap s.edits
  keyed : ∀ key p, s.pagesMap key = some p → (s.page p).va = key
  /-- what the policy thread has, or is about to get, is tracked or removed -/
  balanced : ∀ p,
    one (s.inMap p) + s.pendingAddCount p = one (s.tracked p) + s.pendingFreeCount p
  history : s.removed = s.freed ++ (s.modPageDq.filter ModPage.free).map ModPage.page

theorem synced_pebsInit (dramsize nvmsize workers clients : ℕ) :
    (pebsInit dramsize nvmsize workers clients).Synced where
  applied := rfl
  fit := trivial
  keyed := fun key p hkey => by cases hkey
  balanced := fun p => rfl
  history := rfl

/-- A struct that is neither tracked nor waits in a free record is unknown to
the policy thread. -/
theorem Synced.unknown {s : Machine} (hsynced : s.Synced) {p : PageId}
    (hnone : one (s.tracked p) + s.pendingFreeCount p = 0) :
    s.inMap p = false ∧ ∀ mp ∈ s.modPageDq, mp.page ≠ p := by
  have hbalanced := hsynced.balanced p
  have hfree : s.pendingFreeCount p = 0 := by omega
  have hadd : s.pendingAddCount p = 0 := by omega
  refine ⟨?_, ?_⟩
  · cases hinMap : s.inMap p with
    | false => rfl
    | true =>
        rw [hinMap, one_true] at hbalanced
        omega
  · rintro mp hmem rfl
    rw [pendingFreeCount, List.countP_eq_zero] at hfree
    rw [pendingAddCount, List.countP_eq_zero] at hadd
    have hnotFree := hfree mp hmem
    have hnotAdd := hadd mp hmem
    simp only [ModPage.frees, ModPage.adds, beq_self_eq_true, Bool.and_true] at hnotFree hnotAdd
    simp [Bool.eq_false_iff.mpr hnotFree] at hnotAdd

/-! ## Steps of neither -/

/-- The step has not touched the maps, the queue and the addresses. -/
structure SameBooks (s t : Machine) : Prop where
  pages : t.pages = s.pages
  pagesMap : t.pagesMap = s.pagesMap
  modPageDq : t.modPageDq = s.modPageDq
  removed : t.removed = s.removed
  freed : t.freed = s.freed

theorem sameBooks_effect (s : Machine) {action : MachineAction}
    (hbooks : action.inBooks = false) (hdrain : ∀ mp, action ≠ .drain mp) :
    SameBooks s (s.effect action) := by
  cases action with
  | drain mp => exact absurd rfl (hdrain mp)
  | addToPages | pushAdd | deleteFromPages | pushFree => cases hbooks
  | _ => exact ⟨rfl, rfl, rfl, rfl, rfl⟩

/-- A struct changes its address only while the policy thread does not know it. -/
theorem SameBooks.synced {s t : Machine} (hsame : SameBooks s t) (hsynced : s.Synced)
    (hva : ∀ p, (t.page p).va = (s.page p).va ∨
      s.inMap p = false ∧ (∀ mp ∈ s.modPageDq, mp.page ≠ p) ∧ t.tracked p = s.tracked p ∧
        t.inMap p = false) :
    t.Synced := by
  have hedits : t.edits = s.edits := by
    rw [edits, edits, hsame.modPageDq]
    refine List.map_congr_left fun mp hmem => ?_
    obtain hva | ⟨-, hnone, -⟩ := hva mp.page
    · simp [edit, hva]
    · exact absurd rfl (hnone mp hmem)
  constructor
  · rw [hsame.pagesMap, hedits, hsame.pages]
    exact hsynced.applied
  · rw [hsame.pagesMap, hedits]
    exact hsynced.fit
  · intro key p hkey
    rw [hsame.pagesMap] at hkey
    have hold := hsynced.keyed key p hkey
    obtain hva | ⟨hnot, -⟩ := hva p
    · rw [hva, hold]
    · simp [Machine.inMap, hold, hkey] at hnot
  · intro p
    have hbalanced := hsynced.balanced p
    have hcounts : t.pendingAddCount p = s.pendingAddCount p ∧
        t.pendingFreeCount p = s.pendingFreeCount p := by
      simp only [pendingAddCount, pendingFreeCount, hsame.modPageDq, and_self]
    have hinMap : t.inMap p = s.inMap p := by
      obtain hva | ⟨hnot, -, -, hnext⟩ := hva p
      · simp only [Machine.inMap, hsame.pagesMap, hva]
      · rw [hnot, hnext]
    have htracked : t.tracked p = s.tracked p := by
      obtain hva | ⟨-, -, hnext, -⟩ := hva p
      · simp only [Machine.tracked, hsame.pages, hva]
      · exact hnext
    rw [hinMap, htracked, hcounts.1, hcounts.2]
    exact hbalanced
  · rw [hsame.removed, hsame.freed, hsame.modPageDq]
    exact hsynced.history

theorem Synced.setVa {s : Machine} (hplaced : s.Placed) (hsynced : s.Synced) {c : ℕ} {va : Va}
    {p : PageId} (hclient : s.clients[c]? = some (.mapped va p)) :
    (s.effect (.setVa c va p)).Synced := by
  have howns : (Client.mapped va p).owns p = true := by simp [Client.owns]
  have honce := hplaced.once p
  have howned : 0 < s.ownedCount p := one_le_countP hclient howns
  unfold places at honce
  obtain ⟨hunknown, hnone⟩ := hsynced.unknown (show one (s.tracked p) + s.pendingFreeCount p = 0 by omega)
  refine (sameBooks_effect s rfl (by simp)).synced hsynced fun q => ?_
  by_cases hqp : q = p
  · subst hqp
    have htracked := tracked_setVa hplaced hclient
      (fun page => { page with va := va, migrating := false }) (fun _ => rfl) q
    refine Or.inr ⟨hunknown, hnone, htracked, ?_⟩
    simp only [Machine.inMap, beq_eq_false_iff_ne]
    intro hkey
    have hold := hsynced.keyed _ q hkey
    simp only [Machine.inMap, hold, beq_eq_false_iff_ne] at hunknown
    exact hunknown hkey
  · exact Or.inl (by simp [effect, setClient, setPage, hqp])

/-! ## Records -/

/-- Applying a record that fits adds the struct to a map, or takes it out. -/
theorem has_apply {s : Machine} {map : Va → Option PageId} {mp : ModPage}
    (hfits : map (s.page mp.page).va = if mp.free then some mp.page else none) (p : PageId) :
    one (apply map (s.edit mp) (s.page p).va == some p) + one (mp.frees p) =
      one (map (s.page p).va == some p) + one (mp.adds p) := by
  simp only [apply, edit]
  by_cases hva : (s.page p).va = (s.page mp.page).va
  · rw [hva, Function.update_self, hfits]
    by_cases hfree : mp.free = true <;> by_cases hpage : mp.page = p <;>
      simp [ModPage.frees, ModPage.adds, hfree, hpage, one]
  · have hpage : mp.page ≠ p := by
      rintro rfl
      exact hva rfl
    rw [Function.update_of_ne hva]
    simp [ModPage.frees, ModPage.adds, hpage, one]

/-- The state after `pages` has been edited and the record pushed. -/
structure PushSpec (s : Machine) (mp : ModPage) (t : Machine) : Prop where
  fits : s.pages (s.page mp.page).va = if mp.free then some mp.page else none
  pages : t.pages = apply s.pages (s.edit mp)
  pagesMap : t.pagesMap = s.pagesMap
  modPageDq : t.modPageDq = s.modPageDq ++ [mp]
  va : ∀ p, (t.page p).va = (s.page p).va
  removed : t.removed = s.removed ++ if mp.free then [mp.page] else []
  freed : t.freed = s.freed

theorem PushSpec.synced {s t : Machine} {mp : ModPage} (hspec : PushSpec s mp t)
    (hsynced : s.Synced) : t.Synced := by
  have hedit : t.edit = s.edit := by
    funext other
    simp [edit, hspec.va]
  have hedits : t.edits = s.edits ++ [s.edit mp] := by
    rw [edits, edits, hspec.modPageDq, hedit, List.map_append]
    rfl
  constructor
  · rw [hspec.pagesMap, hedits, applyAll_push, hsynced.applied, hspec.pages]
  · rw [hspec.pagesMap, hedits]
    refine hsynced.fit.push ?_
    rw [hsynced.applied]
    exact hspec.fits
  · intro key p hkey
    rw [hspec.pagesMap] at hkey
    rw [hspec.va]
    exact hsynced.keyed key p hkey
  · intro p
    have hbalanced := hsynced.balanced p
    have htracked := has_apply hspec.fits p
    have hadds := countP_append_singleton (ModPage.adds p) s.modPageDq mp
    have hfrees := countP_append_singleton (ModPage.frees p) s.modPageDq mp
    simp only [Machine.inMap, Machine.tracked, pendingAddCount, pendingFreeCount, hspec.pagesMap,
      hspec.va, hspec.pages, hspec.modPageDq] at hbalanced ⊢
    omega
  · rw [hspec.removed, hspec.freed, hspec.modPageDq, hsynced.history]
    cases hfree : mp.free <;> simp [hfree]

theorem Synced.add {s final : Machine} (hsynced : s.Synced) {c : ℕ} {p : PageId}
    (hrun : runBlock s [.addToPages c p, .pushAdd c p] = some final) : final.Synced := by
  obtain ⟨-, -, ⟨-, rfl⟩ | ⟨habsent, -⟩⟩ := runBlock_cases hrun
  · exact ⟨hsynced.applied, hsynced.fit, hsynced.keyed, hsynced.balanced, hsynced.history⟩
  · obtain ⟨-, hrun⟩ := runBlock_cons_quiet hrun habsent rfl
    obtain ⟨-, hrun⟩ := runBlock_cons_quiet hrun trivial rfl
    obtain rfl := Option.some.inj hrun
    have hspec : PushSpec s ⟨p, false⟩
        ((s.effect (.addToPages c p)).effect (.pushAdd c p)) := by
      refine ⟨habsent, ?_, ?_, ?_, ?_, ?_, ?_⟩
      all_goals simp [effect, apply, edit]
    exact hspec.synced hsynced

theorem Synced.remove {s final : Machine} (hplaced : s.Placed) (hsynced : s.Synced) {c : ℕ}
    {va : Va} {p : PageId}
    (hrun : runBlock s [.deleteFromPages c va p, .pushFree c va p] = some final) :
    final.Synced := by
  obtain ⟨-, hdelete, -⟩ := runBlock_cases hrun
  have hkey := hplaced.keyed va p hdelete.2
  have hfound : s.pages (s.page p).va = some p := by rw [hkey, hdelete.2]
  have hasserts : s.Asserts (.deleteFromPages c va p) := by simp [Asserts, hfound]
  obtain ⟨-, hrun⟩ := runBlock_cons_quiet hrun hasserts rfl
  obtain ⟨-, hrun⟩ := runBlock_cons_quiet hrun trivial rfl
  obtain rfl := Option.some.inj hrun
  have hspec : PushSpec s ⟨p, true⟩
      ((s.effect (.deleteFromPages c va p)).effect (.pushFree c va p)) := by
    refine ⟨hfound, ?_, ?_, ?_, ?_, ?_, ?_⟩
    all_goals simp [effect, apply, edit]
  exact hspec.synced hsynced

/-- The drained record fits `pages_map`: an added page is absent, a removed page
is found, under its own key. -/
theorem Synced.drain_fits {s : Machine} (hsynced : s.Synced) {mp : ModPage}
    (hhead : s.modPageDq.head? = some mp) :
    s.pagesMap (s.page mp.page).va = if mp.free then some mp.page else none := by
  obtain ⟨rest, hqueue⟩ := List.head?_eq_some_iff.mp hhead
  have hfit := hsynced.fit
  rw [edits, hqueue] at hfit
  exact hfit.1

/-- The state after a drain whose record fits. -/
structure DrainSpec (s : Machine) (mp : ModPage) (t : Machine) : Prop where
  queue : s.modPageDq = mp :: t.modPageDq
  pages : t.pages = s.pages
  pagesMap : t.pagesMap = apply s.pagesMap (s.edit mp)
  va : ∀ p, (t.page p).va = (s.page p).va
  removed : t.removed = s.removed
  freed : t.freed = s.freed ++ if mp.free then [mp.page] else []

theorem Synced.drainFrees {s : Machine} (hsynced : s.Synced) {mp : ModPage}
    (hhead : s.modPageDq.head? = some mp) : s.drainFrees mp = mp.free := by
  have hfits := hsynced.drain_fits hhead
  cases hfree : mp.free <;> simp [Machine.drainFrees, hfits, hfree]

theorem Synced.drainSpec {s : Machine} (hsynced : s.Synced) {mp : ModPage}
    (hhead : s.modPageDq.head? = some mp) : DrainSpec s mp (s.effect (.drain mp)) where
  queue := by
    obtain ⟨rest, hqueue⟩ := List.head?_eq_some_iff.mp hhead
    simp [effect, hqueue]
  pages := rfl
  pagesMap := rfl
  va := fun p => va_effect p (by simp)
  removed := rfl
  freed := by
    simp only [effect, hsynced.drainFrees hhead]
    cases mp.free <;> simp

theorem DrainSpec.synced {s t : Machine} {mp : ModPage} (hspec : DrainSpec s mp t)
    (hsynced : s.Synced) : t.Synced := by
  have hhead : s.modPageDq.head? = some mp := by rw [hspec.queue]; rfl
  have hfits := hsynced.drain_fits hhead
  have hedit : t.edit = s.edit := by
    funext other
    simp [edit, hspec.va]
  have hedits : s.edits = s.edit mp :: t.edits := by
    rw [edits, edits, hspec.queue, hedit]
    rfl
  constructor
  · rw [hspec.pagesMap, hspec.pages, ← hsynced.applied, hedits]
    rfl
  · have hfit := hsynced.fit
    rw [hedits] at hfit
    rw [hspec.pagesMap]
    exact hfit.2
  · intro key p hkey
    rw [hspec.va]
    simp only [hspec.pagesMap, apply, edit, Function.update_apply] at hkey
    by_cases hva : key = (s.page mp.page).va
    · by_cases hfree : mp.free = true
      · simp [hva, hfree] at hkey
      · obtain rfl : mp.page = p := by simpa [hva, hfree] using hkey
        exact hva.symm
    · rw [if_neg hva] at hkey
      exact hsynced.keyed key p hkey
  · intro p
    have hbalanced := hsynced.balanced p
    have hinMap := has_apply hfits p
    have hadds := countP_cons (ModPage.adds p) mp t.modPageDq
    have hfrees := countP_cons (ModPage.frees p) mp t.modPageDq
    simp only [Machine.inMap, Machine.tracked, pendingAddCount, pendingFreeCount, hspec.pagesMap,
      hspec.va, hspec.pages, hspec.queue] at hbalanced ⊢
    omega
  · have hhistory := hsynced.history
    rw [hspec.queue] at hhistory
    rw [hspec.removed, hspec.freed, hhistory]
    cases hfree : mp.free <;> simp [hfree]

/-! ## Runs -/

theorem Synced.step {s next : Machine} {action : MachineAction} (hplaced : s.Placed)
    (hsynced : s.Synced) (hbooks : action.inBooks = false)
    (hstep : machineStep s action = some next) : next.Synced := by
  obtain ⟨-, henabled, ⟨-, rfl⟩ | ⟨-, pipe, -, rfl⟩⟩ := step_cases hstep
  · exact ⟨hsynced.applied, hsynced.fit, hsynced.keyed, hsynced.balanced, hsynced.history⟩
  · have heffect : (s.effect action).Synced := by
      cases action with
      | setVa c va p => exact hsynced.setVa hplaced henabled
      | drain mp => exact (hsynced.drainSpec henabled.2).synced hsynced
      | _ =>
          refine (sameBooks_effect s hbooks (by simp)).synced hsynced fun p => Or.inl ?_
          exact va_effect p (by simp)
    exact ⟨heffect.applied, heffect.fit, heffect.keyed, heffect.balanced, heffect.history⟩

theorem Placed.block {s final : Machine} (hplaced : s.Placed) {actions : List MachineAction}
    (hrun : runBlock s actions = some final) : final.Placed :=
  runBlock_preserves Placed (fun _ _ _ _ hplaced hnext => hplaced.step hnext) hplaced hrun

theorem Synced.block {s final : Machine} (hplaced : s.Placed) (hsynced : s.Synced)
    {actions : List MachineAction} (hbooks : ∀ action ∈ actions, action.inBooks = false)
    (hrun : runBlock s actions = some final) : final.Synced := by
  refine (runBlock_preserves (fun t => t.Placed ∧ t.Synced) ?_ ⟨hplaced, hsynced⟩ hrun).2
  intro t action next hmem hinv hnext
  exact ⟨hinv.1.step hnext, hinv.2.step hinv.1 (hbooks action hmem) hnext⟩

/-- A fault handler's block, with the insertion and the push at its end. -/
theorem Synced.fault {s final : Machine} (hplaced : s.Placed) (hsynced : s.Synced) {c : ℕ} {va : Va}
    {list : FreeList} {p : PageId} (hrun : runBlock s (faultActions c va list p) = some final) :
    final.Synced := by
  have hsplit : faultActions c va list p =
      [.allocate c va list p, .zeroAndMap c va p, .setVa c va p] ++
        [.addToPages c p, .pushAdd c p] := rfl
  rw [hsplit] at hrun
  obtain ⟨middle, hfirst, hsecond⟩ := runBlock_append hrun
  have hmiddle := hsynced.block hplaced (by simp [MachineAction.inBooks]) hfirst
  obtain ⟨-, rfl⟩ | hsecond := hsecond
  · exact hmiddle
  · exact hmiddle.add hsecond

/-- A removal, with the deletion and the push at its start. -/
theorem Synced.removal {s final : Machine} (hplaced : s.Placed) (hsynced : s.Synced) {c : ℕ}
    {va : Va} {p : PageId} (hrun : runBlock s (removeActions c va p) = some final) :
    final.Synced := by
  have hsplit : removeActions c va p =
      [.deleteFromPages c va p, .pushFree c va p] ++ [.clearPresent c va p, .unmap c va] := rfl
  rw [hsplit] at hrun
  obtain ⟨middle, hfirst, hsecond⟩ := runBlock_append hrun
  have hmiddle := hsynced.remove hplaced hfirst
  obtain ⟨-, rfl⟩ | hsecond := hsecond
  · exact hmiddle
  · exact hmiddle.block (hplaced.block hfirst) (by simp [MachineAction.inBooks]) hsecond

/-- The policy thread's map is `pages` but for the records in the queue. -/
structure DelayedPages (s : Machine) : Prop where
  applied : applyAll s.pagesMap s.edits = s.pages
  /-- the drain finds the key of an added page absent and a removed page under its key -/
  drains : ∀ mp, s.modPageDq.head? = some mp →
    s.pagesMap (s.page mp.page).va = if mp.free then some mp.page else none
  /-- in the order of the removals, each page is put on a free list once -/
  freedOnce : s.removed = s.freed ++ (s.modPageDq.filter ModPage.free).map ModPage.page
  notFree : ∀ key p list, s.pagesMap key = some p → p ∉ s.freeList list

theorem Synced.known {s : Machine} (hplaced : s.Placed) (hsynced : s.Synced) {key : Va}
    {p : PageId} (hkey : s.pagesMap key = some p) : s.freeCount p = 0 ∧ s.pipe.borrowed p = 0 := by
  have hva := hsynced.keyed key p hkey
  have hinMap : s.inMap p = true := by simp [Machine.inMap, hva, hkey]
  have hbalanced := hsynced.balanced p
  rw [hinMap, one_true] at hbalanced
  have honce := hplaced.once p
  unfold places at honce
  omega

theorem Synced.delayedPages {s : Machine} (hplaced : s.Placed) (hsynced : s.Synced) :
    s.DelayedPages where
  applied := hsynced.applied
  drains := fun mp hhead => hsynced.drain_fits hhead
  freedOnce := hsynced.history
  notFree := fun key p list hkey hmem => by
    have hnone := (hsynced.known hplaced hkey).1
    have hfree := freeCount_pos hmem
    omega

end Machine

theorem synced_bookStep {s next : Machine} {action : BookAction}
    (hinv : s.Placed ∧ s.Synced) (hstep : bookStep s action = some next) :
    next.Placed ∧ next.Synced := by
  obtain ⟨hplaced, hsynced⟩ := hinv
  cases action with
  | add c p => exact ⟨hplaced.block hstep, hsynced.add hstep⟩
  | remove c va p => exact ⟨hplaced.block hstep, hsynced.remove hplaced hstep⟩
  | other action =>
      simp only [bookStep] at hstep
      split at hstep
      · cases hstep
      · rename_i hbooks
        exact ⟨hplaced.step hstep, hsynced.step hplaced (Bool.eq_false_iff.mpr hbooks) hstep⟩

/-- Whatever the threads do meanwhile, the policy thread's map is the set of
tracked pages, delayed by the queue. -/
theorem delayedPages_of_bookSteps (dramsize nvmsize workers clients : ℕ)
    (actions : List BookAction) :
    Transition.Along bookStep Machine.DelayedPages (pebsInit dramsize nvmsize workers clients)
      actions := by
  refine Transition.along_of_step (fun s => s.Placed ∧ s.Synced) ?_ ?_
    ⟨Machine.placed_pebsInit .., Machine.synced_pebsInit ..⟩
  · intro s hinv
    exact hinv.2.delayedPages hinv.1
  · intro s action next hinv hstep
    exact synced_bookStep hinv hstep

end ArmsTiering
