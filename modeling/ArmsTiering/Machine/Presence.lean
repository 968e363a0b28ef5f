import ArmsTiering.Machine.FreeLists

/-!
# Which structs are present

Every struct that a client thread owns, that `pages` tracks, or that waits for
its remover to clear `present`, is present; and a pending free record of a
present struct means that its remover is not done yet.
-/

namespace ArmsTiering

open Counting

/-- The thread is about to clear the struct's `present`. -/
def Client.clears (p : PageId) : Client → Bool
  | .pushed _ q => q == p
  | _ => false

/-- The address at which the thread removes the struct. -/
def Client.removesAt (p : PageId) : Client → Option Va
  | .deleted va q | .pushed va q => if q = p then some va else none
  | _ => none

namespace Machine

theorem client_of_move {s : Machine} {action : MachineAction} (henabled : s.Enabled action)
    {c : ℕ} {old new : Client} (hmove : action.clientMove = some (c, old, new)) :
    s.clients[c]? = some old := by
  cases action <;> cases hmove
  case allocate => exact henabled.1
  case deleteFromPages => exact henabled.1
  case clearPresent => exact henabled.1
  all_goals exact henabled

/-- What one client's move changes in a count over the client threads. -/
theorem countP_clients (holds : Client → Bool) {s : Machine} {action : MachineAction}
    (henabled : s.Enabled action) :
    (s.effect action).clients.countP holds +
        (action.clientMove.map fun move => one (holds move.2.1)).getD 0 =
      s.clients.countP holds +
        (action.clientMove.map fun move => one (holds move.2.2)).getD 0 := by
  rw [clients_effect]
  cases hmove : action.clientMove with
  | none => rfl
  | some move =>
      obtain ⟨c, old, new⟩ := move
      exact countP_set holds (client_of_move henabled hmove) new

def clearingCount (s : Machine) (p : PageId) : ℕ := s.clients.countP (Client.clears p)

/-- Someone relies on the struct being present. -/
def Needed (s : Machine) (p : PageId) : Prop :=
  0 < s.ownedCount p + one (s.tracked p) + s.clearingCount p

structure Presence (s : Machine) : Prop where
  needed : ∀ p, s.Needed p → (s.page p).present = true
  /-- a struct whose remover is not done is nowhere but in its free record -/
  apart : ∀ p, s.clearingCount p + s.places p ≤ 1 + s.pendingFreeCount p
  awaited : ∀ p, (s.page p).present = true → s.pendingFreeCount p ≤ s.clearingCount p
  removed : ∀ client ∈ s.clients, ∀ p va, client.removesAt p = some va → (s.page p).va = va

/-! ## Counts -/

/-- Frees queued by the acting thread. -/
def pushedFree (p : PageId) : MachineAction → ℕ
  | .pushFree _ _ q => one (q == p)
  | _ => 0

/-- Free records that the policy thread takes off the queue. -/
def drainedFree (p : PageId) : MachineAction → ℕ
  | .drain mp => one (mp.frees p)
  | _ => 0

theorem pendingFreeCount_effect {s : Machine} {action : MachineAction}
    (henabled : s.Enabled action) (p : PageId) :
    (s.effect action).pendingFreeCount p + drainedFree p action =
      s.pendingFreeCount p + pushedFree p action := by
  cases action with
  | pushAdd c q =>
      have hpushed := countP_append_singleton (ModPage.frees p) s.modPageDq ⟨q, false⟩
      exact hpushed
  | pushFree c va q => exact countP_append_singleton (ModPage.frees p) s.modPageDq ⟨q, true⟩
  | drain mp => exact pendingFreeCount_tail henabled.2 p
  | _ => rfl

/-- The structs that `pages` gains and loses in a step. -/
theorem tracked_effect {s : Machine} {action : MachineAction} (hplaced : s.Placed)
    (henabled : s.Enabled action) (hasserts : s.Asserts action) (p : PageId) :
    one ((s.effect action).tracked p) +
        (match action with
        | .deleteFromPages _ _ q => one (q == p)
        | _ => 0) =
      one (s.tracked p) +
        match action with
        | .addToPages _ q => one (q == p)
        | _ => 0 := by
  cases action with
  | setVa c va q =>
      have htracked := tracked_setVa hplaced henabled
        (fun page => { page with va := va, migrating := false }) (fun _ => rfl) p
      exact congrArg one htracked
  | addToPages c q => exact tracked_addToPages hasserts p
  | deleteFromPages c va q =>
      have hkey := hplaced.keyed va q henabled.2
      exact tracked_deleteFromPages (by rw [hkey, henabled.2]) p
  | _ =>
      simp only [tracked]
      rw [pages_effect (by simp) (by simp), va_effect p (by simp)]

theorem needed_effect {s : Machine} {action : MachineAction} (hplaced : s.Placed)
    (henabled : s.Enabled action) (hasserts : s.Asserts action) {p : PageId}
    (hneeded : (s.effect action).Needed p) :
    s.Needed p ∨ ∃ c va list, action = .allocate c va list p := by
  have howned := countP_clients (Client.owns p) henabled
  have hclearing := countP_clients (Client.clears p) henabled
  have htracked := tracked_effect hplaced henabled hasserts p
  simp only [Needed, ownedCount, clearingCount] at hneeded ⊢
  cases action with
  | allocate c va list q =>
      by_cases hqp : q = p
      · subst hqp
        exact Or.inr ⟨c, va, list, rfl⟩
      · have hother : one (q == p) = 0 := by simp [hqp, one]
        simp only [MachineAction.clientMove, Option.map_some, Option.getD_some, Client.owns,
          Client.clears, one_false, hother] at howned hclearing htracked
        exact Or.inl (by omega)
  | _ =>
      simp only [MachineAction.clientMove, Option.map_some, Option.map_none, Option.getD_some,
        Option.getD_none, Client.owns, Client.clears, one_false] at howned hclearing htracked
      exact Or.inl (by omega)

/-- A struct whose remover is not done is needed by no one else. -/
theorem Presence.not_needed_of_cleared {s : Machine} (hpresence : s.Presence) {c : ℕ} {va : Va}
    {p : PageId} (hclient : s.clients[c]? = some (.pushed va p)) :
    s.ownedCount p = 0 ∧ s.tracked p = false ∧ s.clearingCount p = 1 := by
  have hapart := hpresence.apart p
  have hclearing : 0 < s.clearingCount p := one_le_countP hclient (by simp [Client.clears])
  cases htracked : s.tracked p <;>
    simp only [places, htracked, one_false, one_true] at hapart <;> grind

theorem Presence.needed_step {s : Machine} {action : MachineAction} (hplaced : s.Placed)
    (htiers : s.Tiers) (hpresence : s.Presence) (henabled : s.Enabled action)
    (hasserts : s.Asserts action) {p : PageId} (hneeded : (s.effect action).Needed p) :
    ((s.effect action).page p).present = true := by
  obtain hold | ⟨c, va, list, rfl⟩ := needed_effect hplaced henabled hasserts hneeded
  · have hpresent := hpresence.needed p hold
    have hsame : action.moved ≠ some p → ((s.effect action).page p).present = true := fun hmoved =>
      (sameLocation_effect s hmoved).2.1.trans hpresent
    cases action with
    | allocate c va list q =>
        by_cases hqp : q = p
        · simp [effect, setClient, setPage, hqp]
        · exact hsame (by simpa [MachineAction.moved] using hqp)
    | clearPresent c va q =>
        refine hsame fun hmoved => ?_
        obtain rfl : q = p := Option.some.inj hmoved
        obtain ⟨howned, htracked, hclearing⟩ := hpresence.not_needed_of_cleared henabled.1
        have hcount := countP_clients (Client.clears q) henabled
        have hcountOwned := countP_clients (Client.owns q) henabled
        simp only [MachineAction.clientMove, Option.map_some, Option.getD_some, Client.owns,
          Client.clears, one_false, beq_self_eq_true, one_true] at hcount hcountOwned
        have htrackedNext := tracked_effect hplaced henabled hasserts q
        simp only [htracked, one_false] at htrackedNext
        simp only [Needed, ownedCount, clearingCount] at *
        omega
    | remap i half req oldOffset =>
        by_cases hmoved : half.page req = p
        · simpa [effect, setStage, setPage, mapFrame, hmoved] using hpresent
        · exact hsame (by simpa [MachineAction.moved] using hmoved)
    | give i half req oldOffset =>
        refine hsame fun hmoved => ?_
        obtain rfl : req.freePage = p := Option.some.inj hmoved
        have hlent := htiers.lent _ _ (Or.inr ⟨i, _, henabled.1, half.demand_worker req⟩)
        rw [hlent.2] at hpresent
        cases hpresent
    | _ => exact hsame (by simp [MachineAction.moved])
  · simp [effect, setClient, setPage]

theorem Presence.apart_step {s next : Machine} {action : MachineAction} (hplaced : s.Placed)
    (hpresence : s.Presence) (hcleared : s.DrainsCleared action)
    (hstep : machineStep s action = some next) (p : PageId) :
    next.clearingCount p + next.places p ≤ 1 + next.pendingFreeCount p := by
  have hapart := hpresence.apart p
  have honce := hplaced.once p
  have hplaces := places_step hplaced hstep p
  obtain ⟨-, henabled, ⟨-, rfl⟩ | ⟨hasserts, pipe, hpipe, rfl⟩⟩ := step_cases hstep
  · exact hapart
  · have hclearing := countP_clients (Client.clears p) henabled
    have hpending := pendingFreeCount_effect henabled p
    have hneeded := hpresence.needed p
    change (s.effect action).clients.countP (Client.clears p) +
      ((s.effect action).setPipe pipe).places p ≤ 1 + (s.effect action).pendingFreeCount p
    simp only [clearingCount] at hapart
    cases action with
    | drain mp =>
        simp only [MachineAction.clientMove, Option.map_none, Option.getD_none, drainedFree,
          pushedFree] at hclearing hpending
        by_cases hfrees : mp.frees p = true
        · simp only [hfrees, one_true] at hpending
          by_cases hfound : s.pagesMap (s.page mp.page).va = none
          · simp only [loses, hfrees, hfound, Option.isNone_none, Bool.and_self,
              one_true] at hplaces
            omega
          · -- the page is no longer present, so its remover is done
            obtain ⟨hfree, hpage⟩ : mp.free = true ∧ mp.page = p := by
              simpa [ModPage.frees] using hfrees
            have habsent : (s.page p).present = false := hpage ▸ hcleared hfree hfound
            rw [habsent] at hneeded
            simp only [Needed, clearingCount, Bool.false_eq_true, imp_false] at hneeded
            omega
        · have hkept : one (mp.frees p) = 0 := by simp [hfrees, one]
          omega
    | _ =>
        simp only [MachineAction.clientMove, Option.map_some, Option.map_none, Option.getD_some,
          Option.getD_none, Client.clears, one_false, drainedFree, pushedFree] at hclearing hpending
        omega

theorem Presence.awaited_step {s : Machine} {action : MachineAction} (hplaced : s.Placed)
    (hpresence : s.Presence) (henabled : s.Enabled action) {p : PageId}
    (hpresent : ((s.effect action).page p).present = true) :
    (s.effect action).pendingFreeCount p ≤ (s.effect action).clearingCount p := by
  have hclearing := countP_clients (Client.clears p) henabled
  have hpending := pendingFreeCount_effect henabled p
  have hawaited := hpresence.awaited p
  have hsame : action.moved ≠ some p → (s.page p).present = true := fun hmoved =>
    (sameLocation_effect s hmoved).2.1.symm.trans hpresent
  simp only [clearingCount] at hawaited ⊢
  cases action with
  | allocate c va list q =>
      simp only [MachineAction.clientMove, Option.map_some, Option.getD_some, Client.clears,
        one_false, drainedFree, pushedFree] at hclearing hpending
      by_cases hqp : q = p
      · subst hqp
        have honce := hplaced.once q
        have hfree := freeCount_pos (List.mem_of_mem_head? henabled.2.2.1)
        unfold places at honce
        omega
      · have hold := hawaited (hsame (by simpa [MachineAction.moved] using hqp))
        omega
  | clearPresent c va q =>
      simp only [MachineAction.clientMove, Option.map_some, Option.getD_some, Client.clears,
        one_false, drainedFree, pushedFree] at hclearing hpending
      by_cases hqp : q = p
      · subst hqp
        simp [effect, setClient, setPage] at hpresent
      · have hother : one (q == p) = 0 := by simp [hqp, one]
        have hold := hawaited (hsame (by simpa [MachineAction.moved] using hqp))
        omega
  | remap i half req oldOffset =>
      have hold : (s.page p).present = true := by
        by_cases hmoved : half.page req = p
        · simpa [effect, setStage, setPage, mapFrame, hmoved] using hpresent
        · exact hsame (by simpa [MachineAction.moved] using hmoved)
      exact hawaited hold
  | give i half req oldOffset =>
      by_cases hmoved : req.freePage = p
      · simp [effect, setStage, setPage, hmoved] at hpresent
      · exact hawaited (hsame (by simpa [MachineAction.moved] using hmoved))
  | _ =>
      simp only [MachineAction.clientMove, Option.map_some, Option.map_none, Option.getD_some,
        Option.getD_none, Client.clears, one_false, drainedFree, pushedFree] at hclearing hpending
      have hold := hawaited (hsame (by simp [MachineAction.moved]))
      omega

/-- A struct that is being removed is not in the hands of a fault handler. -/
theorem Presence.removesAt_ne {s : Machine} (hplaced : s.Placed) (hpresence : s.Presence)
    {c : ℕ} {handler client : Client} {p q : PageId} {va : Va}
    (hhandler : s.clients[c]? = some handler) (howns : handler.owns q = true)
    (hkeeps : ∀ r, handler.removesAt r = none) (hmem : client ∈ s.clients)
    (hremoves : client.removesAt p = some va) : p ≠ q := by
  rintro rfl
  have howned : 0 < s.ownedCount p := one_le_countP hhandler howns
  cases client with
  | deleted v r =>
      have hr : r = p := by
        by_contra hne
        simp [Client.removesAt, hne] at hremoves
      have honce : s.clients.countP (Client.owns p) ≤ 1 := by
        have hplaces := hplaced.once p
        simp only [places, ownedCount] at hplaces
        omega
      have hsame := eq_of_countP_le_one honce (List.mem_of_getElem? hhandler) hmem howns
        (by simp [Client.owns, hr])
      have hnone := hkeeps p
      rw [hsame, hremoves] at hnone
      cases hnone
  | pushed v r =>
      have hr : r = p := by
        by_contra hne
        simp [Client.removesAt, hne] at hremoves
      obtain ⟨i, hi⟩ := List.mem_iff_getElem?.mp hmem
      have hfree := (hpresence.not_needed_of_cleared (hr ▸ hi)).1
      omega
  | _ => cases hremoves

theorem Presence.removed_step {s : Machine} {action : MachineAction} (hplaced : s.Placed)
    (hpresence : s.Presence) (henabled : s.Enabled action) {client : Client} {p : PageId} {va : Va}
    (hmem : client ∈ (s.effect action).clients) (hremoves : client.removesAt p = some va) :
    ((s.effect action).page p).va = va := by
  rw [clients_effect] at hmem
  have hkept : client ∈ s.clients → (∀ c v q, action ≠ .setVa c v q) →
      ((s.effect action).page p).va = va := by
    intro hold hnot
    rw [va_effect p hnot]
    exact hpresence.removed client hold p va hremoves
  cases action with
  | setVa c v q =>
      obtain hold | rfl := List.mem_or_eq_of_mem_set hmem
      · have howns : (Client.mapped v q).owns q = true := by simp [Client.owns]
        have hne := hpresence.removesAt_ne hplaced henabled howns (fun _ => rfl) hold hremoves
        simpa [effect, setClient, setPage, hne] using
          hpresence.removed client hold p va hremoves
      · cases hremoves
  | deleteFromPages c v q =>
      obtain hold | rfl := List.mem_or_eq_of_mem_set hmem
      · exact hkept hold (by simp)
      · by_cases hqp : q = p
        · subst hqp
          obtain rfl : v = va := by simpa [Client.removesAt] using hremoves
          exact hplaced.keyed v q henabled.2
        · simp [Client.removesAt, hqp] at hremoves
  | pushFree c v q =>
      obtain hold | rfl := List.mem_or_eq_of_mem_set hmem
      · exact hkept hold (by simp)
      · exact hpresence.removed (.deleted v q) (List.mem_of_getElem? henabled) p va hremoves
  | allocate | zeroAndMap | addToPages | pushAdd | clearPresent | unmap =>
      obtain hold | rfl := List.mem_or_eq_of_mem_set hmem
      · exact hkept hold (by simp)
      · cases hremoves
  | _ => exact hkept hmem (by simp)

theorem Presence.step {s next : Machine} {action : MachineAction} (hplaced : s.Placed)
    (htiers : s.Tiers) (hpresence : s.Presence) (hcleared : s.DrainsCleared action)
    (hstep : machineStep s action = some next) : next.Presence := by
  have hapart := hpresence.apart_step hplaced hcleared hstep
  obtain ⟨-, henabled, ⟨-, rfl⟩ | ⟨hasserts, pipe, hpipe, rfl⟩⟩ := step_cases hstep
  · exact ⟨hpresence.needed, hpresence.apart, hpresence.awaited, hpresence.removed⟩
  · exact
      { needed := fun p hneeded =>
          hpresence.needed_step hplaced htiers henabled hasserts hneeded
        apart := hapart
        awaited := fun p hpresent => hpresence.awaited_step hplaced henabled hpresent
        removed := fun client hmem p va hremoves =>
          hpresence.removed_step hplaced henabled hmem hremoves }

theorem presence_pebsInit (dramsize nvmsize workers clients : ℕ) :
    (pebsInit dramsize nvmsize workers clients).Presence := by
  have hidle : ∀ client ∈ (pebsInit dramsize nvmsize workers clients).clients, client = .idle :=
    fun client hmem => List.eq_of_mem_replicate hmem
  have hzero : ∀ holds : Client → Bool, holds .idle = false →
      (pebsInit dramsize nvmsize workers clients).clients.countP holds = 0 := by
    intro holds hnot
    rw [List.countP_eq_zero]
    intro client hmem
    rw [hidle client hmem, hnot]
    simp
  constructor
  · intro p hneeded
    simp only [Needed, ownedCount, clearingCount, hzero _ (show Client.owns p .idle = false from rfl),
      hzero _ (show Client.clears p .idle = false from rfl)] at hneeded
    cases hneeded
  · intro p
    have honce := (placed_pebsInit dramsize nvmsize workers clients).once p
    simp only [clearingCount, hzero _ (show Client.clears p .idle = false from rfl)]
    omega
  · intro p hpresent
    cases hpresent
  · intro client hmem p va hremoves
    rw [hidle client hmem] at hremoves
    cases hremoves

end Machine

end ArmsTiering
