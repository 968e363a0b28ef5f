import ArmsTiering.Machine.Agreement
import ArmsTiering.Machine.Naming

/-!
# Atomic faults and removals

With faults and removals atomic, no drain and no worker meets a struct in
between.
-/

namespace ArmsTiering

open Counting DelayedMap

namespace Machine

theorem nextFree_cases {s : Machine} {list : FreeList} {p : PageId}
    (hnext : s.nextFree = some (list, p)) : (s.freeList list).head? = some p := by
  unfold nextFree at hnext
  split at hnext
  · rename_i q rest hdram
    cases hnext
    rw [hdram]
    rfl
  · obtain ⟨q, hhead, hpair⟩ := Option.map_eq_some_iff.mp hnext
    cases hpair
    exact hhead

/-- What atomic faults and removals leave alone. -/
structure Kept (s t : Machine) : Prop where
  pagesMap : t.pagesMap = s.pagesMap
  pageLock : t.pageLock = s.pageLock
  pipe : t.pipe = s.pipe
  usedKeys : t.usedKeys = s.usedKeys
  stage : t.stage = s.stage
  aborted : t.aborted = s.aborted
  freed : t.freed = s.freed
  sizes : t.dramsize = s.dramsize ∧ t.nvmsize = s.nvmsize

/-- What an atomic fault does. -/
structure FaultSpec (s : Machine) (va : Va) (list : FreeList) (p : PageId) (t : Machine) :
    Prop where
  arises : s.FaultArises va
  head : (s.freeList list).head? = some p
  page : t.page = Function.update s.page p
    { s.page p with present := true, va := va, migrating := false }
  freeList : t.freeList = (s.dequeueFifo list).freeList
  pages : t.pages = Function.update s.pages va (some p)
  modPageDq : t.modPageDq = s.modPageDq ++ [⟨p, false⟩]
  removed : t.removed = s.removed
  mapping : t.mapping = Function.update s.mapping va (some (s.frameOf p))
  writeProtected : t.writeProtected = Function.update s.writeProtected va false
  mem : t.mem = Function.update s.mem (s.frameOf p) fun _ => 0
  clients : t.clients = s.clients
  kept : Kept s t

theorem faultStep_spec {s next : Machine} {va : Va} (hinv : s.MachineInv)
    (hidle : s.clients = [.idle])
    (hstep : s.faultStep va = some next) :
    ∃ list p, FaultSpec s va list p next ∧
      runBlock s (faultActions 0 va list p) = some next := by
  obtain ⟨⟨list, p⟩, hfree, hrun⟩ := Option.bind_eq_some_iff.mp hstep
  have hhead := nextFree_cases hfree
  have hlist := hinv.tiers.lists list p (List.mem_of_mem_head? hhead)
  refine ⟨list, p, ?_, hrun⟩
  obtain ⟨hallocate, hrun⟩ := runBlock_cons_quiet hrun hlist rfl
  obtain ⟨-, hrun⟩ := runBlock_cons_quiet hrun trivial rfl
  obtain ⟨-, hrun⟩ := runBlock_cons_quiet hrun trivial rfl
  have habsent : s.pages va = none := by
    cases hpages : s.pages va with
    | none => rfl
    | some q =>
        have hmapping := hinv.mapping_of_tracked hpages
        rw [hallocate.2.1.2.2.1] at hmapping
        cases hmapping
  have hasserts : Asserts (((s.effect (.allocate 0 va list p)).effect (.zeroAndMap 0 va p)).effect
      (.setVa 0 va p)) (.addToPages 0 p) := by
    simp [Asserts, effect, habsent]
  obtain ⟨-, hrun⟩ := runBlock_cons_quiet hrun hasserts rfl
  obtain ⟨-, hrun⟩ := runBlock_cons_quiet hrun trivial rfl
  obtain rfl := Option.some.inj hrun
  refine ⟨hallocate.2.1, hhead, ?_, ?_, ?_, ?_, ?_, ?_, ?_, ?_, ?_,
    ⟨?_, ?_, ?_, ?_, ?_, ?_, ?_, ?_⟩⟩
  all_goals simp [effect, hidle, frameOf]

/-- What an atomic removal does. -/
structure RemoveSpec (s : Machine) (va : Va) (p : PageId) (t : Machine) : Prop where
  found : s.pages va = some p
  unlocked : s.pageLock p = none
  page : t.page = Function.update s.page p { s.page p with present := false }
  freeList : t.freeList = s.freeList
  pages : t.pages = Function.update s.pages va none
  modPageDq : t.modPageDq = s.modPageDq ++ [⟨p, true⟩]
  removed : t.removed = s.removed ++ [p]
  mapping : t.mapping = Function.update s.mapping va none
  writeProtected : t.writeProtected = Function.update s.writeProtected va false
  mem : t.mem = s.mem
  clients : t.clients = s.clients
  kept : Kept s t

theorem removeStep_spec {s next : Machine} {va : Va} (hinv : s.MachineInv)
    (hidle : s.clients = [.idle])
    (hstep : s.removeStep va = some next) :
    ∃ p, RemoveSpec s va p next ∧ runBlock s (removeActions 0 va p) = some next := by
  obtain ⟨p, hpages, hrun⟩ := Option.bind_eq_some_iff.mp hstep
  refine ⟨p, ?_, hrun⟩
  have hkey := hinv.placed.keyed va p hpages
  have hasserts : s.Asserts (.deleteFromPages 0 va p) := by
    simp [Asserts, hkey, hpages]
  obtain ⟨-, hrun⟩ := runBlock_cons_quiet hrun hasserts rfl
  obtain ⟨-, hrun⟩ := runBlock_cons_quiet hrun trivial rfl
  obtain ⟨hclear, hrun⟩ := runBlock_cons_quiet hrun trivial rfl
  obtain ⟨-, hrun⟩ := runBlock_cons_quiet hrun trivial rfl
  obtain rfl := Option.some.inj hrun
  refine ⟨hpages, hclear.2, ?_, ?_, ?_, ?_, ?_, ?_, ?_, ?_, ?_,
    ⟨?_, ?_, ?_, ?_, ?_, ?_, ?_, ?_⟩⟩
  all_goals simp [effect, hidle, hkey]

/-! ## The invariant -/

/-- Only page addresses that a fault can have are used. -/
structure Addresses (s : Machine) : Prop where
  tracked : ∀ va p, s.pages va = some p → 0 < va ∧ va % hugepageSize = 0
  recorded : ∀ mp ∈ s.modPageDq, 0 < (s.page mp.page).va
  mapped : ∀ key p, s.pagesMap key = some p → 0 < key

structure TieredInv (s : Machine) : Prop where
  machine : s.MachineInv
  synced : s.Synced
  naming : s.Naming
  addresses : s.Addresses
  idle : s.clients = [.idle]
  running : s.aborted = false
  kept : ∀ p, s.places p = one (decide (p < s.total))

theorem tieredInv_pebsInit (dramsize nvmsize workers : ℕ) :
    (pebsInit dramsize nvmsize workers 1).TieredInv where
  machine := machineInv_pebsInit ..
  synced := synced_pebsInit ..
  naming := naming_pebsInit ..
  addresses := ⟨nofun, nofun, nofun⟩
  idle := rfl
  running := rfl
  kept := places_pebsInit dramsize nvmsize workers 1

theorem TieredInv.ownedCount {s : Machine} (hinv : s.TieredInv) (p : PageId) :
    s.ownedCount p = 0 := by
  simp [Machine.ownedCount, hinv.idle, Client.owns]

theorem demands_of_borrowed {s : Pipeline} {np : PageId} (hborrowed : 0 < s.borrowed np) :
    ∃ inDram, s.Demands np inDram := by
  unfold Pipeline.borrowed at hborrowed
  obtain hqueue | hworkers : 0 < s.migrationQueue.countP (MigrationReq.borrows np) ∨
      0 < s.workers.countP (Worker.borrows np) := by omega
  · obtain ⟨req, hmem, hborrows⟩ := List.countP_pos_iff.mp hqueue
    exact ⟨_, Or.inl ⟨req, hmem, by simpa [MigrationReq.borrows] using hborrows, rfl⟩⟩
  · obtain ⟨worker, hmem, hborrows⟩ := List.countP_pos_iff.mp hworkers
    obtain ⟨i, hworker⟩ := List.mem_iff_getElem?.mp hmem
    cases worker with
    | demote req | promote req | recycle req =>
        obtain rfl : req.freePage = np := by
          simpa [Worker.borrows, MigrationReq.borrows] using hborrows
        exact ⟨_, Or.inr ⟨i, _, hworker, rfl⟩⟩
    | _ => cases hborrows

theorem Bounded.lt_of_present {s : Machine} (hbounded : s.Bounded) {p : PageId}
    (hpresent : (s.page p).present = true) : p < s.total := by
  by_contra hout
  rw [hbounded.absent p (Nat.not_lt.mp hout)] at hpresent
  cases hpresent

theorem Bounded.lt_of_lent {s : Machine} (hbounded : s.Bounded) {p : PageId}
    (hborrowed : 0 < s.pipe.borrowed p) : p < s.total := by
  by_contra hout
  have hnowhere := hbounded.nowhere p (Nat.not_lt.mp hout)
  unfold places at hnowhere
  omega

/-- With no fault or removal under way, the present structs are the tracked ones. -/
theorem TieredInv.tracked_of_present {s : Machine} (hinv : s.TieredInv) {p : PageId}
    (hpresent : (s.page p).present = true) : s.pages (s.page p).va = some p := by
  have hplaces := hinv.kept p
  rw [decide_eq_true (hinv.machine.bounded.lt_of_present hpresent), one_true] at hplaces
  have hfree : s.freeCount p = 0 := by
    by_contra hne
    have hmem : ∃ list, p ∈ s.freeList list := by
      unfold Machine.freeCount at hne
      by_cases hdram : (s.freeList .dram).count p = 0
      · exact ⟨.nvm, List.count_pos_iff.mp (by omega)⟩
      · exact ⟨.dram, List.count_pos_iff.mp (by omega)⟩
    obtain ⟨list, hmem⟩ := hmem
    rw [(hinv.machine.tiers.lists list p hmem).2] at hpresent
    cases hpresent
  have hlent : s.pipe.borrowed p = 0 := by
    by_contra hne
    obtain ⟨inDram, hdemands⟩ := demands_of_borrowed (Nat.pos_of_ne_zero hne)
    rw [(hinv.machine.tiers.lent p inDram hdemands).2] at hpresent
    cases hpresent
  have hawaited := hinv.machine.presence.awaited p hpresent
  have hclearing : s.clearingCount p = 0 := by
    simp [Machine.clearingCount, hinv.idle, Client.clears]
  have howned := hinv.ownedCount p
  unfold places at hplaces
  cases htracked : s.tracked p with
  | true => simpa [Machine.tracked] using htracked
  | false =>
      rw [htracked, one_false] at hplaces
      omega

/-! ## No assertion fails -/

theorem inRange_initialFrame (s : Machine) {p : PageId} (hp : p < s.total) :
    s.OffsetInRange (initialFrame (s.dramsize / pageSize) p) := by
  have hpos : 0 < pageSize := by decide
  have hrange : ∀ i size : ℕ, i < size / pageSize →
      i * pageSize < size ∧ i * pageSize + pageSize ≤ size := by
    intro i size hi
    have hnext : (i + 1) * pageSize ≤ size := by
      calc
        (i + 1) * pageSize ≤ size / pageSize * pageSize := Nat.mul_le_mul_right _ hi
        _ ≤ size := Nat.div_mul_le_self _ _
    rw [Nat.add_mul, Nat.one_mul] at hnext
    exact ⟨by omega, hnext⟩
  unfold total at hp
  by_cases hdram : p < s.dramsize / pageSize
  · simp only [initialFrame, if_pos hdram, OffsetInRange, tierSize, if_true]
    exact hrange p _ hdram
  · have hnvm : p - s.dramsize / pageSize < s.nvmsize / pageSize :=
      Nat.sub_lt_left_of_lt_add (Nat.not_lt.mp hdram) hp
    simp only [initialFrame, if_neg hdram, OffsetInRange, tierSize, Bool.false_eq_true, if_false]
    exact hrange _ _ hnvm

theorem FrameOwners.inRange {s : Machine} {owner : Equiv.Perm PageId}
    (howners : s.FrameOwners owner) {p : PageId} (hp : p < s.total) :
    s.OffsetInRange (s.ownFrame owner p) := by
  refine inRange_initialFrame s ?_
  by_contra hout
  have hfixed := owner.injective (howners.fixes (owner p) (Nat.not_lt.mp hout))
  rw [hfixed] at hout
  exact hout hp

/-- A worker that holds the lock migrates a tracked page. -/
theorem TieredInv.tracked_of_holds {s : Machine} (hinv : s.TieredInv) {i : ℕ} {half : Half}
    {req : MigrationReq} {stage : Stage} (hat : s.At i half req stage)
    (hlock : stage.holdsLock = true) :
    s.pages (s.page (half.page req)).va = some (half.page req) := by
  have hlive := hinv.machine.space.live_of_holds hinv.machine.tiers hat hlock
  exact hinv.tracked_of_present hlive.1

theorem TieredInv.copy_asserts {s : Machine} (hinv : s.TieredInv) {i : ℕ} {half : Half}
    {req : MigrationReq} {oldOffset : ℕ} (hat : s.At i half req (.writeProtected oldOffset)) :
    s.Asserts (.copy i half req oldOffset) := by
  obtain ⟨owner, howners⟩ := hinv.machine.owners
  have hunmoved : (s.stage i).moved = false := by rw [hat.2]; rfl
  have htier := hinv.naming.working i _ half _ hat.1 (half.awaits_worker req).1
    fun _ => hunmoved
  have hlive := hinv.machine.space.live_of_holds hinv.machine.tiers hat rfl
  have hdemands : s.pipe.Demands req.freePage (!half.sourceInDram) :=
    Or.inr ⟨i, _, hat.1, half.demand_worker req⟩
  have hlent := hinv.machine.tiers.lent _ _ hdemands
  have hold : s.oldFrame half req = s.ownFrame owner (half.page req) := by
    rw [← howners.settled _ (hinv.machine.tiers.no_window_of_present hlive.1)]
    simp [oldFrame, frameOf, htier]
  have hnew : s.newFrame half req = s.ownFrame owner req.freePage := by
    rw [← howners.settled _ (hinv.machine.placed.no_window hat.1 hunmoved)]
    simp [newFrame, frameOf, hlent.1]
  refine ⟨htier, ?_, ?_⟩
  · rw [hold]
    exact howners.inRange (hinv.machine.bounded.lt_of_present hlive.1)
  · rw [hnew]
    exact howners.inRange (hinv.machine.bounded.lt_of_lent hdemands.borrowed_pos)

theorem TieredInv.asserts {s : Machine} {action : MachineAction} (hinv : s.TieredInv)
    (hclient : action.byClient = false) (henabled : s.Enabled action) : s.Asserts action := by
  have hlists := hinv.machine.tiers.lists
  cases action with
  | drain mp =>
      intro hadd
      have hfits := hinv.synced.drain_fits henabled.2
      rwa [hadd] at hfits
  | schedulePromotion key p np => exact (hlists .dram np (List.mem_of_mem_head? henabled.2.2)).2
  | scheduleDemotion key coldKey p cp np =>
      have hkey := henabled.2.1.1
      have hva := hinv.synced.keyed coldKey cp hkey
      simp only [Asserts, hva]
      exact hinv.addresses.mapped coldKey cp hkey
  | returnFree np => exact (hlists .dram np (List.mem_of_mem_head? henabled)).2
  | writeProtect i half req oldOffset =>
      have htracked := hinv.tracked_of_holds henabled rfl
      obtain ⟨hpos, haligned⟩ := hinv.addresses.tracked _ _ htracked
      refine ⟨hpos, haligned, ?_⟩
      rw [hinv.machine.mapping_of_tracked htracked]
      simp
  | copy i half req oldOffset => exact hinv.copy_asserts henabled
  | remap i half req oldOffset =>
      exact (hinv.addresses.tracked _ _ (hinv.tracked_of_holds henabled rfl)).2
  | allocate | outOfMemory | addToPages | deleteFromPages => cases hclient
  | _ => trivial

/-! ## Step lemmas -/

/-- What the actions of a client's block preserve. -/
structure BlockInv (s : Machine) : Prop where
  machine : s.MachineInv
  naming : s.Naming
  kept : ∀ p, s.places p = one (decide (p < s.total))

theorem total_step {s next : Machine} {action : MachineAction}
    (hstep : machineStep s action = some next) : next.total = s.total := by
  obtain ⟨-, -, ⟨-, rfl⟩ | ⟨-, pipe, -, rfl⟩⟩ := step_cases hstep
  · rfl
  · exact total_effect s action pipe

theorem BlockInv.client_step {s next : Machine} {action : MachineAction} (hinv : s.BlockInv)
    (hclient : action.byClient = true) (hstep : machineStep s action = some next) :
    next.BlockInv := by
  have hundisturbed : s.Undisturbed action := by
    cases action <;> first | exact ⟨trivial, trivial⟩ | cases hclient
  refine ⟨hinv.machine.step hundisturbed hstep, hinv.naming.client_step hclient hstep, fun p => ?_⟩
  have hplaces := places_step hinv.machine.placed hstep p
  have hloses : s.loses p action = false := by
    cases action <;> first | rfl | cases hclient
  rw [hloses, one_false] at hplaces
  rw [total_step hstep, ← hinv.kept p]
  exact hplaces

theorem BlockInv.client_block {s final : Machine} {actions : List MachineAction}
    (hinv : s.BlockInv) (hclient : ∀ action ∈ actions, action.byClient = true)
    (hrun : runBlock s actions = some final) : final.BlockInv :=
  runBlock_preserves BlockInv
    (fun _ _ _ hmem hinv hnext => hinv.client_step (hclient _ hmem) hnext) hinv hrun

theorem TieredInv.blockInv {s : Machine} (hinv : s.TieredInv) : s.BlockInv :=
  ⟨hinv.machine, hinv.naming, hinv.kept⟩

theorem TieredInv.fault_step {s next : Machine} {va : Va} (hinv : s.TieredInv)
    (hstep : s.faultStep va = some next) : next.TieredInv := by
  obtain ⟨list, p, hspec, hrun⟩ := faultStep_spec hinv.machine hinv.idle hstep
  have hblock := hinv.blockInv.client_block (by simp [faultActions, MachineAction.byClient]) hrun
  -- no record names the struct, as it was on a free list
  have hunknown : ∀ mp ∈ s.modPageDq, mp.page ≠ p := by
    have honce := hinv.machine.placed.once p
    have hfree := freeCount_pos (List.mem_of_mem_head? hspec.head)
    unfold places at honce
    exact (hinv.synced.unknown
      (show one (s.tracked p) + s.pendingFreeCount p = 0 by omega)).2
  refine
    { machine := hblock.machine
      synced := hinv.synced.fault hinv.machine.placed hrun
      naming := hblock.naming
      addresses := ⟨?_, ?_, ?_⟩
      idle := hspec.clients.trans hinv.idle
      running := hspec.kept.aborted.trans hinv.running
      kept := hblock.kept }
  · intro v q hpages
    rw [hspec.pages] at hpages
    by_cases hv : v = va
    · exact hv ▸ ⟨hspec.arises.1, hspec.arises.2.1⟩
    · rw [Function.update_of_ne hv] at hpages
      exact hinv.addresses.tracked v q hpages
  · intro mp hmem
    rw [hspec.modPageDq] at hmem
    rw [hspec.page]
    obtain hold | hnew := List.mem_append.mp hmem
    · rw [Function.update_of_ne (hunknown mp hold)]
      exact hinv.addresses.recorded mp hold
    · obtain rfl := List.mem_singleton.mp hnew
      simpa using hspec.arises.1
  · intro key q hkey
    rw [hspec.kept.pagesMap] at hkey
    exact hinv.addresses.mapped key q hkey

theorem TieredInv.remove_step {s next : Machine} {va : Va} (hinv : s.TieredInv)
    (hstep : s.removeStep va = some next) : next.TieredInv := by
  obtain ⟨p, hspec, hrun⟩ := removeStep_spec hinv.machine hinv.idle hstep
  have hblock := hinv.blockInv.client_block (by simp [removeActions, MachineAction.byClient]) hrun
  have hva : ∀ q, (next.page q).va = (s.page q).va := by
    intro q
    rw [hspec.page]
    by_cases hq : q = p <;> simp [hq]
  refine
    { machine := hblock.machine
      synced := hinv.synced.removal hinv.machine.placed hrun
      naming := hblock.naming
      addresses := ⟨?_, ?_, ?_⟩
      idle := hspec.clients.trans hinv.idle
      running := hspec.kept.aborted.trans hinv.running
      kept := hblock.kept }
  · intro v q hpages
    rw [hspec.pages] at hpages
    by_cases hv : v = va
    · simp [hv] at hpages
    · rw [Function.update_of_ne hv] at hpages
      exact hinv.addresses.tracked v q hpages
  · intro mp hmem
    rw [hspec.modPageDq] at hmem
    rw [hva]
    obtain hold | hnew := List.mem_append.mp hmem
    · exact hinv.addresses.recorded mp hold
    · obtain rfl := List.mem_singleton.mp hnew
      have hkey := hinv.machine.placed.keyed va p hspec.found
      simpa [hkey] using (hinv.addresses.tracked va p hspec.found).1
  · intro key q hkey
    rw [hspec.kept.pagesMap] at hkey
    exact hinv.addresses.mapped key q hkey

theorem Addresses.step {s : Machine} {action : MachineAction} (haddresses : s.Addresses)
    (hclient : action.byClient = false) (henabled : s.Enabled action) :
    (s.effect action).Addresses := by
  have hva : ∀ p, ((s.effect action).page p).va = (s.page p).va := fun p =>
    va_effect p (by rintro c va q rfl; cases hclient)
  by_cases hdrain : ∃ mp, action = .drain mp
  · obtain ⟨mp, rfl⟩ := hdrain
    refine ⟨haddresses.tracked, ?_, ?_⟩
    · intro other hmem
      rw [hva]
      exact haddresses.recorded other (List.mem_of_mem_tail hmem)
    · intro key p hkey
      by_cases hsame : key = (s.page mp.page).va
      · exact hsame ▸ haddresses.recorded mp (List.mem_of_mem_head? henabled.2)
      · exact haddresses.mapped key p (by simpa [effect, hsame] using hkey)
  · have hbooks : action.inBooks = false := by
      cases action <;> first | rfl | cases hclient
    have hsame := sameBooks_effect s hbooks fun mp heq => hdrain ⟨mp, heq⟩
    refine ⟨fun va p hpage => haddresses.tracked va p (by rwa [hsame.pages] at hpage), ?_, ?_⟩
    · intro mp hmem
      rw [hsame.modPageDq] at hmem
      rw [hva]
      exact haddresses.recorded mp hmem
    · intro key p hkey
      rw [hsame.pagesMap] at hkey
      exact haddresses.mapped key p hkey

/-- Drains come after the removals and tests after the faults. -/
theorem TieredInv.undisturbed {s : Machine} {action : MachineAction} (hinv : s.TieredInv)
    (henabled : s.Enabled action) : s.Undisturbed action := by
  constructor
  · cases action with
    | drain mp =>
        intro hfree _
        rw [← Bool.not_eq_true]
        intro hpresent
        have hawaited := hinv.machine.presence.awaited mp.page hpresent
        have hclearing : s.clearingCount mp.page = 0 := by
          simp [Machine.clearingCount, hinv.idle, Client.clears]
        have hpending : 0 < s.pendingFreeCount mp.page :=
          List.countP_pos_iff.mpr
            ⟨mp, List.mem_of_mem_head? henabled.2, by simp [ModPage.frees, hfree]⟩
        omega
    | _ => trivial
  · cases action with
    | testPresent i half req =>
        intro client hmem
        rw [hinv.idle] at hmem
        obtain rfl := List.mem_singleton.mp hmem
        rfl
    | _ => trivial

theorem TieredInv.machine_step {s next : Machine} {action : MachineAction} (hinv : s.TieredInv)
    (hclient : action.byClient = false) (hstep : machineStep s action = some next) :
    next.TieredInv := by
  have hbooks : action.inBooks = false := by
    cases action <;> first | rfl | cases hclient
  have hsynced := hinv.synced.step hinv.machine.placed hbooks hstep
  have hnaming := hinv.naming.step hinv.machine.placed hinv.synced hstep
  have hplaces := places_step hinv.machine.placed hstep
  have htotal := total_step hstep
  obtain ⟨-, henabled, ⟨hfails, -⟩ | ⟨-, pipe, -, rfl⟩⟩ := step_cases hstep
  · exact absurd (hinv.asserts hclient henabled) hfails
  · have haddresses := hinv.addresses.step hclient henabled
    exact
      { machine := hinv.machine.step (hinv.undisturbed henabled) hstep
        synced := hsynced
        naming := hnaming
        addresses := ⟨haddresses.tracked, haddresses.recorded, haddresses.mapped⟩
        idle := by
          change (s.effect action).clients = _
          rw [clients_effect]
          cases action <;> first | exact hinv.idle | cases hclient
        running := (s.effect_kept action).2.trans hinv.running
        kept := fun p => by
          have hloses : s.loses p action = false := by
            cases action with
            | drain mp =>
                have hfits := hinv.synced.drain_fits henabled.2
                cases hfree : mp.free <;> simp [loses, ModPage.frees, hfree, hfits]
            | _ => rfl
          have hmoved := hplaces p
          rw [hloses, one_false] at hmoved
          rw [htotal, ← hinv.kept p]
          exact hmoved }

theorem TieredInv.step {s next : Machine} {action : TieredAction} (hinv : s.TieredInv)
    (hstep : tieredStep s action = some next) : next.TieredInv := by
  cases action with
  | fault va => exact hinv.fault_step hstep
  | remove va => exact hinv.remove_step hstep
  | other action =>
      simp only [tieredStep] at hstep
      split at hstep
      · cases hstep
      · rename_i hclient
        exact hinv.machine_step (Bool.eq_false_iff.mpr hclient) hstep

end Machine

end ArmsTiering
