import ArmsTiering.Machine.Presence

/-!
# The page table

A present struct whose fault handler has set its `va` is live: the page table
has its frame at its address, no other live struct has that address, and no
thread is about to map or unmap something there.  A fault handler that has not
set `va` yet must not meet a worker: the worker would migrate the struct at the
address of its previous life.
-/

namespace ArmsTiering

open Counting

/-- The thread has taken the struct and not yet set its `va`. -/
def Client.unplaced (p : PageId) : Client → Bool
  | .allocated _ q | .mapped _ q => q == p
  | _ => false

/-- The thread is going to map or unmap a frame at the address. -/
def Client.claims (va : Va) : Client → Bool
  | .allocated v _ | .mapped v _ | .cleared v => v == va
  | _ => false

def Stage.holdsLock : Stage → Bool
  | .start | .unlocked _ => false
  | .locked _ | .writeProtected _ | .copied _ | .remapped _ => true

namespace Machine

def unplacedCount (s : Machine) (p : PageId) : ℕ := s.clients.countP (Client.unplaced p)

def claimCount (s : Machine) (va : Va) : ℕ := s.clients.countP (Client.claims va)

/-- The struct stands for a mapped page of the application. -/
def Live (s : Machine) (p : PageId) : Prop :=
  (s.page p).present = true ∧ s.unplacedCount p = 0

/-- No worker finds a struct present whose fault handler has not set `va`. -/
def TestsSettled (s : Machine) : MachineAction → Prop
  | .testPresent _ half req => ∀ client ∈ s.clients, client.unplaced (half.page req) = false
  | _ => True

structure AddressSpace (s : Machine) : Prop where
  mapped : ∀ p, s.Live p → s.mapping (s.page p).va = some (s.frameOf p)
  distinct : ∀ p q, s.Live p → s.Live q → (s.page p).va = (s.page q).va → p = q
  claimedOnce : ∀ va, s.claimCount va ≤ 1
  unclaimed : ∀ p, s.Live p → s.claimCount (s.page p).va = 0
  faulting : ∀ va p, .mapped va p ∈ s.clients → s.mapping va = some (s.frameOf p)
  leaving : ∀ va, .cleared va ∈ s.clients → s.mapping va ≠ none
  migrating : ∀ i (half : Half) req, s.pipe.workers[i]? = some (half.worker req) →
    (s.stage i).holdsLock = true → s.unplacedCount (half.page req) = 0

/-! ## What a step leaves alone -/

theorem unplaced_le_owned (s : Machine) (p : PageId) : s.unplacedCount p ≤ s.ownedCount p := by
  apply List.countP_mono_left
  intro client _ hunplaced
  cases client <;> simp_all [Client.unplaced, Client.owns]

theorem claimCount_pos {s : Machine} {client : Client} {va : Va} (hmem : client ∈ s.clients)
    (hclaims : client.claims va = true) : 0 < s.claimCount va :=
  List.countP_pos_iff.mpr ⟨client, hmem, hclaims⟩

/-! ## Step lemmas -/

/-- A struct becomes live only when its fault handler sets `va`. -/
theorem live_effect {s : Machine} {action : MachineAction} (henabled : s.Enabled action)
    {p : PageId} (hlive : (s.effect action).Live p) :
    s.Live p ∨ ∃ c va, action = .setVa c va p := by
  obtain ⟨hpresent, hunplaced⟩ := hlive
  have hcount := countP_clients (Client.unplaced p) henabled
  have hsame : action.moved ≠ some p → (s.page p).present = true := fun hmoved =>
    (sameLocation_effect s hmoved).2.1.symm.trans hpresent
  simp only [Live, unplacedCount] at hunplaced ⊢
  cases action with
  | allocate c va list q =>
      simp only [MachineAction.clientMove, Option.map_some, Option.getD_some, Client.unplaced,
        one_false] at hcount
      by_cases hqp : q = p
      · subst hqp
        simp only [beq_self_eq_true, one_true] at hcount
        omega
      · exact Or.inl ⟨hsame (by simpa [MachineAction.moved] using hqp), by omega⟩
  | setVa c va q =>
      simp only [MachineAction.clientMove, Option.map_some, Option.getD_some, Client.unplaced,
        one_false] at hcount
      by_cases hqp : q = p
      · exact Or.inr ⟨c, va, by rw [hqp]⟩
      · have hother : one (q == p) = 0 := by simp [hqp, one]
        exact Or.inl ⟨hsame (by simp [MachineAction.moved]), by omega⟩
  | clearPresent c va q =>
      simp only [MachineAction.clientMove, Option.map_some, Option.getD_some, Client.unplaced,
        one_false] at hcount
      by_cases hqp : q = p
      · simp [effect, setClient, setPage, hqp] at hpresent
      · exact Or.inl ⟨hsame (by simpa [MachineAction.moved] using hqp), by omega⟩
  | remap i half req oldOffset =>
      refine Or.inl ⟨?_, hunplaced⟩
      by_cases hmoved : half.page req = p
      · simpa [effect, setStage, setPage, mapFrame, hmoved] using hpresent
      · exact hsame (by simpa [MachineAction.moved] using hmoved)
  | give i half req oldOffset =>
      by_cases hmoved : req.freePage = p
      · simp [effect, setStage, setPage, hmoved] at hpresent
      · exact Or.inl ⟨hsame (by simpa [MachineAction.moved] using hmoved), hunplaced⟩
  | _ =>
      simp only [MachineAction.clientMove, Option.map_some, Option.map_none, Option.getD_some,
        Option.getD_none, Client.unplaced, one_false] at hcount
      exact Or.inl ⟨hsame (by simp [MachineAction.moved]), by omega⟩

/-- A worker that holds the lock migrates a live struct. -/
theorem AddressSpace.live_of_holds {s : Machine} (htiers : s.Tiers) (hspace : s.AddressSpace)
    {i : ℕ} {half : Half} {req : MigrationReq} {stage : Stage} (hat : s.At i half req stage)
    (hlock : stage.holdsLock = true) : s.Live (half.page req) := by
  have hok := htiers.stages i half req hat.1
  have hunplaced := hspace.migrating i half req hat.1 (by rw [hat.2]; exact hlock)
  rw [hat.2] at hok
  cases stage with
  | start | unlocked => cases hlock
  | locked | writeProtected => exact ⟨hok.1.2, hunplaced⟩
  | copied => exact ⟨hok.1.2, hunplaced⟩
  | remapped => exact ⟨hok.2, hunplaced⟩

theorem Presence.live_of_removed {s : Machine} (hpresence : s.Presence) {c : ℕ} {va : Va}
    {p : PageId} (hclient : s.clients[c]? = some (.pushed va p)) :
    s.Live p ∧ (s.page p).va = va := by
  obtain ⟨howned, -, hclearing⟩ := hpresence.not_needed_of_cleared hclient
  have hunplaced := unplaced_le_owned s p
  refine ⟨⟨hpresence.needed p ?_, by omega⟩, ?_⟩
  · unfold Needed
    omega
  · exact hpresence.removed _ (List.mem_of_getElem? hclient) p va (by simp [Client.removesAt])

/-- A step that changes the page table at a live struct's address is the
migration of that struct. -/
theorem AddressSpace.remap_of_live {s : Machine} {action : MachineAction} (htiers : s.Tiers)
    (hspace : s.AddressSpace) (henabled : s.Enabled action) {p : PageId} (hlive : s.Live p)
    (hremaps : action.remapsAt s = some (s.page p).va) :
    ∃ i half req oldOffset, action = .remap i half req oldOffset ∧ half.page req = p := by
  have hunclaimed := hspace.unclaimed p hlive
  cases action with
  | zeroAndMap c va q =>
      obtain rfl : va = (s.page p).va := Option.some.inj hremaps
      have hclaims := claimCount_pos (List.mem_of_getElem? henabled)
        (show (Client.allocated (s.page p).va q).claims (s.page p).va = true by
          simp [Client.claims])
      omega
  | unmap c va =>
      obtain rfl : va = (s.page p).va := Option.some.inj hremaps
      have hclaims := claimCount_pos (List.mem_of_getElem? henabled)
        (show (Client.cleared (s.page p).va).claims (s.page p).va = true by
          simp [Client.claims])
      omega
  | remap i half req oldOffset =>
      have hmigrates := hspace.live_of_holds htiers henabled rfl
      exact ⟨i, half, req, oldOffset, rfl,
        hspace.distinct _ _ hmigrates hlive (Option.some.inj hremaps)⟩
  | _ => cases hremaps

/-- A live struct keeps its address. -/
theorem Live.va_effect {s : Machine} {action : MachineAction} (henabled : s.Enabled action)
    {p : PageId} (hlive : s.Live p) : ((s.effect action).page p).va = (s.page p).va := by
  cases action with
  | setVa c va q =>
      have hne : p ≠ q := by
        rintro rfl
        have hunplaced : 0 < s.unplacedCount p :=
          List.countP_pos_iff.mpr ⟨_, List.mem_of_getElem? henabled, by simp [Client.unplaced]⟩
        have hnone := hlive.2
        omega
      simp [effect, setClient, setPage, hne]
  | _ => exact Machine.va_effect p (by simp)

/-- While a struct stays live, only its migration gives it another frame. -/
theorem Live.frameOf_effect {s : Machine} {action : MachineAction} {p : PageId}
    (hnext : (s.effect action).Live p) (hremaps : action.remapsAt s ≠ some (s.page p).va) :
    (s.effect action).frameOf p = s.frameOf p := by
  refine Machine.frameOf_effect fun hreframes => ?_
  cases action with
  | remap i half req oldOffset =>
      obtain rfl : half.page req = p := Option.some.inj hreframes
      exact hremaps rfl
  | give i half req oldOffset =>
      obtain rfl : req.freePage = p := Option.some.inj hreframes
      have hpresent := hnext.1
      simp [effect, setStage, setPage] at hpresent
  | _ => cases hreframes

theorem AddressSpace.mapped_step {s : Machine} {action : MachineAction} (htiers : s.Tiers)
    (hspace : s.AddressSpace) (henabled : s.Enabled action) {p : PageId}
    (hlive : (s.effect action).Live p) :
    (s.effect action).mapping ((s.effect action).page p).va =
      some ((s.effect action).frameOf p) := by
  obtain hold | ⟨c, va, rfl⟩ := live_effect henabled hlive
  · by_cases hremaps : action.remapsAt s = some (s.page p).va
    · obtain ⟨i, half, req, oldOffset, rfl, rfl⟩ :=
        hspace.remap_of_live htiers henabled hold hremaps
      simp [effect, setStage, setPage, mapFrame, frameOf, newFrame]
    · rw [hold.va_effect henabled, mapping_effect hremaps, hspace.mapped p hold,
        hlive.frameOf_effect hremaps]
  · have hfaulting := hspace.faulting va p (List.mem_of_getElem? henabled)
    have hframe : (s.effect (.setVa c va p)).frameOf p = s.frameOf p :=
      Machine.frameOf_effect (by simp [MachineAction.reframes])
    rw [hframe, ← hfaulting]
    simp [effect, setClient, setPage]

theorem AddressSpace.distinct_step {s : Machine} {action : MachineAction}
    (hspace : s.AddressSpace) (henabled : s.Enabled action) {p q : PageId}
    (hp : (s.effect action).Live p) (hq : (s.effect action).Live q)
    (hva : ((s.effect action).page p).va = ((s.effect action).page q).va) : p = q := by
  -- the address of a struct that becomes live was claimed by its handler
  have hfresh : ∀ {c : ℕ} {va : Va} {r t : PageId}, action = .setVa c va r → s.Live t →
      ((s.effect action).page r).va ≠ ((s.effect action).page t).va := by
    rintro c va r t rfl hlive hsame
    rw [hlive.va_effect henabled] at hsame
    have hset : ((s.effect (.setVa c va r)).page r).va = va := by
      simp [effect, setClient, setPage]
    have hclaims := claimCount_pos (List.mem_of_getElem? henabled)
      (show (Client.mapped va r).claims va = true by simp [Client.claims])
    have hunclaimed := hspace.unclaimed t hlive
    rw [← hsame, hset] at hunclaimed
    omega
  obtain holdP | ⟨c, va, haction⟩ := live_effect henabled hp
  · obtain holdQ | ⟨c, va, haction⟩ := live_effect henabled hq
    · rw [holdP.va_effect henabled, holdQ.va_effect henabled] at hva
      exact hspace.distinct p q holdP holdQ hva
    · exact absurd hva.symm (hfresh haction holdP)
  · obtain holdQ | ⟨c', va', haction'⟩ := live_effect henabled hq
    · exact absurd hva (hfresh haction holdQ)
    · rw [haction] at haction'
      cases haction'
      rfl

/-- Where a fault arises, or a live struct is removed, nothing was claimed. -/
theorem AddressSpace.claimCount_of_fault {s : Machine} (hspace : s.AddressSpace) {va : Va}
    (hfault : s.FaultArises va) : s.claimCount va = 0 := by
  obtain ⟨-, -, hunmapped, hnofault⟩ := hfault
  unfold claimCount
  rw [List.countP_eq_zero]
  intro client hmem hclaims
  have hnot := hnofault client hmem
  cases client with
  | allocated v q | mapped v q =>
      simp only [Client.claims] at hclaims
      simp [Client.faultsAt, hclaims] at hnot
  | cleared v =>
      obtain rfl : v = va := by simpa [Client.claims] using hclaims
      exact hspace.leaving v hmem hunmapped
  | _ => cases hclaims

theorem AddressSpace.claims_step {s : Machine} {action : MachineAction}
    (hpresence : s.Presence) (hspace : s.AddressSpace) (henabled : s.Enabled action) (va : Va) :
    (s.effect action).claimCount va ≤ s.claimCount va ∨
      s.claimCount va = 0 ∧ (s.effect action).claimCount va ≤ 1 ∧
        ((∃ c list q, action = .allocate c va list q) ∨
          ∃ c q, action = .clearPresent c va q) := by
  have hcount := countP_clients (Client.claims va) henabled
  simp only [claimCount]
  cases action with
  | allocate c v list q =>
      simp only [MachineAction.clientMove, Option.map_some, Option.getD_some, Client.claims,
        one_false] at hcount
      by_cases hv : v = va
      · subst hv
        have hnone := hspace.claimCount_of_fault henabled.2.1
        simp only [beq_self_eq_true, one_true] at hcount
        simp only [claimCount] at hnone
        exact Or.inr ⟨hnone, by omega, Or.inl ⟨c, list, q, rfl⟩⟩
      · have hother : one (v == va) = 0 := by simp [hv, one]
        exact Or.inl (by omega)
  | clearPresent c v q =>
      simp only [MachineAction.clientMove, Option.map_some, Option.getD_some, Client.claims,
        one_false] at hcount
      by_cases hv : v = va
      · subst hv
        obtain ⟨hlive, hva⟩ := hpresence.live_of_removed henabled.1
        have hnone := hspace.unclaimed q hlive
        rw [hva] at hnone
        simp only [beq_self_eq_true, one_true] at hcount
        simp only [claimCount] at hnone
        exact Or.inr ⟨hnone, by omega, Or.inr ⟨c, q, rfl⟩⟩
      · have hother : one (v == va) = 0 := by simp [hv, one]
        exact Or.inl (by omega)
  | _ =>
      simp only [MachineAction.clientMove, Option.map_some, Option.map_none, Option.getD_some,
        Option.getD_none, Client.claims, one_false] at hcount
      exact Or.inl (by omega)

theorem AddressSpace.unclaimed_step {s : Machine} {action : MachineAction}
    (hpresence : s.Presence) (hspace : s.AddressSpace) (henabled : s.Enabled action) {p : PageId}
    (hlive : (s.effect action).Live p) :
    (s.effect action).claimCount ((s.effect action).page p).va = 0 := by
  obtain hold | ⟨c, va, rfl⟩ := live_effect henabled hlive
  · rw [hold.va_effect henabled]
    have hunclaimed := hspace.unclaimed p hold
    obtain hless | ⟨-, -, ⟨c, list, q, rfl⟩ | ⟨c, q, rfl⟩⟩ :=
      hspace.claims_step hpresence henabled (s.page p).va
    · omega
    · have hmapped := hspace.mapped p hold
      rw [henabled.2.1.2.2.1] at hmapped
      cases hmapped
    · obtain ⟨hremoved, hva⟩ := hpresence.live_of_removed henabled.1
      obtain rfl := hspace.distinct q p hremoved hold hva
      have hpresent := hlive.1
      simp [effect, setClient, setPage] at hpresent
  · have hset : ((s.effect (.setVa c va p)).page p).va = va := by
      simp [effect, setClient, setPage]
    have hcount := countP_clients (Client.claims va) henabled
    simp only [MachineAction.clientMove, Option.map_some, Option.getD_some, Client.claims,
      one_false, beq_self_eq_true, one_true] at hcount
    have honce := hspace.claimedOnce va
    rw [hset]
    simp only [claimCount] at honce ⊢
    omega

theorem mem_clients_effect {s : Machine} {action : MachineAction} {client : Client}
    (hmem : client ∈ (s.effect action).clients) :
    client ∈ s.clients ∨ ∃ c old, action.clientMove = some (c, old, client) := by
  rw [clients_effect] at hmem
  cases hmove : action.clientMove with
  | none =>
      rw [hmove] at hmem
      exact Or.inl hmem
  | some move =>
      obtain ⟨c, old, new⟩ := move
      rw [hmove] at hmem
      obtain hold | rfl := List.mem_or_eq_of_mem_set hmem
      · exact Or.inl hold
      · exact Or.inr ⟨c, old, rfl⟩

/-- Two threads do not claim one address. -/
theorem AddressSpace.claims_unique {s : Machine} (hspace : s.AddressSpace) {va : Va}
    {first second : Client} (hfirst : first ∈ s.clients) (hsecond : second ∈ s.clients)
    (hfirstClaims : first.claims va = true) (hsecondClaims : second.claims va = true) :
    first = second :=
  eq_of_countP_le_one (hspace.claimedOnce va) hfirst hsecond hfirstClaims hsecondClaims

theorem AddressSpace.faulting_step {s : Machine} {action : MachineAction} (htiers : s.Tiers)
    (hpresence : s.Presence) (hspace : s.AddressSpace) (henabled : s.Enabled action)
    {va : Va} {p : PageId}
    (hmem : .mapped va p ∈ (s.effect action).clients) :
    (s.effect action).mapping va = some ((s.effect action).frameOf p) := by
  obtain hold | ⟨c, old, hmove⟩ := mem_clients_effect hmem
  · have hclaims : (Client.mapped va p).claims va = true := by simp [Client.claims]
    have hunplaced : 0 < s.unplacedCount p :=
      List.countP_pos_iff.mpr ⟨_, hold, by simp [Client.unplaced]⟩
    have howned : 0 < s.ownedCount p := lt_of_lt_of_le hunplaced (unplaced_le_owned s p)
    have hpresent : (s.page p).present = true := by
      refine hpresence.needed p ?_
      unfold Needed
      omega
    have hremaps : action.remapsAt s ≠ some va := by
      intro hremaps
      cases action with
      | zeroAndMap c v q =>
          obtain rfl : v = va := Option.some.inj hremaps
          have hsame := hspace.claims_unique hold (List.mem_of_getElem? henabled) hclaims
            (by simp [Client.claims])
          cases hsame
      | unmap c v =>
          obtain rfl : v = va := Option.some.inj hremaps
          have hsame := hspace.claims_unique hold (List.mem_of_getElem? henabled) hclaims
            (by simp [Client.claims])
          cases hsame
      | remap i half req oldOffset =>
          have hunclaimed := hspace.unclaimed _ (hspace.live_of_holds htiers henabled rfl)
          have hpos := claimCount_pos hold hclaims
          rw [Option.some.inj hremaps] at hunclaimed
          omega
      | _ => cases hremaps
    have hframe : action.reframes ≠ some p := by
      intro hreframes
      cases action with
      | remap i half req oldOffset =>
          obtain rfl : half.page req = p := Option.some.inj hreframes
          have hnone := (hspace.live_of_holds htiers henabled rfl).2
          omega
      | give i half req oldOffset =>
          obtain rfl : req.freePage = p := Option.some.inj hreframes
          have hlent := htiers.lent _ _ (Or.inr ⟨i, _, henabled.1, half.demand_worker req⟩)
          rw [hlent.2] at hpresent
          cases hpresent
      | _ => cases hreframes
    rw [mapping_effect hremaps, frameOf_effect hframe]
    exact hspace.faulting va p hold
  · cases action with
    | zeroAndMap c v q =>
        cases hmove
        simp [effect, setClient, mapFrame, setMem, frameOf]
    | _ => cases hmove

theorem AddressSpace.leaving_step {s : Machine} {action : MachineAction}
    (hpresence : s.Presence) (hspace : s.AddressSpace) (henabled : s.Enabled action) {va : Va}
    (hmem : .cleared va ∈ (s.effect action).clients) : (s.effect action).mapping va ≠ none := by
  obtain hold | ⟨c, old, hmove⟩ := mem_clients_effect hmem
  · have hleaving := hspace.leaving va hold
    by_cases hremaps : action.remapsAt s = some va
    · cases action with
      | zeroAndMap c v q =>
          obtain rfl : v = va := Option.some.inj hremaps
          simp [effect, setClient, mapFrame]
      | unmap c v =>
          obtain rfl : v = va := Option.some.inj hremaps
          have hcount := countP_clients (Client.claims v) henabled
          simp only [MachineAction.clientMove, Option.map_some, Option.getD_some, Client.claims,
            one_false, beq_self_eq_true, one_true] at hcount
          have honce := hspace.claimedOnce v
          have hpos := claimCount_pos hmem (show (Client.cleared v).claims v = true by
            simp [Client.claims])
          simp only [claimCount] at honce hpos
          omega
      | remap i half req oldOffset =>
          have hva : (s.page (half.page req)).va = va := Option.some.inj hremaps
          simp [effect, setStage, setPage, mapFrame, hva]
      | _ => cases hremaps
    · rw [mapping_effect hremaps]
      exact hleaving
  · cases action with
    | clearPresent c v q =>
        cases hmove
        obtain ⟨hlive, hva⟩ := hpresence.live_of_removed henabled.1
        have hmapped := hspace.mapped q hlive
        rw [hva] at hmapped
        rw [mapping_effect (by simp [MachineAction.remapsAt]), hmapped]
        simp
    | _ => cases hmove

theorem unplaced_effect {s : Machine} {action : MachineAction} (henabled : s.Enabled action)
    (p : PageId) :
    (s.effect action).unplacedCount p ≤ s.unplacedCount p ∨
      ∃ c va list, action = .allocate c va list p := by
  have hcount := countP_clients (Client.unplaced p) henabled
  simp only [unplacedCount]
  cases action with
  | allocate c va list q =>
      by_cases hqp : q = p
      · subst hqp
        exact Or.inr ⟨c, va, list, rfl⟩
      · have hother : one (q == p) = 0 := by simp [hqp, one]
        simp only [MachineAction.clientMove, Option.map_some, Option.getD_some, Client.unplaced,
          one_false] at hcount
        exact Or.inl (by omega)
  | _ =>
      simp only [MachineAction.clientMove, Option.map_some, Option.map_none, Option.getD_some,
        Option.getD_none, Client.unplaced, one_false] at hcount
      exact Or.inl (by omega)

/-- A worker comes to hold a lock by its present test only. -/
theorem holdsLock_effect {s : Machine} {action : MachineAction} (henabled : s.Enabled action)
    {j : ℕ} (hlock : ((s.effect action).stage j).holdsLock = true) :
    (s.stage j).holdsLock = true ∨ ∃ half req, action = .testPresent j half req := by
  by_cases hactor : action.actor = some j
  · rw [stage_effect] at hlock
    cases action with
    | testPresent i half req =>
        obtain rfl := Option.some.inj hactor
        exact Or.inr ⟨half, req, rfl⟩
    | writeProtect i half req oldOffset | copy i half req oldOffset
    | remap i half req oldOffset =>
        obtain rfl := Option.some.inj hactor
        exact Or.inl (by rw [henabled.2]; rfl)
    | unlock i half req oldOffset | give i half req oldOffset =>
        obtain rfl := Option.some.inj hactor
        simp [MachineAction.stageMove, Stage.holdsLock] at hlock
    | testAbsent | recycle => exact Or.inl hlock
    | _ => cases hactor
  · rw [stage_effect_of_ne hactor] at hlock
    exact Or.inl hlock

theorem AddressSpace.migrating_step {s : Machine} {action : MachineAction} {pipe : Pipeline}
    (htiers : s.Tiers) (hspace : s.AddressSpace) (hsettled : s.TestsSettled action)
    (henabled : s.Enabled action) (hasserts : s.Asserts action)
    (hpipe : s.pipe.advance action.pipeAction = some pipe) {j : ℕ} {half : Half}
    {req : MigrationReq} (hworker : pipe.workers[j]? = some (half.worker req))
    (hlock : ((s.effect action).stage j).holdsLock = true) :
    (s.effect action).unplacedCount (half.page req) = 0 := by
  obtain hold | hstart := htiers.halfWorker_step henabled hpipe hworker
  · have hunplaced : s.unplacedCount (half.page req) = 0 := by
      obtain hlocked | ⟨other, otherReq, rfl⟩ := holdsLock_effect henabled hlock
      · exact hspace.migrating j half req hold hlocked
      · obtain ⟨rfl, rfl⟩ := Half.worker_inj (Option.some.inj (henabled.1.1.symm.trans hold))
        refine List.countP_eq_zero.mpr fun client hmem => ?_
        rw [hsettled client hmem]
        simp
    obtain hless | ⟨c, va, list, rfl⟩ := unplaced_effect henabled (half.page req)
    · omega
    · -- the page of a lock holder is present, an allocated one was not
      have hlive := hspace.live_of_holds htiers ⟨hold, rfl⟩ hlock
      have habsent := hasserts.2
      rw [hlive.1] at habsent
      cases habsent
  · rw [hstart] at hlock
    cases hlock

/-- Step lemma: the page table stays in agreement with the live structs. -/
theorem AddressSpace.step {s next : Machine} {action : MachineAction} (htiers : s.Tiers)
    (hpresence : s.Presence) (hspace : s.AddressSpace) (hsettled : s.TestsSettled action)
    (hstep : machineStep s action = some next) : next.AddressSpace := by
  obtain ⟨-, henabled, ⟨-, rfl⟩ | ⟨hasserts, pipe, hpipe, rfl⟩⟩ := step_cases hstep
  · exact ⟨hspace.mapped, hspace.distinct, hspace.claimedOnce, hspace.unclaimed,
      hspace.faulting, hspace.leaving, hspace.migrating⟩
  · exact
      { mapped := fun p hlive => hspace.mapped_step htiers henabled hlive
        distinct := fun p q hp hq hva => hspace.distinct_step henabled hp hq hva
        claimedOnce := fun va => by
          have honce := hspace.claimedOnce va
          obtain hless | ⟨-, hone, -⟩ := hspace.claims_step hpresence henabled va
          · exact hless.trans honce
          · exact hone
        unclaimed := fun p hlive => hspace.unclaimed_step hpresence henabled hlive
        faulting := fun va p hmem =>
          hspace.faulting_step htiers hpresence henabled hmem
        leaving := fun va hmem => hspace.leaving_step hpresence henabled hmem
        migrating := fun j half req hworker hlock =>
          hspace.migrating_step htiers hsettled henabled hasserts hpipe hworker hlock }

theorem addressSpace_pebsInit (dramsize nvmsize workers clients : ℕ) :
    (pebsInit dramsize nvmsize workers clients).AddressSpace := by
  have hidle : ∀ client ∈ (pebsInit dramsize nvmsize workers clients).clients, client = .idle :=
    fun client hmem => List.eq_of_mem_replicate hmem
  have hdead : ∀ p, ¬ (pebsInit dramsize nvmsize workers clients).Live p := by
    rintro p ⟨hpresent, -⟩
    cases hpresent
  exact
    { mapped := fun p hlive => absurd hlive (hdead p)
      distinct := fun p q hp => absurd hp (hdead p)
      claimedOnce := fun va => by
        have hzero : (pebsInit dramsize nvmsize workers clients).claimCount va = 0 := by
          refine List.countP_eq_zero.mpr fun client hmem => ?_
          rw [hidle client hmem]
          simp [Client.claims]
        omega
      unclaimed := fun p hlive => absurd hlive (hdead p)
      faulting := fun va p hmem => by cases hidle _ hmem
      leaving := fun va hmem => by cases hidle _ hmem
      migrating := fun i half req hworker hlock => by cases hlock }

end Machine

end ArmsTiering
