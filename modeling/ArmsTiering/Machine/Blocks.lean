import ArmsTiering.Machine.Effect

/-!
# Coarser steps

Whole page faults, removals and halves of a request as single steps: the
actions of one thread without another thread's step in between.  A failing
assertion still stops the machine in the middle.
-/

namespace ArmsTiering

/-- `handle_missing_fault` -/
def faultActions (c : ℕ) (va : Va) (list : FreeList) (p : PageId) : List MachineAction :=
  [.allocate c va list p, .zeroAndMap c va p, .setVa c va p, .addToPages c p, .pushAdd c p]

/-- `pebs_remove_page` and the unmapping -/
def removeActions (c : ℕ) (va : Va) (p : PageId) : List MachineAction :=
  [.deleteFromPages c va p, .pushFree c va p, .clearPresent c va p, .unmap c va]

/-- A half of a request whose page is present. -/
def migrateActions (i : ℕ) (half : Half) (req : MigrationReq) (oldOffset : ℕ) :
    List MachineAction :=
  [.testPresent i half req, .writeProtect i half req oldOffset, .copy i half req oldOffset,
    .remap i half req oldOffset, .unlock i half req oldOffset, .give i half req oldOffset]

/-- The actions in a row, up to a failing assertion. -/
def runBlock : Machine → List MachineAction → Option Machine
  | s, [] => some s
  | s, action :: rest =>
      (machineStep s action).bind fun next =>
        if next.aborted then some next else runBlock next rest

namespace Machine

/-- The struct that `pebs_allocate_page` takes, with its list. -/
def nextFree (s : Machine) : Option (FreeList × PageId) :=
  match s.freeList .dram with
  | p :: _ => some (.dram, p)
  | [] => (s.freeList .nvm).head?.map fun p => (.nvm, p)

/-- A fault at `va` by the client thread, with a struct left to allocate. -/
def faultStep (s : Machine) (va : Va) : Option Machine :=
  s.nextFree.bind fun (list, p) => runBlock s (faultActions 0 va list p)

/-- The client thread unmaps the page that is tracked at `va`. -/
def removeStep (s : Machine) (va : Va) : Option Machine :=
  (s.pages va).bind fun p => runBlock s (removeActions 0 va p)

/-- The rest of worker `i`'s half, with the enqueue of the free page when the
half ends the request. -/
def halfStep (s : Machine) (i : ℕ) : Option Machine :=
  match s.pipe.workers[i]? with
  | some (.demote req) =>
      if (s.page req.dramPage).present then
        runBlock s (migrateActions i .demotion req (s.page req.dramPage).devdaxOffset)
      else runBlock s [.testAbsent i .demotion req, .recycle i req .demotionAbandoned]
  | some (.promote req) =>
      if (s.page req.nvmPage).present then
        runBlock s (migrateActions i .promotion req (s.page req.nvmPage).devdaxOffset ++
          [.recycle i req .migrated])
      else runBlock s [.testAbsent i .promotion req, .recycle i req .promotionAbandoned]
  | _ => none

end Machine

/-- The parts of `handle_missing_fault` and `arms_munmap`. -/
def MachineAction.byClient : MachineAction → Bool
  | .allocate _ _ _ _ | .outOfMemory _ _ | .zeroAndMap _ _ _ | .setVa _ _ _ | .addToPages _ _
  | .pushAdd _ _ | .deleteFromPages _ _ _ | .pushFree _ _ _ | .clearPresent _ _ _
  | .unmap _ _ => true
  | _ => false

/-- The stages of a half. -/
def MachineAction.byHalf : MachineAction → Bool
  | .testPresent _ _ _ | .testAbsent _ _ _ | .writeProtect _ _ _ _ | .copy _ _ _ _
  | .remap _ _ _ _ | .unlock _ _ _ _ | .give _ _ _ _ | .recycle _ _ _ => true
  | _ => false

/-- The insertion or deletion in `pages`, or the push that follows it. -/
def MachineAction.inBooks : MachineAction → Bool
  | .addToPages _ _ | .pushAdd _ _ | .deleteFromPages _ _ _ | .pushFree _ _ _ => true
  | _ => false

/-- `pebs_add_page` is atomic, and so is `pebs_remove_page` up to its push. -/
inductive BookAction
  | add (c : ℕ) (p : PageId)
  | remove (c : ℕ) (va : Va) (p : PageId)
  | other (action : MachineAction)

def bookStep (s : Machine) : BookAction → Option Machine
  | .add c p => runBlock s [.addToPages c p, .pushAdd c p]
  | .remove c va p => runBlock s [.deleteFromPages c va p, .pushFree c va p]
  | .other action => if action.inBooks then none else machineStep s action

/-- Faults and removals are atomic, the stages of a migration are not. -/
inductive TieredAction
  | fault (va : Va)
  | remove (va : Va)
  | other (action : MachineAction)

def tieredStep (s : Machine) : TieredAction → Option Machine
  | .fault va => s.faultStep va
  | .remove va => s.removeStep va
  | .other action => if action.byClient then none else machineStep s action

/-- Faults, removals and the halves of a request are atomic. -/
inductive AtomicAction
  | fault (va : Va)
  | remove (va : Va)
  | half (i : ℕ)
  | other (action : MachineAction)

def atomicStep (s : Machine) : AtomicAction → Option Machine
  | .fault va => s.faultStep va
  | .remove va => s.removeStep va
  | .half i => s.halfStep i
  | .other action => if action.byClient || action.byHalf then none else machineStep s action

/-! ## Runs of blocks -/

/-- What the actions of a block preserve one by one, the block preserves. -/
theorem runBlock_preserves (Inv : Machine → Prop) {s final : Machine}
    {actions : List MachineAction}
    (hstep : ∀ t action next, action ∈ actions → Inv t →
      machineStep t action = some next → Inv next)
    (hinv : Inv s) (hrun : runBlock s actions = some final) : Inv final := by
  induction actions generalizing s with
  | nil =>
      obtain rfl := Option.some.inj hrun
      exact hinv
  | cons action rest ih =>
      obtain ⟨next, hnext, hrest⟩ := Option.bind_eq_some_iff.mp hrun
      have hinvNext := hstep s action next List.mem_cons_self hinv hnext
      split at hrest
      · obtain rfl := Option.some.inj hrest
        exact hinvNext
      · exact ih (fun t a n hmem => hstep t a n (List.mem_cons_of_mem action hmem)) hinvNext hrest

/-- A block's first action fails an assertion and ends the block, or the rest
of the block goes on from its effect. -/
theorem runBlock_cases {s final : Machine} {action : MachineAction} {rest : List MachineAction}
    (hrun : runBlock s (action :: rest) = some final) :
    s.aborted = false ∧ s.Enabled action ∧
      (¬ s.Asserts action ∧ final = s.abort ∨
        s.Asserts action ∧ ∃ pipe, s.pipe.advance action.pipeAction = some pipe ∧
          runBlock ((s.effect action).setPipe pipe) rest = some final) := by
  obtain ⟨next, hnext, hrest⟩ := Option.bind_eq_some_iff.mp hrun
  obtain ⟨hrunning, henabled, ⟨hfails, rfl⟩ | ⟨hasserts, pipe, hpipe, rfl⟩⟩ :=
    Machine.step_cases hnext
  · refine ⟨hrunning, henabled, Or.inl ⟨hfails, ?_⟩⟩
    exact (Option.some.inj hrest).symm
  · refine ⟨hrunning, henabled, Or.inr ⟨hasserts, pipe, hpipe, ?_⟩⟩
    have hrunningNext : ((s.effect action).setPipe pipe).aborted = false :=
      (s.effect_kept action).2.trans hrunning
    rwa [hrunningNext, if_neg Bool.false_ne_true] at hrest

/-- An action that no assertion stops is the first step of its block. -/
theorem runBlock_cons {s final : Machine} {action : MachineAction} {rest : List MachineAction}
    (hrun : runBlock s (action :: rest) = some final) (hasserts : s.Asserts action) :
    s.Enabled action ∧ ∃ pipe, s.pipe.advance action.pipeAction = some pipe ∧
      runBlock ((s.effect action).setPipe pipe) rest = some final := by
  obtain ⟨-, henabled, ⟨hfails, -⟩ | ⟨-, hrest⟩⟩ := runBlock_cases hrun
  · exact absurd hasserts hfails
  · exact ⟨henabled, hrest⟩

theorem Machine.setPipe_quiet {s : Machine} {action : MachineAction} {pipe : Pipeline}
    (hpipe : s.pipe.advance action.pipeAction = some pipe) (hquiet : action.pipeAction = none) :
    (s.effect action).setPipe pipe = s.effect action := by
  rw [hquiet] at hpipe
  obtain rfl : s.pipe = pipe := Option.some.inj hpipe
  rw [← (s.effect_kept action).1]
  rfl

/-- The same for an action outside the pipeline. -/
theorem runBlock_cons_quiet {s final : Machine} {action : MachineAction}
    {rest : List MachineAction} (hrun : runBlock s (action :: rest) = some final)
    (hasserts : s.Asserts action) (hquiet : action.pipeAction = none) :
    s.Enabled action ∧ runBlock (s.effect action) rest = some final := by
  obtain ⟨henabled, pipe, hpipe, hrest⟩ := runBlock_cons hrun hasserts
  rw [Machine.setPipe_quiet hpipe hquiet] at hrest
  exact ⟨henabled, hrest⟩

theorem runBlock_append {s final : Machine} {first second : List MachineAction}
    (hrun : runBlock s (first ++ second) = some final) :
    ∃ middle, runBlock s first = some middle ∧
      (middle.aborted = true ∧ final = middle ∨ runBlock middle second = some final) := by
  induction first generalizing s with
  | nil => exact ⟨s, rfl, Or.inr hrun⟩
  | cons action rest ih =>
      obtain ⟨next, hnext, hrest⟩ := Option.bind_eq_some_iff.mp hrun
      simp only [runBlock, hnext, Option.bind_some]
      by_cases haborted : next.aborted = true
      · rw [if_pos haborted] at hrest ⊢
        exact ⟨next, rfl, Or.inl ⟨haborted, (Option.some.inj hrest).symm⟩⟩
      · rw [if_neg haborted] at hrest ⊢
        exact ih hrest

end ArmsTiering
