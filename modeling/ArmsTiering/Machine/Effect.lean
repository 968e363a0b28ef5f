import ArmsTiering.Machine.Step

/-!
# What a step leaves alone

Field by field, the steps that change a field and the value that they give it.
-/

namespace ArmsTiering

namespace MachineAction

/-- The page whose tier, offset or `present` a step writes. -/
def moved : MachineAction → Option PageId
  | .allocate _ _ _ p | .clearPresent _ _ p => some p
  | .remap _ half req _ => some (half.page req)
  | .give _ _ req _ => some req.freePage
  | _ => none

/-- The page whose frame a step changes. -/
def reframes : MachineAction → Option PageId
  | .remap _ half req _ => some (half.page req)
  | .give _ _ req _ => some req.freePage
  | _ => none

/-- The acting client thread, with its program counter before and after. -/
def clientMove : MachineAction → Option (ℕ × Client × Client)
  | .allocate c va _ p => some (c, .idle, .allocated va p)
  | .zeroAndMap c va p => some (c, .allocated va p, .mapped va p)
  | .setVa c va p => some (c, .mapped va p, .vaSet p)
  | .addToPages c p => some (c, .vaSet p, .added p)
  | .pushAdd c p => some (c, .added p, .idle)
  | .deleteFromPages c va p => some (c, .idle, .deleted va p)
  | .pushFree c va p => some (c, .deleted va p, .pushed va p)
  | .clearPresent c va p => some (c, .pushed va p, .cleared va)
  | .unmap c va => some (c, .cleared va, .idle)
  | _ => none

/-- The worker that performs a stage of a half, or ends one. -/
def actor : MachineAction → Option ℕ
  | .testPresent i _ _ | .testAbsent i _ _ | .writeProtect i _ _ _ | .copy i _ _ _
  | .remap i _ _ _ | .unlock i _ _ _ | .give i _ _ _ | .recycle i _ _ => some i
  | _ => none

/-- The worker that reaches another stage of its half. -/
def stageMove (s : Machine) : MachineAction → Option (ℕ × Stage)
  | .testPresent i half req => some (i, .locked (s.page (half.page req)).devdaxOffset)
  | .writeProtect i _ _ oldOffset => some (i, .writeProtected oldOffset)
  | .copy i _ _ oldOffset => some (i, .copied oldOffset)
  | .remap i _ _ oldOffset => some (i, .remapped oldOffset)
  | .unlock i _ _ oldOffset => some (i, .unlocked oldOffset)
  | .give i _ _ _ => some (i, .start)
  | _ => none

/-- The frame whose contents a step changes. -/
def writesAt (s : Machine) : MachineAction → Option Frame
  | .zeroAndMap _ _ p => some (s.frameOf p)
  | .store va _ _ => s.mapping va
  | .copy _ half req _ => some (s.newFrame half req)
  | _ => none

/-- The address whose entry in the page table a step changes. -/
def remapsAt (s : Machine) : MachineAction → Option Va
  | .zeroAndMap _ va _ | .unmap _ va => some va
  | .remap _ half req _ => some (s.page (half.page req)).va
  | _ => none

end MachineAction

namespace Machine

theorem effect_kept (s : Machine) (action : MachineAction) :
    (s.effect action).pipe = s.pipe ∧ (s.effect action).aborted = s.aborted := by
  cases action <;> exact ⟨rfl, rfl⟩

theorem size_effect (s : Machine) (action : MachineAction) :
    (s.effect action).dramsize = s.dramsize ∧ (s.effect action).nvmsize = s.nvmsize := by
  cases action <;> exact ⟨rfl, rfl⟩

theorem clients_effect (s : Machine) (action : MachineAction) :
    (s.effect action).clients =
      match action.clientMove with
      | none => s.clients
      | some (c, _, new) => s.clients.set c new := by
  cases action <;> rfl

theorem stage_effect (s : Machine) (action : MachineAction) :
    (s.effect action).stage =
      match action.stageMove s with
      | none => s.stage
      | some (i, new) => Function.update s.stage i new := by
  cases action <;> rfl

theorem stage_effect_of_ne {s : Machine} {action : MachineAction} {i : ℕ}
    (hactor : action.actor ≠ some i) : (s.effect action).stage i = s.stage i := by
  rw [stage_effect]
  cases action with
  | testPresent | writeProtect | copy | remap | unlock | give =>
      have hne : i ≠ _ := fun heq => hactor (congrArg some heq.symm)
      exact Function.update_of_ne hne _ _
  | _ => rfl

theorem drainFrees_iff {s : Machine} {mp : ModPage} :
    s.drainFrees mp = true ↔ mp.free = true ∧ s.pagesMap (s.page mp.page).va ≠ none := by
  simp [drainFrees, Option.isSome_iff_ne_none]

/-! ## Page structs -/

theorem drain_page (s : Machine) (mp : ModPage) (p : PageId) :
    ((s.effect (.drain mp)).page p = s.page p) ∨
      (s.effect (.drain mp)).page p = resetPageAccessFields (s.page p) := by
  simp only [effect, setPage]
  split
  · by_cases hp : p = mp.page <;> simp [hp]
  · exact Or.inl rfl

/-- Only the fault handler changes a page's address. -/
theorem va_effect {s : Machine} {action : MachineAction} (p : PageId)
    (hnot : ∀ c va q, action ≠ .setVa c va q) :
    ((s.effect action).page p).va = (s.page p).va := by
  cases action with
  | allocate | clearPresent | writeProtect | remap | give =>
      simp only [effect, setClient, setStage, setPage, mapFrame, dequeueFifo,
        Function.update_apply]
      split <;> simp_all
  | setVa c va q => exact absurd rfl (hnot c va q)
  | drain mp => obtain hpage | hpage := drain_page s mp p <;> simp only [hpage, resetPageAccessFields]
  | _ => rfl

/-- A step has not touched what the free lists and the workers depend on. -/
def SameLocation (s t : Machine) (p : PageId) : Prop :=
  (t.page p).inDram = (s.page p).inDram ∧ (t.page p).present = (s.page p).present ∧
    (t.page p).devdaxOffset = (s.page p).devdaxOffset

theorem sameLocation_effect (s : Machine) {action : MachineAction} {p : PageId}
    (hmoved : action.moved ≠ some p) : SameLocation s (s.effect action) p := by
  cases action with
  | allocate | clearPresent | remap | give =>
      have hne : p ≠ _ := fun heq => hmoved (congrArg some heq.symm)
      simp [SameLocation, effect, setClient, setStage, setPage, mapFrame, dequeueFifo, hne]
  | setVa | writeProtect =>
      simp only [SameLocation, effect, setClient, setStage, setPage, Function.update_apply]
      split <;> simp_all
  | drain mp =>
      unfold SameLocation
      obtain hpage | hpage := drain_page s mp p <;> rw [hpage] <;> exact ⟨rfl, rfl, rfl⟩
  | _ => exact ⟨rfl, rfl, rfl⟩

theorem frameOf_effect {s : Machine} {action : MachineAction} {p : PageId}
    (hnot : action.reframes ≠ some p) : (s.effect action).frameOf p = s.frameOf p := by
  have hsame : action.moved ≠ some p → (s.effect action).frameOf p = s.frameOf p := by
    intro hmoved
    obtain ⟨htier, -, hoffset⟩ := sameLocation_effect s hmoved
    simp [frameOf, htier, hoffset]
  cases action with
  | allocate | clearPresent =>
      simp only [frameOf, effect, setClient, setPage, dequeueFifo, Function.update_apply]
      split <;> simp_all
  | remap | give => exact hsame hnot
  | _ => exact hsame (by simp [MachineAction.moved])

theorem inDram_effect {s : Machine} {action : MachineAction} {p : PageId}
    (hnot : action.reframes ≠ some p) : ((s.effect action).page p).inDram = (s.page p).inDram :=
  congrArg Frame.inDram (frameOf_effect hnot)

/-! ## Maps -/

/-- Only the client threads change `pages`. -/
theorem pages_effect {s : Machine} {action : MachineAction}
    (hadd : ∀ c q, action ≠ .addToPages c q)
    (hdelete : ∀ c va q, action ≠ .deleteFromPages c va q) :
    (s.effect action).pages = s.pages := by
  cases action with
  | addToPages c q => exact absurd rfl (hadd c q)
  | deleteFromPages c va q => exact absurd rfl (hdelete c va q)
  | _ => rfl

theorem pagesMap_effect {s : Machine} {action : MachineAction}
    (hdrain : ∀ mp, action ≠ .drain mp) : (s.effect action).pagesMap = s.pagesMap := by
  cases action with
  | drain mp => exact absurd rfl (hdrain mp)
  | _ => rfl

/-- The policy thread forgets passed entries at the start of an interval only. -/
theorem usedKeys_effect {s : Machine} {action : MachineAction}
    (hbegin : ∀ batch, action ≠ .beginSchedule batch) {key : Va} (hused : key ∈ s.usedKeys) :
    key ∈ (s.effect action).usedKeys := by
  cases action with
  | beginSchedule batch => exact absurd rfl (hbegin batch)
  | schedulePromotion | scheduleDemotion => simp [effect, dequeueFifo, hused]
  | _ => exact hused

theorem mapping_effect {s : Machine} {action : MachineAction} {va : Va}
    (hnot : action.remapsAt s ≠ some va) :
    (s.effect action).mapping va = s.mapping va := by
  cases action with
  | zeroAndMap | unmap | remap =>
      have hne : va ≠ _ := fun heq => hnot (congrArg some heq.symm)
      simp [effect, setClient, setStage, setPage, setMem, mapFrame, hne]
  | _ => rfl

theorem mem_effect {s : Machine} {action : MachineAction} {frame : Frame}
    (hnot : action.writesAt s ≠ some frame) : (s.effect action).mem frame = s.mem frame := by
  cases action with
  | zeroAndMap | copy =>
      have hne : frame ≠ _ := fun heq => hnot (congrArg some heq.symm)
      simp [effect, setClient, setStage, setMem, mapFrame, hne]
  | store va offset byte =>
      cases hmapping : s.mapping va with
      | none => simp [effect, writeByte, hmapping]
      | some mapped =>
          have hne : frame ≠ mapped := by
            rintro rfl
            exact hnot hmapping
          simp [effect, writeByte, hmapping, hne]
  | _ => rfl

/-- A protected address stays so until it is mapped anew. -/
theorem writeProtected_effect {s : Machine} {action : MachineAction} {va : Va}
    (hprotected : s.writeProtected va = true) (hnot : action.remapsAt s ≠ some va) :
    (s.effect action).writeProtected va = true := by
  cases action with
  | zeroAndMap | unmap | remap =>
      have hne : va ≠ _ := fun heq => hnot (congrArg some heq.symm)
      simpa [effect, setClient, setStage, setPage, setMem, mapFrame, hne] using hprotected
  | writeProtect i half req oldOffset =>
      simp only [effect, setStage, setPage, Function.update_apply]
      split
      · rfl
      · exact hprotected
  | _ => exact hprotected

end Machine

end ArmsTiering
