import ArmsTiering.Lru.Policy
import Mathlib.Data.List.Induction

/-!
# Allocation by the swapping LRU policy

`lru_allocate_page` as it is built with `LRU_SWAP`: while no DRAM page is free, a
page of the inactive list is moved to a free NVM page and its DRAM frame is taken.
-/

namespace ArmsTiering.Lru

open Function LruState

/-- A cold page goes from DRAM to a free NVM page, and the free page takes over its
frame.  Without a free page nothing else happens to the cold page. -/
def moveColdPage (s : LruState) : Except Crash LruState := do
  let (cp, s) ← s.dequeue .inactive
  let (page, s) ← s.dequeue .nvmFree
  match page with
  | none => .ok s
  | some page =>
      match cp with
      | none => .error .nullDereference
      | some cp => do
          let oldOffset := (s.pages cp).devdaxOffset
          let s := s.lruMigrateDown cp (s.pages page).devdaxOffset
          let s := s.setPage page { s.pages page with
            devdaxOffset := oldOffset, inDram := true, present := false }
          let s ← s.enqueue .nvmInactive cp
          s.enqueue .dramFree page

/-- The loop over `tries` with `left` tries to go. -/
def allocateTries (bits : Nat → PageBits) : Nat → LruState → Except Crash (Nat × LruState)
  | 0, _ => .error .outOfMemory
  | left + 1, s => do
      let (page, s) ← s.dequeue .dramFree
      match page with
      | some page =>
          if !(s.pages page).inDram ∨ (s.pages page).present then .error .assertion
          else do
            let s := s.setPage page { s.pages page with present := true }
            let s ← s.enqueue .active page
            .ok (page, s)
      | none => do
          let s ← if s.numentries .inactive = 0 then s.shrinkCaches bits dramLists else .ok s
          let s ← moveColdPage s
          allocateTries bits left s

def lruAllocatePage (bits : Nat → PageBits) (s : LruState) : Except Crash (Nat × LruState) :=
  allocateTries bits 2 s

/-- The lists after `shrink_caches` has taken the pages of `todo`. -/
def shrunk (seen : Nat → PageBits) (lists : Role → LruList) (base : LruList → List Nat)
    (todo : List Nat) : LruList → List Nat := fun list =>
  (todo.filter fun page => lists (shrinkRole (seen page)) = list) ++ base list

/-- The lists after one page of the active list has been moved. -/
def moved (seen : Nat → PageBits) (lists : Role → LruList) (base : LruList → List Nat)
    (page : Nat) : LruList → List Nat :=
  update base (lists (shrinkRole (seen page))) (page :: base (lists (shrinkRole (seen page))))

section Shrink

variable {bits seen : Nat → PageBits} {lists : Role → LruList} {s : LruState}
  {contents base : LruList → List Nat} {page : Nat}

theorem shrunk_snoc (todo : List Nat) :
    shrunk seen lists base (todo ++ [page]) =
      shrunk seen lists (moved seen lists base page) todo := by
  funext list
  unfold moved
  by_cases hlist : list = lists (shrinkRole (seen page))
  · subst hlist
    simp [shrunk]
  · simp [shrunk, hlist, Ne.symm hlist]

/-- Between two pages the lists are those before the page, with the page moved. -/
theorem settled_eq (target : LruList) (todo : List Nat) :
    update (update base (lists .active) (base (lists .active) ++ todo)) target
        (page :: update base (lists .active) (base (lists .active) ++ todo) target) =
      update (update base target (page :: base target)) (lists .active)
        (update base target (page :: base target) (lists .active) ++ todo) := by
  by_cases htarget : target = lists .active
  · subst htarget
    simp
  · rw [update_of_ne htarget, update_of_ne (Ne.symm htarget), update_comm (Ne.symm htarget)]

/-- The loop takes the pages of `todo` from the last one on. -/
theorem shrinkLoop_take (bits : Nat → PageBits) {todo : List Nat} (hrep : Represents s.fifos contents)
    (hcontents : contents =
      update base (lists .active) (base (lists .active) ++ (todo ++ [page]))) :
    ∃ s₁ : LruState, s₁.pages = s.pages ∧ s₁.vas = s.vas ∧
      Represents s₁.fifos (update base (lists .active) (base (lists .active) ++ todo)) ∧
      (∀ other, page ∉ update base (lists .active) (base (lists .active) ++ todo) other) ∧
      shrinkLoop bits lists (todo ++ [page]).length s = (do
        let s' ← s₁.settle lists page
          (shrinkSift (s.armsGetBits bits page) (s.pages page))
        shrinkLoop bits lists todo.length s') := by
  have hactive : contents (lists .active) = (base (lists .active) ++ todo) ++ [page] := by
    rw [hcontents, update_self, List.append_assoc]
  obtain ⟨s₁, hdequeue, hrep₁, hpages₁, hvas₁⟩ := dequeue_ok hrep hactive
  have hfree := hrep.not_mem_unlinked hactive
  rw [List.append_nil, hcontents, update_idem] at hfree
  rw [hcontents, update_idem] at hrep₁
  refine ⟨s₁, hpages₁, hvas₁, hrep₁, hfree, ?_⟩
  have hcount : 0 < s.numentries (lists .active) := by
    rw [numentries_eq hrep, hactive, List.length_append]
    exact Nat.succ_pos _
  rw [List.length_append, List.length_singleton, shrinkLoop, if_pos hcount, hdequeue]
  simp only [bind, Except.bind, armsGetBits, hpages₁]

theorem shrinkLoop_full_snoc {todo : List Nat} (hrep : Represents s.fifos contents)
    (hcontents : contents =
      update base (lists .active) (base (lists .active) ++ (todo ++ [page])))
    (haccessed : (s.armsGetBits bits page).accessed) (hfull : maxVas ≤ s.vas.length) :
    shrinkLoop bits lists (todo ++ [page]).length s = .error .assertion := by
  obtain ⟨s₁, -, hvas₁, -, -, hloop⟩ := shrinkLoop_take bits hrep hcontents
  rw [hloop, settle_full lists (by rw [shrinkSift_notes, haccessed]) (by rwa [hvas₁])]
  rfl

theorem shrinkLoop_snoc {todo : List Nat} (hrep : Represents s.fifos contents)
    (hseen : ∀ page, s.armsGetBits bits page = seen page)
    (hcontents : contents =
      update base (lists .active) (base (lists .active) ++ (todo ++ [page])))
    (hroom : (seen page).accessed → s.vas.length < maxVas) :
    ∃ s₂, shrinkLoop bits lists (todo ++ [page]).length s =
        shrinkLoop bits lists todo.length s₂ ∧
      Represents s₂.fifos (update (moved seen lists base page) (lists .active)
        (moved seen lists base page (lists .active) ++ todo)) ∧
      (∀ other, SameFrame (s.pages other) (s₂.pages other)) ∧
      (∀ other, s₂.armsGetBits bits other = seen other) ∧
      s₂.vas.length = s.vas.length + (seen page).accessed.toNat := by
  obtain ⟨s₁, hpages₁, hvas₁, hrep₁, hfree, hloop⟩ := shrinkLoop_take bits hrep hcontents
  obtain ⟨s₂, hsettle, hrep₂, hpages₂, hvas₂⟩ := settle_ok hrep₁ hfree lists
    (shrinkSift (s.armsGetBits bits page) (s.pages page)) (by
      rw [shrinkSift_notes, hseen, hvas₁]
      exact hroom)
  rw [shrinkSift_role, hseen, settled_eq] at hrep₂
  rw [shrinkSift_notes, hseen, hvas₁] at hvas₂
  have hframes : ∀ other, SameFrame (s.pages other) (s₂.pages other) := by
    intro other
    rw [hpages₂, hpages₁]
    by_cases hother : other = page
    · subst hother
      rw [update_self]
      exact shrinkSift_sameFrame _ _
    · rw [update_of_ne hother]
      exact SameFrame.refl _
  refine ⟨s₂, by rw [hloop, hsettle]; rfl, hrep₂, hframes, fun other => ?_, hvas₂⟩
  rw [← hseen other, armsGetBits, armsGetBits, (hframes other).1]

theorem shrinkLoop_ok (bits : Nat → PageBits) (lists : Role → LruList)
    (base : LruList → List Nat) {todo : List Nat} (hrep : Represents s.fifos contents)
    (hseen : ∀ page, s.armsGetBits bits page = seen page)
    (hcontents : contents = update base (lists .active) (base (lists .active) ++ todo))
    (hroom : s.vas.length + todo.countP (fun page => (seen page).accessed) ≤ maxVas) :
    ∃ s', shrinkLoop bits lists todo.length s = .ok s' ∧
      Represents s'.fifos (shrunk seen lists base todo) ∧
      (∀ page, SameFrame (s.pages page) (s'.pages page)) ∧ s'.vas.length ≤ maxVas := by
  induction todo using List.reverseRecOn generalizing s contents base with
  | nil =>
      refine ⟨s, rfl, ?_, fun page => SameFrame.refl _, by simpa using hroom⟩
      have : shrunk seen lists base [] = contents := by
        rw [hcontents, List.append_nil, update_eq_self]
        rfl
      rwa [this]
  | append_singleton todo page ih =>
      have hcount : s.vas.length + (seen page).accessed.toNat +
          todo.countP (fun page => (seen page).accessed) ≤ maxVas := by
        rw [List.countP_append, List.countP_singleton] at hroom
        cases haccessed : (seen page).accessed <;> simp [haccessed] at hroom ⊢ <;> omega
      obtain ⟨s₂, hloop, hrep₂, hframes, hseen₂, hvas₂⟩ := shrinkLoop_snoc hrep hseen hcontents
        (fun haccessed => by
          rw [haccessed, Bool.toNat_true] at hcount
          omega)
      obtain ⟨s', hloop', hrep', hframes', hvas'⟩ := ih _ hrep₂ hseen₂ rfl (by rwa [hvas₂])
      exact ⟨s', hloop.trans hloop', by rwa [shrunk_snoc],
        fun other => (hframes other).trans (hframes' other), hvas'⟩

theorem shrinkLoop_full (base : LruList → List Nat) {todo : List Nat} (hrep : Represents s.fifos contents)
    (hseen : ∀ page, s.armsGetBits bits page = seen page)
    (hcontents : contents = update base (lists .active) (base (lists .active) ++ todo))
    (hvas : s.vas.length ≤ maxVas)
    (hfull : maxVas < s.vas.length + todo.countP (fun page => (seen page).accessed)) :
    shrinkLoop bits lists todo.length s = .error .assertion := by
  induction todo using List.reverseRecOn generalizing s contents base with
  | nil => exact absurd hvas (Nat.not_le.mpr hfull)
  | append_singleton todo page ih =>
      have hcount : maxVas < s.vas.length + (seen page).accessed.toNat +
          todo.countP (fun page => (seen page).accessed) := by
        rw [List.countP_append, List.countP_singleton] at hfull
        cases haccessed : (seen page).accessed <;> simp [haccessed] at hfull ⊢ <;> omega
      by_cases hroom : (seen page).accessed → s.vas.length < maxVas
      · obtain ⟨s₂, hloop, hrep₂, -, hseen₂, hvas₂⟩ := shrinkLoop_snoc hrep hseen hcontents hroom
        rw [hloop]
        refine ih _ hrep₂ hseen₂ rfl ?_ (by rwa [hvas₂])
        rw [hvas₂]
        cases haccessed : (seen page).accessed with
        | false => exact hvas
        | true => exact hroom haccessed
      · obtain ⟨haccessed, hle⟩ := Classical.not_imp.mp hroom
        exact shrinkLoop_full_snoc hrep hcontents (by rwa [hseen]) (Nat.not_lt.mp hle)

end Shrink

variable {bits : Nat → PageBits} {s : LruState} {contents : LruList → List Nat}

/-- The pages that the active DRAM pages leave behind when they are moved. -/
def shrunkDram (bits : Nat → PageBits) (s : LruState) (contents : LruList → List Nat) :
    LruList → List Nat :=
  shrunk (s.armsGetBits bits) dramLists (update contents .active []) (contents .active)

/-- The number of active DRAM pages whose address a rescan would note. -/
def accessedActive (bits : Nat → PageBits) (s : LruState) (contents : LruList → List Nat) : Nat :=
  (contents .active).countP fun page => (s.armsGetBits bits page).accessed

theorem mem_shrunkDram {list : LruList} {page : Nat} :
    page ∈ shrunkDram bits s contents list ↔
      (page ∈ contents .active ∧ dramLists (shrinkRole (s.armsGetBits bits page)) = list) ∨
        (list ≠ .active ∧ page ∈ contents list) := by
  by_cases hlist : list = .active
  · subst hlist
    simp [shrunkDram, shrunk]
  · simp [shrunkDram, shrunk, hlist]

theorem shrunkDram_of_free {list : LruList} (hfree : list.isFree) :
    shrunkDram bits s contents list = contents list := by
  have hlist : ∀ role, dramLists role ≠ list := by
    rintro role rfl
    cases role <;> cases hfree
  have hactive : list ≠ .active := (hlist .active).symm
  simp [shrunkDram, shrunk, hlist, hactive]

theorem Wf.shrinkCaches (h : Wf s contents)
    (hroom : s.vas.length + accessedActive bits s contents ≤ maxVas) :
    ∃ s', s.shrinkCaches bits dramLists = .ok s' ∧ Wf s' (shrunkDram bits s contents) := by
  have hcount : s.numentries (dramLists .active) = (contents .active).length :=
    numentries_eq h.lists
  obtain ⟨s', hloop, hrep, hframes, hvas⟩ := shrinkLoop_ok bits dramLists
    (update contents .active []) h.lists (fun _ => rfl) (by simp [dramLists]) hroom
  refine ⟨s', by rw [LruState.shrinkCaches, hcount]; exact hloop, hrep, ?_, ?_, hvas⟩
  · intro list page hmem
    rw [(hframes page).2.2.1]
    rcases mem_shrunkDram.mp hmem with ⟨hactive, rfl⟩ | ⟨-, hold⟩
    · rw [h.inDram .active page hactive]
      cases shrinkRole (s.armsGetBits bits page) <;> rfl
    · exact h.inDram list page hold
  · intro list hfree page hmem
    rw [(hframes page).2.2.2]
    rcases mem_shrunkDram.mp hmem with ⟨-, rfl⟩ | ⟨-, hold⟩
    · cases hrole : shrinkRole (s.armsGetBits bits page) <;> simp [hrole, dramLists,
        LruList.isFree] at hfree
    · exact h.absent list hfree page hold

theorem Wf.shrinkCaches_full (h : Wf s contents)
    (hfull : maxVas < s.vas.length + accessedActive bits s contents) :
    s.shrinkCaches bits dramLists = .error .assertion := by
  have hcount : s.numentries (dramLists .active) = (contents .active).length :=
    numentries_eq h.lists
  rw [LruState.shrinkCaches, hcount]
  exact shrinkLoop_full (update contents .active []) h.lists (fun _ => rfl)
    (by simp [dramLists]) h.noted hfull

/-- The lists after a cold page has gone to a free NVM page. -/
def moveCold (contents : LruList → List Nat) (inactive nvmFree : List Nat) (cp page : Nat) :
    LruList → List Nat
  | .inactive => inactive
  | .nvmFree => nvmFree
  | .nvmInactive => cp :: contents .nvmInactive
  | .dramFree => page :: contents .dramFree
  | list => contents list

/-- A page of the new lists is one of the two that moved, or it stayed where it was. -/
theorem mem_moveCold {inactive nvmFree : List Nat} {cp page : Nat}
    (hinactive : contents .inactive = inactive ++ [cp])
    (hnvmFree : contents .nvmFree = nvmFree ++ [page]) (hne : page ≠ cp)
    (hcp : ∀ other, cp ∉ update (update contents .inactive inactive) .nvmFree nvmFree other)
    (hpage : ∀ other, page ∉ update (update contents .inactive inactive) .nvmFree nvmFree other) :
    ∀ list other, other ∈ moveCold contents inactive nvmFree cp page list →
      (other = page ∧ list = .dramFree) ∨ (other = cp ∧ other ≠ page ∧ list = .nvmInactive) ∨
        (other ≠ page ∧ other ≠ cp ∧ other ∈ contents list) := by
  intro list other hmem
  have hkept : ∀ list, other ∈ update (update contents .inactive inactive) .nvmFree nvmFree list →
      other ≠ page ∧ other ≠ cp ∧ other ∈ contents list := by
    intro list hin
    refine ⟨fun heq => hpage list (heq ▸ hin), fun heq => hcp list (heq ▸ hin), ?_⟩
    cases list <;> simp_all
  cases list with
  | dramFree =>
      rcases List.mem_cons.mp hmem with rfl | hold
      · exact .inl ⟨rfl, rfl⟩
      · exact .inr (.inr (hkept .dramFree (by simpa using hold)))
  | nvmInactive =>
      rcases List.mem_cons.mp hmem with rfl | hold
      · exact .inr (.inl ⟨rfl, hne.symm, rfl⟩)
      · exact .inr (.inr (hkept .nvmInactive (by simpa using hold)))
  | inactive => exact .inr (.inr (hkept .inactive (by simpa [moveCold] using hmem)))
  | nvmFree => exact .inr (.inr (hkept .nvmFree (by simpa [moveCold] using hmem)))
  | active => exact .inr (.inr (hkept .active (by simpa [moveCold] using hmem)))
  | written => exact .inr (.inr (hkept .written (by simpa [moveCold] using hmem)))
  | nvmActive => exact .inr (.inr (hkept .nvmActive (by simpa [moveCold] using hmem)))
  | nvmWritten => exact .inr (.inr (hkept .nvmWritten (by simpa [moveCold] using hmem)))

theorem Wf.moveColdPage (h : Wf s contents) {inactive nvmFree : List Nat} {cp page : Nat}
    (hinactive : contents .inactive = inactive ++ [cp])
    (hnvmFree : contents .nvmFree = nvmFree ++ [page]) :
    ∃ s', Lru.moveColdPage s = .ok s' ∧
      Wf s' (moveCold contents inactive nvmFree cp page) := by
  have hnvmFree₁ : update contents .inactive inactive .nvmFree = nvmFree ++ [page] := by
    rw [update_of_ne (by decide), hnvmFree]
  obtain ⟨s₁, hdequeue₁, hrep₁, hpages₁, hvas₁⟩ := dequeue_ok h.lists hinactive
  obtain ⟨s₂, hdequeue₂, hrep₂, hpages₂, hvas₂⟩ := dequeue_ok hrep₁ hnvmFree₁
  have hcp : ∀ other, cp ∉ update (update contents .inactive inactive) .nvmFree nvmFree other := by
    have hout := h.lists.not_mem_unlinked hinactive
    rw [List.append_nil] at hout
    intro other hmem
    by_cases hother : other = .nvmFree
    · subst hother
      rw [update_self] at hmem
      exact hout .nvmFree (by simp [hnvmFree, hmem])
    · rw [update_of_ne hother] at hmem
      exact hout other hmem
  have hpage : ∀ other,
      page ∉ update (update contents .inactive inactive) .nvmFree nvmFree other := by
    simpa using hrep₁.not_mem_unlinked hnvmFree₁
  have hcpMem : cp ∈ contents .inactive := by simp [hinactive]
  have hpageMem : page ∈ contents .nvmFree := by simp [hnvmFree]
  have hne : page ≠ cp := by
    rintro rfl
    exact absurd (h.lists.unique hcpMem hpageMem) (by decide)
  obtain ⟨s₃, henqueue₃, hrep₃, hpages₃, hvas₃⟩ := enqueue_ok .nvmInactive
    (s := (s₂.lruMigrateDown cp (s₂.pages page).devdaxOffset).setPage page
      { (s₂.lruMigrateDown cp (s₂.pages page).devdaxOffset).pages page with
        devdaxOffset := (s₂.pages cp).devdaxOffset, inDram := true, present := false })
    hrep₂ hcp
  have hpage₃ : ∀ other, page ∉ update (update (update contents .inactive inactive) .nvmFree nvmFree)
      .nvmInactive (cp :: update (update contents .inactive inactive) .nvmFree nvmFree
        .nvmInactive) other := by
    intro other hmem
    by_cases hother : other = .nvmInactive
    · subst hother
      rw [update_self] at hmem
      exact hpage .nvmInactive ((List.mem_cons.mp hmem).resolve_left hne)
    · rw [update_of_ne hother] at hmem
      exact hpage other hmem
  obtain ⟨s₄, henqueue₄, hrep₄, hpages₄, hvas₄⟩ := enqueue_ok .dramFree hrep₃ hpage₃
  have hcontents : moveCold contents inactive nvmFree cp page =
      update (update (update (update contents .inactive inactive) .nvmFree nvmFree)
        .nvmInactive (cp :: contents .nvmInactive)) .dramFree (page :: contents .dramFree) := by
    funext list
    cases list <;> simp [moveCold]
  have hpages : ∀ other, s₄.pages other =
      if other = page then { s.pages page with
        devdaxOffset := (s.pages cp).devdaxOffset, inDram := true, present := false }
      else if other = cp then { s.pages cp with
        devdaxOffset := (s.pages page).devdaxOffset, inDram := false, migrating := false }
      else s.pages other := by
    intro other
    rw [hpages₄, hpages₃, setPage_pages, lruMigrateDown, setPage_pages, hpages₂, hpages₁]
    by_cases hpage' : other = page
    · subst hpage'
      simp [hne]
    · by_cases hcp' : other = cp
      · subst hcp'
        simp [hpage']
      · simp [hpage', hcp']
  have hcases := mem_moveCold hinactive hnvmFree hne hcp hpage
  refine ⟨s₄, ?_, ?_, ?_, ?_, ?_⟩
  · simp only [Lru.moveColdPage, hdequeue₁, hdequeue₂, bind, Except.bind, henqueue₃]
    exact henqueue₄
  · rw [hcontents]
    simpa using hrep₄
  · intro list other hmem
    rw [hpages]
    rcases hcases list other hmem with ⟨rfl, rfl⟩ | ⟨rfl, hother, rfl⟩ | ⟨hpage', hcp', hold⟩
    · rw [if_pos rfl]
      rfl
    · rw [if_neg hother, if_pos rfl]
      rfl
    · rw [if_neg hpage', if_neg hcp']
      exact h.inDram list other hold
  · intro list hfree other hmem
    rw [hpages]
    rcases hcases list other hmem with ⟨rfl, rfl⟩ | ⟨rfl, hother, rfl⟩ | ⟨hpage', hcp', hold⟩
    · rw [if_pos rfl]
    · exact absurd hfree (by decide)
    · rw [if_neg hpage', if_neg hcp']
      exact h.absent list hfree other hold
  · rw [hvas₄, hvas₃, setPage_vas, lruMigrateDown, setPage_vas, hvas₂, hvas₁]
    exact h.noted

/-- No page that was on a list before is missing afterwards. -/
def Keeps (contents contents' : LruList → List Nat) : Prop :=
  ∀ list, ∀ page ∈ contents list, ∃ list', page ∈ contents' list'

theorem Keeps.trans {contents' contents'' : LruList → List Nat} (h : Keeps contents contents')
    (h' : Keeps contents' contents'') : Keeps contents contents'' := by
  intro list page hmem
  obtain ⟨list', hmem'⟩ := h list page hmem
  exact h' list' page hmem'

theorem keeps_shrunkDram : Keeps contents (shrunkDram bits s contents) := by
  intro list page hmem
  by_cases hlist : list = .active
  · subst hlist
    exact ⟨_, mem_shrunkDram.mpr (.inl ⟨hmem, rfl⟩)⟩
  · exact ⟨list, mem_shrunkDram.mpr (.inr ⟨hlist, hmem⟩)⟩

theorem keeps_moveCold {inactive nvmFree : List Nat} {cp page : Nat}
    (hinactive : contents .inactive = inactive ++ [cp])
    (hnvmFree : contents .nvmFree = nvmFree ++ [page]) :
    Keeps contents (moveCold contents inactive nvmFree cp page) := by
  intro list other hmem
  cases list with
  | inactive =>
      rw [hinactive] at hmem
      rcases List.mem_append.mp hmem with hold | hcp
      · exact ⟨.inactive, hold⟩
      · exact ⟨.nvmInactive, by simp [moveCold, List.mem_singleton.mp hcp]⟩
  | nvmFree =>
      rw [hnvmFree] at hmem
      rcases List.mem_append.mp hmem with hold | hpage
      · exact ⟨.nvmFree, hold⟩
      · exact ⟨.dramFree, by simp [moveCold, List.mem_singleton.mp hpage]⟩
  | nvmInactive => exact ⟨.nvmInactive, List.mem_cons_of_mem _ hmem⟩
  | dramFree => exact ⟨.dramFree, List.mem_cons_of_mem _ hmem⟩
  | active => exact ⟨.active, hmem⟩
  | written => exact ⟨.written, hmem⟩
  | nvmActive => exact ⟨.nvmActive, hmem⟩
  | nvmWritten => exact ⟨.nvmWritten, hmem⟩

/-- The allocation returns a page that is in DRAM and in use, and every page that was
on a list is on exactly one list. -/
def AllocatesSafely (bits : Nat → PageBits) (s : LruState) (contents : LruList → List Nat) : Prop :=
  ∃ page s' contents', lruAllocatePage bits s = .ok (page, s') ∧
    (s'.pages page).inDram ∧ (s'.pages page).present ∧ Represents s'.fifos contents' ∧
    ∀ list, ∀ other ∈ contents list, ∃! list', other ∈ contents' list'

/-- The lists after a free DRAM page has become an active one. -/
def takeFree (contents : LruList → List Nat) (dramFree : List Nat) (page : Nat) :
    LruList → List Nat :=
  update (update contents .dramFree dramFree) .active (page :: contents .active)

theorem keeps_takeFree {dramFree : List Nat} {page : Nat}
    (hfree : contents .dramFree = dramFree ++ [page]) :
    Keeps contents (takeFree contents dramFree page) := by
  intro list other hold
  by_cases hlist : list = .dramFree
  · subst hlist
    rw [hfree] at hold
    rcases List.mem_append.mp hold with hrest | hlast
    · exact ⟨.dramFree, by simpa [takeFree] using hrest⟩
    · exact ⟨.active, by simp [takeFree, List.mem_singleton.mp hlast]⟩
  · refine ⟨list, ?_⟩
    by_cases hactive : list = .active
    · subst hactive
      simp [takeFree, hold]
    · simpa [takeFree, hactive, hlist] using hold

/-- A free DRAM page is taken. -/
theorem Wf.allocateTries_free (h : Wf s contents) (bits : Nat → PageBits) {dramFree : List Nat}
    {page : Nat} (left : Nat) (hfree : contents .dramFree = dramFree ++ [page]) :
    ∃ s', allocateTries bits (left + 1) s = .ok (page, s') ∧
      (s'.pages page).inDram ∧ (s'.pages page).present ∧
      Wf s' (takeFree contents dramFree page) ∧ s'.vas = s.vas := by
  obtain ⟨s₁, hdequeue, hrep₁, hpages₁, hvas₁⟩ := dequeue_ok h.lists hfree
  have hout := h.lists.not_mem_unlinked hfree
  rw [List.append_nil] at hout
  obtain ⟨s₂, henqueue, hrep₂, hpages₂, hvas₂⟩ := enqueue_ok .active
    (s := s₁.setPage page { s₁.pages page with present := true }) hrep₁ hout
  have hmem : page ∈ contents .dramFree := by simp [hfree]
  have hinDram : (s₁.pages page).inDram = true := by
    rw [hpages₁]
    exact h.inDram .dramFree page hmem
  have habsent : (s₁.pages page).present = false := by
    rw [hpages₁]
    exact h.absent .dramFree rfl page hmem
  have hpages : ∀ other, s₂.pages other =
      if other = page then { s.pages page with present := true } else s.pages other := by
    intro other
    rw [hpages₂, setPage_pages, hpages₁, update_apply]
  have hcontents : ∀ list other, other ∈ takeFree contents dramFree page list →
      (other = page ∧ list = .active) ∨ (other ≠ page ∧ other ∈ contents list) := by
    intro list other hin
    by_cases hactive : list = .active
    · subst hactive
      rw [takeFree, update_self] at hin
      rcases List.mem_cons.mp hin with rfl | hold
      · exact .inl ⟨rfl, rfl⟩
      · exact .inr ⟨fun heq => hout .active (by simpa using heq ▸ hold), hold⟩
    · rw [takeFree, update_of_ne hactive] at hin
      refine .inr ⟨fun heq => hout list (heq ▸ hin), ?_⟩
      by_cases hlist : list = .dramFree
      · subst hlist
        rw [update_self] at hin
        simp [hfree, hin]
      · rwa [update_of_ne hlist] at hin
  refine ⟨s₂, ?_, ?_, ?_, ⟨by simpa [takeFree] using hrep₂, ?_, ?_, ?_⟩, hvas₂.trans hvas₁⟩
  · have hasserts : ¬((!(s₁.pages page).inDram) = true ∨ (s₁.pages page).present = true) := by
      simp [hinDram, habsent]
    rw [allocateTries, hdequeue]
    simp only [bind, Except.bind]
    rw [if_neg hasserts, henqueue]
  · rw [hpages₂, setPage_pages, update_self]
    exact hinDram
  · rw [hpages₂, setPage_pages, update_self]
  · intro list other hin
    rw [hpages]
    rcases hcontents list other hin with ⟨rfl, rfl⟩ | ⟨hother, hold⟩
    · rw [if_pos rfl]
      exact h.inDram .dramFree other hmem
    · rw [if_neg hother]
      exact h.inDram list other hold
  · intro list hlist other hin
    rw [hpages]
    rcases hcontents list other hin with ⟨rfl, rfl⟩ | ⟨hother, hold⟩
    · cases hlist
    · rw [if_neg hother]
      exact h.absent list hlist other hold
  · rw [hvas₂, setPage_vas, hvas₁]
    exact h.noted

/-- Once a cold page has been moved, the next try finds the page it made room for. -/
theorem Wf.allocateTries_move (h : Wf s contents) (bits : Nat → PageBits) {inactive nvmFree : List Nat} {cp page : Nat}
    (left : Nat) (hdramFree : contents .dramFree = [])
    (hinactive : contents .inactive = inactive ++ [cp])
    (hnvmFree : contents .nvmFree = nvmFree ++ [page]) :
    ∃ page s' contents', (do
        let s ← Lru.moveColdPage s
        allocateTries bits (left + 1) s) = .ok (page, s') ∧
      (s'.pages page).inDram ∧ (s'.pages page).present ∧ Represents s'.fifos contents' ∧
      Keeps contents contents' := by
  obtain ⟨s₁, hmove, h₁⟩ := h.moveColdPage hinactive hnvmFree
  have hfree : moveCold contents inactive nvmFree cp page .dramFree = [] ++ [page] := by
    simp [moveCold, hdramFree]
  obtain ⟨s', halloc, hinDram, hpresent, h', -⟩ := h₁.allocateTries_free bits left hfree
  refine ⟨page, s', _, ?_, hinDram, hpresent, h'.lists,
    (keeps_moveCold hinactive hnvmFree).trans (keeps_takeFree hfree)⟩
  rw [hmove]
  exact halloc

theorem Wf.moveColdPage_null (h : Wf s contents) {nvmFree : List Nat} {page : Nat}
    (hinactive : contents .inactive = []) (hnvmFree : contents .nvmFree = nvmFree ++ [page]) :
    Lru.moveColdPage s = .error .nullDereference := by
  obtain ⟨s₁, hdequeue, -, -, -⟩ := dequeue_ok h.lists hnvmFree
  simp only [Lru.moveColdPage, dequeue_nil h.lists hinactive, hdequeue, bind, Except.bind]

theorem Wf.allocateTries_full (h : Wf s contents) (left : Nat)
    (hdramFree : contents .dramFree = []) :
    allocateTries bits (left + 1) s = (do
      let s ← if contents .inactive = [] then s.shrinkCaches bits dramLists else .ok s
      let s ← Lru.moveColdPage s
      allocateTries bits left s) := by
  have hcount : s.numentries .inactive = 0 ↔ contents .inactive = [] := by
    rw [numentries_eq h.lists, List.length_eq_zero_iff]
  rw [allocateTries, dequeue_nil h.lists hdramFree]
  simp only [bind, Except.bind, hcount]

/-- A DRAM page is free, or a page of the inactive list or a page that the rescan of
the active list would put there can make room. -/
def FindsRoom (bits : Nat → PageBits) (s : LruState) (contents : LruList → List Nat) : Prop :=
  contents .dramFree ≠ [] ∨ contents .inactive ≠ [] ∨
    ((∃ page ∈ contents .active, (s.armsGetBits bits page).accessed = false) ∧
      s.vas.length + accessedActive bits s contents ≤ maxVas)

theorem shrunkDram_inactive_nil (hinactive : contents .inactive = []) :
    shrunkDram bits s contents .inactive = [] ↔
      ∀ page ∈ contents .active, (s.armsGetBits bits page).accessed = true := by
  have hrole : ∀ seen : PageBits,
      dramLists (shrinkRole seen) = .inactive ↔ seen.accessed = false := by
    intro seen
    cases haccessed : seen.accessed <;> cases hdirty : seen.dirty <;>
      simp [shrinkRole, haccessed, hdirty, dramLists]
  rw [List.eq_nil_iff_forall_not_mem]
  refine forall_congr' fun page => ?_
  simp [mem_shrunkDram, hrole, hinactive]

theorem Wf.findsRoom_of_allocates (h : Wf s contents)
    (hframe : contents .dramFree ≠ [] ∨ contents .nvmFree ≠ []) {page : Nat} {s' : LruState}
    (halloc : lruAllocatePage bits s = .ok (page, s')) : FindsRoom bits s contents := by
  by_contra hnone
  obtain ⟨hdramFree, hrest⟩ := not_or.mp hnone
  obtain ⟨hinactive, hcold⟩ := not_or.mp hrest
  have hdramFree := not_not.mp hdramFree
  have hinactive := not_not.mp hinactive
  obtain ⟨nvmFree, frame, hnvmFree⟩ : ∃ nvmFree frame, contents .nvmFree = nvmFree ++ [frame] :=
    (List.eq_nil_or_concat' _).resolve_left (hframe.resolve_left (not_not.mpr hdramFree))
  rw [lruAllocatePage, h.allocateTries_full 1 hdramFree, if_pos hinactive] at halloc
  by_cases hroom : s.vas.length + accessedActive bits s contents ≤ maxVas
  · obtain ⟨s₁, hshrink, h₁⟩ := h.shrinkCaches hroom
    have hnil : shrunkDram bits s contents .inactive = [] := by
      rw [shrunkDram_inactive_nil hinactive]
      intro page hmem
      by_contra haccessed
      exact hcold ⟨⟨page, hmem, by simpa using haccessed⟩, hroom⟩
    have hnull := h₁.moveColdPage_null hnil ((shrunkDram_of_free rfl).trans hnvmFree)
    rw [hshrink] at halloc
    simp only [bind, Except.bind, hnull] at halloc
    cases halloc
  · rw [h.shrinkCaches_full (Nat.not_le.mp hroom)] at halloc
    cases halloc

theorem Wf.allocates_of_findsRoom (h : Wf s contents)
    (hframe : contents .dramFree ≠ [] ∨ contents .nvmFree ≠ []) (hroom : FindsRoom bits s contents) :
    ∃ page s' contents', lruAllocatePage bits s = .ok (page, s') ∧
      (s'.pages page).inDram ∧ (s'.pages page).present ∧ Represents s'.fifos contents' ∧
      Keeps contents contents' := by
  by_cases hdramFree : contents .dramFree = []
  · obtain ⟨nvmFree, frame, hnvmFree⟩ : ∃ nvmFree frame, contents .nvmFree = nvmFree ++ [frame] :=
      (List.eq_nil_or_concat' _).resolve_left (hframe.resolve_left (not_not.mpr hdramFree))
    rw [lruAllocatePage, h.allocateTries_full 1 hdramFree]
    by_cases hinactive : contents .inactive = []
    · obtain ⟨⟨cold, hmem, hcold⟩, hvas⟩ :=
        (hroom.resolve_left (not_not.mpr hdramFree)).resolve_left (not_not.mpr hinactive)
      obtain ⟨s₁, hshrink, h₁⟩ := h.shrinkCaches hvas
      obtain ⟨inactive, cp, hcp⟩ : ∃ inactive cp,
          shrunkDram bits s contents .inactive = inactive ++ [cp] := by
        refine (List.eq_nil_or_concat' _).resolve_left fun hnil => ?_
        have haccessed := (shrunkDram_inactive_nil hinactive).mp hnil cold hmem
        rw [hcold] at haccessed
        cases haccessed
      obtain ⟨page, s', contents', halloc, hinDram, hpresent, hrep, hkeeps⟩ :=
        h₁.allocateTries_move bits 0 ((shrunkDram_of_free rfl).trans hdramFree) hcp
          ((shrunkDram_of_free rfl).trans hnvmFree)
      refine ⟨page, s', contents', ?_, hinDram, hpresent, hrep, keeps_shrunkDram.trans hkeeps⟩
      rw [if_pos hinactive, hshrink]
      exact halloc
    · obtain ⟨inactive, cp, hcp⟩ : ∃ inactive cp, contents .inactive = inactive ++ [cp] :=
        (List.eq_nil_or_concat' _).resolve_left hinactive
      rw [if_neg hinactive]
      exact h.allocateTries_move bits 0 hdramFree hcp hnvmFree
  · obtain ⟨dramFree, page, hfree⟩ : ∃ dramFree page, contents .dramFree = dramFree ++ [page] :=
      (List.eq_nil_or_concat' _).resolve_left hdramFree
    obtain ⟨s', halloc, hinDram, hpresent, h', -⟩ := h.allocateTries_free bits 1 hfree
    exact ⟨page, s', _, halloc, hinDram, hpresent, h'.lists, keeps_takeFree hfree⟩

theorem allocatesSafely_iff (bits : Nat → PageBits) (s : LruState)
    (contents : LruList → List Nat) (h : Wf s contents)
    (hframe : contents .dramFree ≠ [] ∨ contents .nvmFree ≠ []) :
    AllocatesSafely bits s contents ↔ FindsRoom bits s contents := by
  constructor
  · rintro ⟨page, s', contents', halloc, -⟩
    exact h.findsRoom_of_allocates hframe halloc
  · intro hroom
    obtain ⟨page, s', contents', halloc, hinDram, hpresent, hrep, hkeeps⟩ :=
      h.allocates_of_findsRoom hframe hroom
    refine ⟨page, s', contents', halloc, hinDram, hpresent, hrep, fun list other hmem => ?_⟩
    obtain ⟨list', hmem'⟩ := hkeeps list other hmem
    exact ⟨list', hmem', fun _ hother => hrep.unique hmem' hother⟩

/-! ## One page of each memory, and the DRAM page in use -/

/-- After one allocation the DRAM page is active and the NVM page is free. -/
theorem exists_oneActive : ∃ s contents, Wf s contents ∧ contents .active = [0] ∧
    contents .inactive = [] ∧ contents .dramFree = [] ∧ contents .nvmFree = [1] ∧ s.vas = [] := by
  obtain ⟨s, -, h, -, hvas⟩ := lruInit_ok 1 1
  obtain ⟨s', -, -, -, h', hvas'⟩ := h.allocateTries_free
    (fun _ => { accessed := false, dirty := false }) 1
    (show initialContents 1 1 .dramFree = [] ++ [0] from rfl)
  exact ⟨s', _, h', rfl, rfl, rfl, rfl, hvas'.trans hvas⟩

/-- While that page is not accessed, it makes room. -/
theorem allocatesSafely_iff_oneActive : ∃ s contents,
    contents .active = [0] ∧ contents .dramFree = [] ∧
      AllocatesSafely (fun _ => { accessed := false, dirty := false }) s contents := by
  obtain ⟨s, contents, h, hactive, -, hdramFree, hnvmFree, hvas⟩ := exists_oneActive
  refine ⟨s, contents, hactive, hdramFree,
    (allocatesSafely_iff _ s contents h (.inr (by simp [hnvmFree]))).mpr (.inr (.inr ⟨?_, ?_⟩))⟩
  · exact ⟨0, by simp [hactive], rfl⟩
  · simp [hvas, accessedActive, LruState.armsGetBits]

/-- When that page was accessed and is needed again, nothing can make room. -/
theorem not_allocatesSafely :
    ¬ ∀ bits s contents, Wf s contents →
      (contents .dramFree ≠ [] ∨ contents .nvmFree ≠ []) →
      (∃ list, list.inDram ∧ contents list ≠ []) → AllocatesSafely bits s contents := by
  intro hall
  obtain ⟨s, contents, h, hactive, hinactive, hdramFree, hnvmFree, -⟩ := exists_oneActive
  have hsafe := hall (fun _ => { accessed := true, dirty := false }) s contents h
    (.inr (by simp [hnvmFree])) ⟨.active, rfl, by simp [hactive]⟩
  obtain ⟨page, s', contents', halloc, -⟩ := hsafe
  rcases h.findsRoom_of_allocates (.inr (by simp [hnvmFree])) halloc with hfree | hcold | ⟨⟨_, _, hbits⟩, -⟩
  · exact hfree hdramFree
  · exact hcold hinactive
  · cases hbits

end ArmsTiering.Lru
