import ArmsTiering.Lru.Threads

/-!
# Lists and hands

Which lists the pages are on while the threads of the LRU policy move them: a list
operation takes a page into a thread's hands or puts it back, and what the threads
know of the pages in their hands is not changed by the others.
-/

namespace ArmsTiering.Lru

open Function

/-- The pages in the threads' hands are on no list, each is in one pair of hands, and
no page is missing. -/
structure Placed (total : Nat) (s : LruState) (contents : LruList → List Nat)
    (held : List Nat) : Prop where
  lists : Represents s.fifos contents
  inDram : ∀ list, ∀ page ∈ contents list, (s.pages page).inDram = list.inDram
  away : ∀ page ∈ held, ∀ list, page ∉ contents list
  nodup : held.Nodup
  complete : ∀ page, page < total → page ∈ held ∨ ∃ list, page ∈ contents list

namespace Placed

variable {total : Nat} {s s' : LruState} {contents : LruList → List Nat} {held rest : List Nat}
  {list : LruList} {page : Nat}

theorem perm (h : Placed total s contents held) (hperm : held.Perm rest) :
    Placed total s contents rest where
  lists := h.lists
  inDram := h.inDram
  away page hmem := h.away page (hperm.mem_iff.mpr hmem)
  nodup := hperm.nodup_iff.mp h.nodup
  complete page hlt := (h.complete page hlt).imp_left hperm.mem_iff.mp

/-- Flags of pages may change, and the memory of the pages in the threads' hands. -/
theorem congr (h : Placed total s contents held) (hfifos : s'.fifos = s.fifos)
    (hpages : ∀ page, page ∉ held → (s'.pages page).inDram = (s.pages page).inDram) :
    Placed total s' contents held where
  lists := hfifos ▸ h.lists
  inDram list page hmem := by
    rw [hpages page fun hheld => h.away page hheld list hmem]
    exact h.inDram list page hmem
  away := h.away
  nodup := h.nodup
  complete := h.complete

/-- A page is taken out of its list. -/
theorem unlink (h : Placed total s contents held) (s' : LruState) {before after : List Nat}
    (hcontents : contents list = before ++ page :: after)
    (hlists : Represents s'.fifos (update contents list (before ++ after)))
    (hpages : s'.pages = s.pages) :
    Placed total s' (update contents list (before ++ after)) (page :: held) := by
  have hout := h.lists.not_mem_unlinked hcontents
  have hsub : ∀ other, ∀ p ∈ update contents list (before ++ after) other,
      p ∈ contents other := by
    intro other p hmem
    by_cases hother : other = list
    · subst hother
      rw [update_self] at hmem
      rw [hcontents]
      rcases List.mem_append.mp hmem with hb | ha
      · exact List.mem_append_left _ hb
      · exact List.mem_append_right _ (List.mem_cons_of_mem _ ha)
    · rwa [update_of_ne hother] at hmem
  refine ⟨hlists, ?_, ?_, ?_, ?_⟩
  · intro other p hmem
    rw [hpages]
    exact h.inDram other p (hsub other p hmem)
  · intro p hmem other hin
    rcases List.mem_cons.mp hmem with rfl | hheld
    · exact hout other hin
    · exact h.away p hheld other (hsub other p hin)
  · refine List.nodup_cons.mpr ⟨fun hmem => ?_, h.nodup⟩
    exact h.away page hmem list (by simp [hcontents])
  · intro p hlt
    by_cases hp : p = page
    · exact .inl (by simp [hp])
    · rcases h.complete p hlt with hheld | ⟨other, hin⟩
      · exact .inl (List.mem_cons_of_mem _ hheld)
      · refine .inr ⟨other, ?_⟩
        by_cases hother : other = list
        · subst hother
          rw [hcontents] at hin
          rw [update_self]
          simpa [hp] using hin
        · rwa [update_of_ne hother]

/-- The dequeue of a page. -/
theorem take (h : Placed total s contents held)
    (htake : s.dequeue list = .ok (some page, s')) :
    ∃ contents', Placed total s' contents' (page :: held) ∧ s'.pages = s.pages ∧
      (∀ other, other ≠ list → contents' other = contents other) ∧
      (s.pages page).inDram = list.inDram := by
  rcases List.eq_nil_or_concat' (contents list) with hnil | ⟨before, last, hlast⟩
  · rw [LruState.dequeue_nil h.lists hnil] at htake
    cases htake
  · obtain ⟨s₁, heq, hrep, hpages, -⟩ := LruState.dequeue_ok h.lists hlast
    rw [heq] at htake
    obtain ⟨hpage, rfl⟩ := Prod.mk.inj (Except.ok.inj htake)
    obtain rfl := Option.some.inj hpage
    refine ⟨_, h.unlink s₁ hlast (by simpa using hrep) hpages, hpages, ?_, ?_⟩
    · intro other hother
      rw [update_of_ne hother]
    · exact h.inDram list last (by simp [hlast])

/-- The dequeue of an empty list. -/
theorem miss (h : Placed total s contents held) (htake : s.dequeue list = .ok (none, s')) :
    s' = s ∧ contents list = [] := by
  rcases List.eq_nil_or_concat' (contents list) with hnil | ⟨before, last, hlast⟩
  · rw [LruState.dequeue_nil h.lists hnil] at htake
    exact ⟨(Prod.mk.inj (Except.ok.inj htake)).2.symm, hnil⟩
  · obtain ⟨s₁, heq, -⟩ := LruState.dequeue_ok h.lists hlast
    rw [heq] at htake
    cases (Prod.mk.inj (Except.ok.inj htake)).1

/-- A page in a thread's hands is put on a list of its memory. -/
theorem put (h : Placed total s contents held) (rest : List Nat)
    (hperm : held.Perm (page :: rest))
    (htier : (s.pages page).inDram = list.inDram) (hput : s.enqueue list page = .ok s') :
    Placed total s' (update contents list (page :: contents list)) rest ∧
      s'.pages = s.pages := by
  have h := h.perm hperm
  have hfree := h.away page List.mem_cons_self
  obtain ⟨s₁, heq, hrep, hpages, -⟩ := LruState.enqueue_ok list h.lists hfree
  obtain rfl := Except.ok.inj (heq.symm.trans hput)
  have hcases : ∀ other, ∀ p ∈ update contents list (page :: contents list) other,
      (p = page ∧ other = list) ∨ p ∈ contents other := by
    intro other p hmem
    by_cases hother : other = list
    · subst hother
      rw [update_self] at hmem
      exact (List.mem_cons.mp hmem).imp_left fun heq => ⟨heq, rfl⟩
    · rw [update_of_ne hother] at hmem
      exact .inr hmem
  refine ⟨⟨hrep, ?_, ?_, (List.nodup_cons.mp h.nodup).2, ?_⟩, hpages⟩
  · intro other p hmem
    rw [hpages]
    rcases hcases other p hmem with ⟨rfl, rfl⟩ | hold
    · exact htier
    · exact h.inDram other p hold
  · intro p hmem other hin
    rcases hcases other p hin with ⟨rfl, -⟩ | hold
    · exact (List.nodup_cons.mp h.nodup).1 hmem
    · exact h.away p (List.mem_cons_of_mem _ hmem) other hold
  · intro p hlt
    rcases h.complete p hlt with hheld | ⟨other, hin⟩
    · rcases List.mem_cons.mp hheld with rfl | hrest
      · exact .inr ⟨list, by simp⟩
      · exact .inl hrest
    · refine .inr ⟨other, ?_⟩
      by_cases hother : other = list
      · subst hother
        simp [hin]
      · rwa [update_of_ne hother]

end Placed

/-! ## What the threads know of the pages in their hands -/

/-- The scanner puts a page back on a list of the memory it took it from. -/
def ScanPc.Ok (inDram : Nat → Bool) : ScanPc → Prop
  | .sift call _ page | .put call _ page _ => inDram page = call.inDram
  | _ => True

theorem ScanPc.Ok.congr {inDram inDram' : Nat → Bool} {pc : ScanPc} (h : pc.Ok inDram)
    (hsame : ∀ page ∈ pc.held, inDram' page = inDram page) : pc.Ok inDram' := by
  cases pc with
  | sift call left page => exact (hsame page (List.mem_singleton_self page)).trans h
  | put call left page role => exact (hsame page (List.mem_singleton_self page)).trans h
  | asleep | count | test | take | clear => trivial

/-- The memory of the pages at each point; the second try finds a free DRAM page. -/
def LockedPc.Ok (inDram : Nat → Bool) (dramFree : List Nat) : LockedPc → Prop
  | .swapTry _ tries p _ => inDram p = false ∧ (tries ≠ 0 → dramFree ≠ [])
  | .swapUp _ p np => inDram p = false ∧ inDram np = true
  | .swapUpFrame _ p np _ => inDram p = true ∧ inDram np = true
  | .swapUpPut _ p np => inDram p = true ∧ inDram np = false
  | .swapUpFree _ np => inDram np = false
  | .swapCold _ tries p _ => inDram p = false ∧ tries = 0
  | .swapBack p _ => inDram p = false
  | .swapNvm _ tries p _ cp => inDram p = false ∧ inDram cp = true ∧ tries = 0
  | .swapDown _ tries p _ cp np =>
      inDram p = false ∧ inDram cp = true ∧ inDram np = false ∧ tries = 0
  | .swapDownFrame _ tries p _ cp np _ =>
      inDram p = false ∧ inDram cp = false ∧ inDram np = false ∧ tries = 0
  | .swapDownPut _ tries p _ cp np =>
      inDram p = false ∧ inDram cp = false ∧ inDram np = true ∧ tries = 0
  | .swapDownFree _ tries p _ np => inDram p = false ∧ inDram np = true ∧ tries = 0
  | .faultPresent page dram | .faultPut page dram => inDram page = dram
  | _ => True

namespace Threads

def inDram (t : Threads) (page : Nat) : Bool := (t.lru.pages page).inDram

def lockedHeld (t : Threads) : List Nat := (t.locked.map LockedPc.held).getD []

def LockedOk (t : Threads) (dramFree : List Nat) : Prop :=
  ∀ pc, t.locked = some pc → pc.Ok t.inDram dramFree

structure InvWith (total : Nat) (t : Threads) (contents : LruList → List Nat) : Prop where
  placed : Placed total t.lru contents t.held
  scanOk : t.scan.Ok t.inDram
  lockedOk : t.LockedOk (contents .dramFree)

def Inv (total : Nat) (t : Threads) : Prop := ∃ contents, InvWith total t contents

variable {total : Nat} {t t' : Threads} {contents : LruList → List Nat}

theorem Inv.partition (hinv : Inv total t) : Partition total t := by
  obtain ⟨contents, h, -, -⟩ := hinv
  refine ⟨contents, h.lists, h.inDram, fun page hlt => ?_⟩
  by_cases hheld : page ∈ t.held
  · exact .inr ⟨h.away page hheld, List.count_eq_one_of_mem h.nodup hheld⟩
  · obtain ⟨list, hmem⟩ := (h.complete page hlt).resolve_left hheld
    exact .inl ⟨⟨list, hmem, fun _ hother => h.lists.unique hmem hother⟩,
      List.count_eq_zero_of_not_mem hheld⟩

theorem inv_start (dramPages nvmPages : Nat) :
    Inv (dramPages + nvmPages) (start dramPages nvmPages) := by
  obtain ⟨s, heq, hwf, -, -⟩ := lruInit_ok dramPages nvmPages
  have hlru : (start dramPages nvmPages).lru = s := by
    simp only [start, heq]
  refine ⟨initialContents dramPages nvmPages, ⟨?_, ?_, nofun, List.nodup_nil, ?_⟩, trivial, nofun⟩
  · rw [hlru]
    exact hwf.lists
  · rw [hlru]
    exact hwf.inDram
  · intro page hlt
    by_cases hdram : page < dramPages
    · exact .inr ⟨.dramFree, by simpa [initialContents] using hdram⟩
    · refine .inr ⟨.nvmFree, ?_⟩
      simp only [initialContents, List.mem_reverse, List.mem_range'_1]
      omega

/-! ## The scanner -/

theorem lists_inDram (call : ScanCall) (role : Role) :
    (call.lists role).inDram = call.inDram ∧ call.lists role ≠ .dramFree := by
  obtain ⟨kind, inDram⟩ := call
  cases inDram <;> cases role <;> exact ⟨rfl, nofun⟩

theorem source_eq (call : ScanCall) : ∃ role, call.source = call.lists role := by
  obtain ⟨kind, inDram⟩ := call
  cases kind
  · exact ⟨.written, rfl⟩
  · exact ⟨.active, rfl⟩
  · exact ⟨.inactive, rfl⟩

theorem sift_inDram (call : ScanCall) (seen : PageBits) (p : ArmsPage) :
    (call.sift seen p).page.inDram = p.inDram := by
  obtain ⟨kind, inDram⟩ := call
  obtain ⟨accessed, dirty⟩ := seen
  cases kind <;> cases accessed <;> cases dirty <;> try rfl
  show (expandSift _ p).page.inDram = _
  unfold expandSift
  simp only [if_true, Bool.false_eq_true, if_false]
  split <;> rfl

theorem recordVa_ok {s s' : LruState} {page : Nat} (h : s.recordVa page = .ok s') :
    s'.fifos = s.fifos ∧ s'.pages = s.pages := by
  unfold LruState.recordVa at h
  split at h
  · obtain rfl := Except.ok.inj h
    exact ⟨rfl, rfl⟩
  · cases h

theorem LockedOk.congr {dramFree : List Nat} (h : t.LockedOk dramFree)
    (hlocked : t'.locked = t.locked) (hinDram : ∀ page, t'.inDram page = t.inDram page) :
    t'.LockedOk dramFree := by
  intro pc hpc
  rw [show t'.inDram = t.inDram from funext hinDram]
  exact h pc (hlocked ▸ hpc)

theorem endCall_eq (t : Threads) (call : ScanCall) :
    ∃ pc, t.endCall call = { t with scan := pc } ∧ pc.held = [] ∧ ∀ inDram, pc.Ok inDram := by
  unfold endCall
  cases call.next with
  | none => exact ⟨.clear, rfl, rfl, fun _ => trivial⟩
  | some next => exact ⟨.count next, rfl, rfl, fun _ => trivial⟩

/-- The scanner goes on with empty hands. -/
theorem InvWith.scanPc (h : InvWith total t contents) (hempty : t.scan.held = []) {pc : ScanPc}
    (hheld : pc.held = []) (hok : ∀ inDram, pc.Ok inDram) :
    InvWith total { t with scan := pc } contents where
  placed := by
    have hsame : held { t with scan := pc } = t.held := by
      simp only [held, hempty, hheld]
    rw [hsame]
    exact h.placed
  scanOk := hok _
  lockedOk := h.lockedOk

/-- The next page is taken from its list, or the call has found the list empty. -/
theorem InvWith.scanTake (h : InvWith total t contents) {seen : PageBits} {call : ScanCall}
    {left : ℕ} (hpc : t.scan = .take call left) (hstep : t.scanStep seen = some t') :
    Inv total t' := by
  have hplaced := h.placed
  have hheld : t.held = t.scan.held ++ t.lockedHeld := rfl
  unfold Threads.scanStep at hstep
  rw [hpc] at hstep hheld
  dsimp only at hstep
  obtain ⟨role, hsource⟩ := source_eq call
  obtain ⟨htier, hfree⟩ := lists_inDram call role
  rw [hsource] at hstep
  cases htake : t.lru.dequeue (call.lists role) with
  | error crash =>
      rw [htake] at hstep
      cases hstep
  | ok result =>
      obtain ⟨found, s⟩ := result
      rw [htake] at hstep
      cases found with
      | none =>
          dsimp only at hstep
          split at hstep
          · cases hstep
          · obtain rfl := Option.some.inj hstep
            obtain ⟨rfl, -⟩ := hplaced.miss htake
            obtain ⟨pc, heq, hempty, hok⟩ := endCall_eq _ call
            rw [heq]
            exact ⟨contents, h.scanPc (by rw [hpc]; rfl) hempty hok⟩
      | some page =>
          obtain rfl := Option.some.inj hstep
          obtain ⟨contents', hplaced', hpages, hothers, hpage⟩ := hplaced.take htake
          refine ⟨contents', by rw [hheld] at hplaced'; exact hplaced', ?_, ?_⟩
          · show (s.pages page).inDram = call.inDram
            rw [hpages, hpage, htier]
          · rw [hothers .dramFree (Ne.symm hfree)]
            exact h.lockedOk.congr rfl fun other => by rw [inDram, hpages]; rfl

/-- A page in hand is sifted, which leaves its tier. -/
theorem InvWith.scanSift (h : InvWith total t contents) {seen : PageBits} {call : ScanCall}
    {left page : ℕ} (hpc : t.scan = .sift call left page) (hstep : t.scanStep seen = some t') :
    Inv total t' := by
  have hscan := h.scanOk
  have hplaced := h.placed
  have hheld : t.held = t.scan.held ++ t.lockedHeld := rfl
  unfold Threads.scanStep at hstep
  rw [hpc] at hstep hheld hscan
  dsimp only at hstep
  have hsift : ∀ s : LruState,
      s.fifos = t.lru.fifos → s.pages = (t.lru.setPage page
        (call.sift seen (t.lru.pages page)).page).pages →
      Inv total { t with
        lru := s
        scan := .put call left page (call.sift seen (t.lru.pages page)).role } := by
    intro s hfifos hpages
    have hsame : ∀ other, (s.pages other).inDram = (t.lru.pages other).inDram := by
      intro other
      rw [hpages, LruState.setPage_pages]
      by_cases hother : other = page
      · subst hother
        rw [update_self, sift_inDram]
      · rw [update_of_ne hother]
    refine ⟨contents, ?_, (hsame page).trans hscan, h.lockedOk.congr rfl hsame⟩
    exact (hheld ▸ hplaced).congr hfifos fun other _ => hsame other
  cases hnotes : (call.sift seen (t.lru.pages page)).notes with
  | true =>
      simp only [hnotes, if_true] at hstep
      cases hrecord : (t.lru.setPage page
          (call.sift seen (t.lru.pages page)).page).recordVa page with
      | error crash =>
          rw [hrecord] at hstep
          cases hstep
      | ok s =>
          rw [hrecord] at hstep
          obtain rfl := Option.some.inj hstep
          obtain ⟨hfifos, hpages⟩ := recordVa_ok hrecord
          exact hsift s hfifos hpages
  | false =>
      simp only [hnotes, Bool.false_eq_true, if_false] at hstep
      obtain rfl := Option.some.inj hstep
      exact hsift _ rfl rfl

/-- A page in hand is put into the list of its new role. -/
theorem InvWith.scanPut (h : InvWith total t contents) {seen : PageBits} {call : ScanCall}
    {left page : ℕ} {role : Role} (hpc : t.scan = .put call left page role)
    (hstep : t.scanStep seen = some t') : Inv total t' := by
  have hscan := h.scanOk
  have hplaced := h.placed
  have hheld : t.held = t.scan.held ++ t.lockedHeld := rfl
  unfold Threads.scanStep at hstep
  rw [hpc] at hstep hheld hscan
  dsimp only at hstep
  obtain ⟨htier, hfree⟩ := lists_inDram call role
  cases hput : t.lru.enqueue (call.lists role) page with
  | error crash =>
      rw [hput] at hstep
      cases hstep
  | ok s =>
      rw [hput] at hstep
      obtain rfl := Option.some.inj hstep
      obtain ⟨hplaced', hpages⟩ := hplaced.put t.lockedHeld
        (by rw [hheld]; exact List.Perm.refl _) (hscan.trans htier.symm) hput
      refine ⟨_, hplaced', trivial, ?_⟩
      rw [update_of_ne (Ne.symm hfree)]
      exact h.lockedOk.congr rfl fun other => by rw [inDram, hpages]; rfl

theorem InvWith.scanStep (h : InvWith total t contents) {seen : PageBits}
    (hstep : t.scanStep seen = some t') : Inv total t' := by
  have hplaced := h.placed
  have hheld : t.held = t.scan.held ++ t.lockedHeld := rfl
  cases hpc : t.scan with
  | asleep =>
      unfold Threads.scanStep at hstep
      rw [hpc] at hstep hheld
      obtain rfl := Option.some.inj hstep
      exact ⟨contents, (hheld ▸ hplaced).congr rfl fun _ _ => rfl, trivial, h.lockedOk⟩
  | count call =>
      unfold Threads.scanStep at hstep
      rw [hpc] at hstep
      obtain rfl := Option.some.inj hstep
      exact ⟨contents, h.scanPc (by rw [hpc]; rfl) rfl fun _ => trivial⟩
  | test call left =>
      unfold Threads.scanStep at hstep
      rw [hpc] at hstep
      dsimp only at hstep
      split at hstep
      · obtain rfl := Option.some.inj hstep
        obtain ⟨pc, heq, hempty, hok⟩ := endCall_eq t call
        rw [heq]
        exact ⟨contents, h.scanPc (by rw [hpc]; rfl) hempty hok⟩
      · obtain rfl := Option.some.inj hstep
        exact ⟨contents, h.scanPc (by rw [hpc]; rfl) rfl fun _ => trivial⟩
  | take call left => exact h.scanTake hpc hstep
  | sift call left page => exact h.scanSift hpc hstep
  | put call left page role => exact h.scanPut hpc hstep
  | clear =>
      unfold Threads.scanStep at hstep
      rw [hpc] at hstep hheld
      obtain rfl := Option.some.inj hstep
      rw [hheld] at hplaced
      exact ⟨contents, hplaced, trivial, h.lockedOk⟩

/-! ## The thread with the global lock -/

/-- A list operation of this thread took a page, or found the list empty. -/
theorem InvWith.lockedTake (h : InvWith total t contents) {pc : LockedPc}
    (hpc : t.locked = some pc) {list : LruList} {found : Nat → LockedPc}
    {missing : Option LockedPc} (hstep : t.lockedTake list found missing = some t')
    (hfound : ∀ page dramFree, t.inDram page = list.inDram →
      (page :: pc.held).Perm (found page).held ∧ (found page).Ok t.inDram dramFree)
    (hmissing : ∀ next, missing = some next → contents list = [] →
      pc.held.Perm next.held ∧ next.Ok t.inDram (contents .dramFree)) : Inv total t' := by
  have hplaced := h.placed
  have hheld : t.held = t.scan.held ++ pc.held := by
    rw [held, hpc]
    rfl
  unfold Threads.lockedTake at hstep
  cases htake : t.lru.dequeue list with
  | error crash =>
      rw [htake] at hstep
      cases hstep
  | ok result =>
      obtain ⟨taken, s⟩ := result
      rw [htake] at hstep
      cases taken with
      | none =>
          obtain ⟨next, hnext, rfl⟩ := Option.map_eq_some_iff.mp hstep
          obtain ⟨rfl, hnil⟩ := hplaced.miss htake
          obtain ⟨hperm, hok⟩ := hmissing next hnext hnil
          refine ⟨contents, ?_, h.scanOk, ?_⟩
          · rw [hheld] at hplaced
            exact hplaced.perm (hperm.append_left _)
          · intro pc' hpc'
            obtain rfl := Option.some.inj hpc'
            exact hok
      | some page =>
          obtain rfl := Option.some.inj hstep
          obtain ⟨contents', hplaced', hpages, -, htier⟩ := hplaced.take htake
          have hsame : (fun other => (s.pages other).inDram) = t.inDram := by
            rw [hpages]
            rfl
          obtain ⟨hperm, hok⟩ := hfound page (contents' .dramFree) htier
          refine ⟨contents', ?_, ?_, ?_⟩
          · rw [hheld] at hplaced'
            exact hplaced'.perm (List.perm_middle.symm.trans (hperm.append_left _))
          · show t.scan.Ok fun other => (s.pages other).inDram
            rw [hsame]
            exact h.scanOk
          · intro pc' hpc'
            obtain rfl := Option.some.inj hpc'
            show (found page).Ok (fun other => (s.pages other).inDram) _
            rw [hsame]
            exact hok

/-- A list operation of this thread put a page of its hands on a list. -/
theorem InvWith.lockedPut (h : InvWith total t contents) {pc next : LockedPc}
    (hpc : t.locked = some pc) {list : LruList} {page : Nat}
    (hstep : t.lockedPut list page next = some t') (hperm : pc.held.Perm (page :: next.held))
    (htier : t.inDram page = list.inDram)
    (hok : next.Ok t.inDram (update contents list (page :: contents list) .dramFree)) :
    Inv total t' := by
  have hheld : t.held = t.scan.held ++ pc.held := by
    rw [held, hpc]
    rfl
  unfold Threads.lockedPut at hstep
  cases hput : t.lru.enqueue list page with
  | error crash =>
      rw [hput] at hstep
      cases hstep
  | ok s =>
      rw [hput] at hstep
      obtain rfl := Option.some.inj hstep
      obtain ⟨hplaced, hpages⟩ := h.placed.put (t.scan.held ++ next.held)
        (by rw [hheld]; exact (hperm.append_left _).trans List.perm_middle) htier hput
      have hsame : (fun other => (s.pages other).inDram) = t.inDram := by
        rw [hpages]
        rfl
      refine ⟨_, hplaced, ?_, ?_⟩
      · show t.scan.Ok fun other => (s.pages other).inDram
        rw [hsame]
        exact h.scanOk
      · intro pc' hpc'
        obtain rfl := Option.some.inj hpc'
        show next.Ok (fun other => (s.pages other).inDram) _
        rw [hsame]
        exact hok

/-- This thread writes the fields of a page in its hands. -/
theorem InvWith.lockedWrite (h : InvWith total t contents) {pc next : LockedPc}
    (hpc : t.locked = some pc) {page : Nat} {p : ArmsPage} (hmem : page ∈ pc.held)
    (hheld : next.held = pc.held)
    (hok : next.Ok (update t.inDram page p.inDram) (contents .dramFree)) :
    Inv total { t with lru := t.lru.setPage page p, locked := some next } := by
  have hsplit : t.held = t.scan.held ++ pc.held := by
    rw [held, hpc]
    rfl
  have hplaced := h.placed
  rw [hsplit] at hplaced
  have hinDram : (fun other => ((t.lru.setPage page p).pages other).inDram) =
      update t.inDram page p.inDram := by
    funext other
    rw [LruState.setPage_pages]
    by_cases hother : other = page
    · subst hother
      rw [update_self, update_self]
    · rw [update_of_ne hother, update_of_ne hother]
      rfl
  refine ⟨contents, ?_, ?_, ?_⟩
  · show Placed total _ contents (t.scan.held ++ next.held)
    rw [hheld]
    refine hplaced.congr rfl fun other hother => ?_
    have hne : other ≠ page := fun heq => hother (heq ▸ List.mem_append_right _ hmem)
    rw [LruState.setPage_pages, update_of_ne hne]
  · refine h.scanOk.congr fun other hother => ?_
    have hne : other ≠ page := by
      rintro rfl
      exact (List.disjoint_of_nodup_append hplaced.nodup) hother hmem
    show ((t.lru.setPage page p).pages other).inDram = _
    rw [LruState.setPage_pages, update_of_ne hne]
    rfl
  · intro pc' hpc'
    obtain rfl := Option.some.inj hpc'
    show next.Ok (fun other => ((t.lru.setPage page p).pages other).inDram) _
    rw [hinDram]
    exact hok

/-- This thread goes on without touching a page. -/
theorem InvWith.lockedPc (h : InvWith total t contents) {pc next : LockedPc}
    (hpc : t.locked = some pc) (hheld : next.held = pc.held)
    (hok : next.Ok t.inDram (contents .dramFree)) :
    Inv total { t with locked := some next } := by
  have hplaced := h.placed
  have hsplit : t.held = t.scan.held ++ pc.held := by
    rw [held, hpc]
    rfl
  rw [hsplit, ← hheld] at hplaced
  refine ⟨contents, hplaced, h.scanOk, fun pc' hpc' => ?_⟩
  obtain rfl := Option.some.inj hpc'
  exact hok

/-- A removal unlinks its page from the list that the page is on. -/
theorem InvWith.removeUnlink (h : InvWith total t contents) {page : Nat} {list : LruList}
    {fifos : Fifos Nat LruList} (hpc : t.locked = some (.removeUnlink page list))
    (hlisted : t.lru.fifos.list page = some list)
    (hremove : pageListRemovePage t.lru.fifos list page = .ok fifos) :
    Inv total { t with
      lru := { t.lru with fifos := fifos }, locked := some (.removeAbsent page) } := by
  have hplaced := h.placed
  have hsplit : t.held = t.scan.held ++ [] := by
    rw [held, hpc]
    rfl
  obtain ⟨before, after, hcontents⟩ :=
    List.append_of_mem ((hplaced.lists.list_iff page list).mp hlisted)
  obtain ⟨fifos', heq, hrep⟩ := hplaced.lists.pageListRemovePage hcontents
  obtain rfl := Except.ok.inj (heq.symm.trans hremove)
  have hunlinked := hplaced.unlink { t.lru with fifos := fifos' } hcontents hrep rfl
  rw [hsplit] at hunlinked
  refine ⟨_, hunlinked.perm List.perm_middle.symm, h.scanOk, fun pc' hpc' => ?_⟩
  obtain rfl := Option.some.inj hpc'
  trivial

theorem InvWith.unlock (h : InvWith total t contents) (hpc : t.locked = some .unlock) :
    Inv total { t with locked := none } := by
  have hplaced := h.placed
  have hsplit : t.held = t.scan.held ++ [] := by
    rw [held, hpc]
    rfl
  rw [hsplit] at hplaced
  exact ⟨contents, hplaced, h.scanOk, nofun⟩

theorem InvWith.lockedStep (h : InvWith total t contents) {pc : LockedPc}
    (hpc : t.locked = some pc) (hok : pc.Ok t.inDram (contents .dramFree))
    (hnodup : pc.held.Nodup) (hstep : t.lockedStep pc = some t')
    (hlisted : ∀ page list, pc = .removeUnlink page list →
      t.lru.fifos.list page = some list) : Inv total t' := by
  cases pc with
  | swapTest migrated =>
      simp only [Threads.lockedStep] at hstep
      split at hstep
      · refine h.lockedTake hpc hstep (fun p _ htier => ⟨List.Perm.refl _, htier, nofun⟩) ?_
        intro next hnext _
        obtain rfl := Option.some.inj hnext
        exact ⟨List.Perm.refl _, trivial⟩
      · obtain rfl := Option.some.inj hstep
        exact h.lockedPc hpc rfl trivial
  | swapActive migrated =>
      refine h.lockedTake hpc hstep (fun p _ htier => ⟨List.Perm.refl _, htier, nofun⟩) ?_
      intro next hnext _
      obtain rfl := Option.some.inj hnext
      exact ⟨List.Perm.refl _, trivial⟩
  | swapTry migrated tries p fromWritten =>
      obtain ⟨hp, htries⟩ := hok
      refine h.lockedTake hpc hstep
        (fun np _ htier => ⟨List.Perm.swap _ _ _, hp, htier⟩) ?_
      intro next hnext hnil
      obtain rfl := Option.some.inj hnext
      exact ⟨List.Perm.refl _, hp, not_not.mp fun hne => htries hne hnil⟩
  | swapUp migrated p np =>
      obtain ⟨hp, hnp⟩ := hok
      have hne : np ≠ p := by simpa [LockedPc.held, eq_comm] using hnodup
      simp only [Threads.lockedStep] at hstep
      split at hstep
      · cases hstep
      · obtain rfl := Option.some.inj hstep
        refine h.lockedWrite hpc List.mem_cons_self rfl ⟨update_self _ _ _, ?_⟩
        rw [update_of_ne hne]
        exact hnp
  | swapUpFrame migrated p np oldOffset =>
      obtain ⟨hp, hnp⟩ := hok
      have hne : p ≠ np := by simpa [LockedPc.held] using hnodup
      obtain rfl := Option.some.inj hstep
      refine h.lockedWrite hpc (by simp [LockedPc.held]) rfl ⟨?_, update_self _ _ _⟩
      rw [update_of_ne hne]
      exact hp
  | swapUpPut migrated p np =>
      obtain ⟨hp, hnp⟩ := hok
      exact h.lockedPut hpc hstep (List.Perm.refl _) hp hnp
  | swapUpFree migrated np => exact h.lockedPut hpc hstep (List.Perm.refl _) hok trivial
  | swapCold migrated tries p fromWritten =>
      obtain ⟨hp, htries⟩ := hok
      refine h.lockedTake hpc hstep
        (fun cp _ htier => ⟨List.Perm.swap _ _ _, hp, htier, htries⟩) ?_
      intro next hnext _
      obtain rfl := Option.some.inj hnext
      exact ⟨List.Perm.refl _, hp⟩
  | swapBack p fromWritten =>
      refine h.lockedPut hpc hstep (List.Perm.refl _) ?_ trivial
      rw [show t.inDram p = false from hok]
      cases fromWritten <;> rfl
  | swapNvm migrated tries p fromWritten cp =>
      obtain ⟨hp, hcp, htries⟩ := hok
      exact h.lockedTake hpc hstep
        (fun np _ htier => ⟨(List.perm_append_comm : ([np] ++ [p, cp]).Perm _), hp, hcp, htier,
          htries⟩) nofun
  | swapDown migrated tries p fromWritten cp np =>
      obtain ⟨hp, hcp, hnp, htries⟩ := hok
      obtain ⟨⟨hpcp, -⟩, hcpnp⟩ : (p ≠ cp ∧ p ≠ np) ∧ cp ≠ np := by
        simpa [LockedPc.held] using hnodup
      simp only [Threads.lockedStep] at hstep
      split at hstep
      · cases hstep
      · obtain rfl := Option.some.inj hstep
        refine h.lockedWrite hpc (by simp [LockedPc.held]) rfl ⟨?_, update_self _ _ _, ?_, htries⟩
        · rw [update_of_ne hpcp]
          exact hp
        · rw [update_of_ne (Ne.symm hcpnp)]
          exact hnp
  | swapDownFrame migrated tries p fromWritten cp np oldOffset =>
      obtain ⟨hp, hcp, hnp, htries⟩ := hok
      obtain ⟨⟨-, hpnp⟩, hcpnp⟩ : (p ≠ cp ∧ p ≠ np) ∧ cp ≠ np := by
        simpa [LockedPc.held] using hnodup
      obtain rfl := Option.some.inj hstep
      refine h.lockedWrite hpc (by simp [LockedPc.held]) rfl ⟨?_, ?_, update_self _ _ _, htries⟩
      · rw [update_of_ne hpnp]
        exact hp
      · rw [update_of_ne hcpnp]
        exact hcp
  | swapDownPut migrated tries p fromWritten cp np =>
      obtain ⟨hp, hcp, hnp, htries⟩ := hok
      exact h.lockedPut hpc hstep (List.Perm.swap _ _ _) hcp ⟨hp, hnp, htries⟩
  | swapDownFree migrated tries p fromWritten np =>
      obtain ⟨hp, hnp, rfl⟩ := hok
      exact h.lockedPut hpc hstep (List.Perm.swap _ _ _) hnp ⟨hp, fun _ => by simp⟩
  | faultDram =>
      refine h.lockedTake hpc hstep (fun page _ htier => ⟨List.Perm.refl _, htier⟩) ?_
      intro next hnext _
      obtain rfl := Option.some.inj hnext
      exact ⟨List.Perm.refl _, trivial⟩
  | faultNvm =>
      exact h.lockedTake hpc hstep (fun page _ htier => ⟨List.Perm.refl _, htier⟩) nofun
  | faultPresent page dram =>
      simp only [Threads.lockedStep] at hstep
      split at hstep
      · cases hstep
      · obtain rfl := Option.some.inj hstep
        refine h.lockedWrite hpc (List.mem_singleton_self page) rfl ?_
        show update t.inDram page (t.lru.pages page).inDram page = dram
        rw [update_self]
        exact hok
  | faultPut page dram =>
      refine h.lockedPut hpc hstep (List.Perm.refl _) ?_ trivial
      rw [show t.inDram page = dram from hok]
      cases dram <;> rfl
  | removeRead page =>
      obtain ⟨list, -, rfl⟩ := Option.map_eq_some_iff.mp hstep
      exact h.lockedPc hpc rfl trivial
  | removeUnlink page list =>
      simp only [Threads.lockedStep] at hstep
      cases hremove : pageListRemovePage t.lru.fifos list page with
      | error crash =>
          rw [hremove] at hstep
          cases hstep
      | ok fifos =>
          rw [hremove] at hstep
          obtain rfl := Option.some.inj hstep
          exact h.removeUnlink hpc (hlisted page list rfl) hremove
  | removeAbsent page =>
      obtain rfl := Option.some.inj hstep
      exact h.lockedWrite hpc (List.mem_singleton_self page) rfl trivial
  | removeFree page =>
      refine h.lockedPut hpc hstep (List.Perm.refl _) ?_ trivial
      show (t.lru.pages page).inDram = _
      cases (t.lru.pages page).inDram <;> rfl
  | unlock =>
      obtain rfl := Option.some.inj hstep
      exact h.unlock hpc

/-! ## Runs -/

/-- A thread gets the global lock with empty hands. -/
theorem InvWith.lock (h : InvWith total t contents) (hfree : t.locked = none) (pc : LockedPc)
    (hheld : pc.held = []) (hok : ∀ inDram dramFree, pc.Ok inDram dramFree)
    (passed : List Nat) : Inv total { t with passed := passed, locked := some pc } := by
  have hplaced := h.placed
  have hsplit : t.held = t.scan.held ++ pc.held := by
    rw [held, hfree, hheld]
    rfl
  rw [hsplit] at hplaced
  refine ⟨contents, hplaced, h.scanOk, fun pc' hpc' => ?_⟩
  obtain rfl := Option.some.inj hpc'
  exact hok _ _

/-- Step lemma: only a removal that unlinks a page from another list breaks the
invariant. -/
theorem Inv.step (hinv : Inv total t) {action : LruAction} (hlisted : UnlinksListed t action)
    (hstep : t.step action = some t') : Inv total t' := by
  obtain ⟨contents, h⟩ := hinv
  cases action with
  | scan seen => exact h.scanStep hstep
  | beginSwap =>
      obtain ⟨hfree, heq⟩ := Option.ite_none_right_eq_some.mp hstep
      obtain rfl := Option.some.inj heq
      exact h.lock hfree (.swapTest 0) rfl (fun _ _ => trivial) t.passed
  | beginFault =>
      obtain ⟨hfree, heq⟩ := Option.ite_none_right_eq_some.mp hstep
      obtain rfl := Option.some.inj heq
      exact h.lock hfree .faultDram rfl (fun _ _ => trivial) t.passed
  | callRemove page =>
      obtain rfl := Option.some.inj hstep
      exact ⟨contents, h.placed, h.scanOk, h.lockedOk⟩
  | passTest page =>
      obtain ⟨-, heq⟩ := Option.ite_none_right_eq_some.mp hstep
      obtain rfl := Option.some.inj heq
      exact ⟨contents, h.placed, h.scanOk, h.lockedOk⟩
  | beginRemove page =>
      obtain ⟨⟨-, hfree⟩, heq⟩ := Option.ite_none_right_eq_some.mp hstep
      obtain rfl := Option.some.inj heq
      exact h.lock hfree (.removeRead page) rfl (fun _ _ => trivial) (t.passed.erase page)
  | locked =>
      obtain ⟨pc, hpc, hlocked⟩ := Option.bind_eq_some_iff.mp hstep
      have hheld : t.held = t.scan.held ++ pc.held := by
        rw [held, hpc]
        rfl
      have hnodup := h.placed.nodup
      rw [hheld] at hnodup
      refine h.lockedStep hpc (h.lockedOk pc hpc) (List.nodup_append.mp hnodup).2.1 hlocked ?_
      rintro page list rfl
      simpa only [UnlinksListed, hpc] using hlisted

/-- Run lemma: the pages stay partitioned as long as every removal unlinks its page
from the list that the page is on. -/
theorem partition_along (dramPages nvmPages : Nat) (actions : List LruAction)
    (hmeets : Transition.Meets Threads.step UnlinksListed (start dramPages nvmPages) actions) :
    Transition.Along Threads.step (Partition (dramPages + nvmPages)) (start dramPages nvmPages)
      actions :=
  Transition.along_of_meets (Inv (dramPages + nvmPages)) (fun _ => Inv.partition)
    (fun _ _ _ hinv hlisted hstep => hinv.step hlisted hstep) (inv_start dramPages nvmPages) hmeets

/-- A page is allocated and removed while nothing else runs, and the scanner makes a
round. -/
def quietActions : List LruAction :=
  [.beginFault, .locked, .locked, .locked, .locked, .callRemove 0, .passTest 0, .beginRemove 0,
    .locked, .locked, .locked, .locked, .locked, .scan ⟨false, false⟩]

theorem partition_along_quietActions :
    (Transition.run Threads.step (start 1 1) quietActions).isSome ∧
      Transition.Along Threads.step (Partition (1 + 1)) (start 1 1) quietActions :=
  ⟨by decide +kernel, partition_along 1 1 quietActions (by decide +kernel)⟩

/-- Between the steps by which a removal reads the list of its page and unlinks it, the
scanner starts a round and takes the page. -/
def overtakenRemoval : List LruAction :=
  [.beginFault, .locked, .locked, .locked, .locked, .callRemove 0, .passTest 0, .beginRemove 0,
    .locked] ++ List.replicate 8 (.scan ⟨false, false⟩) ++ [.locked]

/-- The page is then in the hands of both. -/
theorem not_partition :
    ∃ t, Transition.run Threads.step (start 1 0) overtakenRemoval = some t ∧
      ¬Partition (1 + 0) t := by
  have hrun : (Transition.run Threads.step (start 1 0) overtakenRemoval).map held =
      some [0, 0] := by decide +kernel
  obtain ⟨t, ht, hheld⟩ := Option.map_eq_some_iff.mp hrun
  refine ⟨t, ht, ?_⟩
  rintro ⟨contents, -, -, hplaces⟩
  have hcount : t.held.count 0 = 2 := by
    rw [hheld]
    rfl
  rcases hplaces 0 Nat.one_pos with ⟨-, hnone⟩ | ⟨-, hone⟩
  · exact absurd (hcount.symm.trans hnone) (by decide)
  · exact absurd (hcount.symm.trans hone) (by decide)

end Threads

end ArmsTiering.Lru
