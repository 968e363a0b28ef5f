import ArmsTiering.Core.LinkedList
import ArmsTiering.Core.Transition

/-!
# Allocating segments under the spin lock

`segment_alloc` and `segment_free`, one shared access at a time.  The check that
comes before the lock returns through an unlock of its own, which frees the lock
for whoever waits while another thread is still inside.
-/

namespace ArmsTiering.Flexkvs.SegmentLock

/-- Where a thread is in `segment_alloc` or `segment_free`, with the locals that it
needs from there on.  A segment is the index of its header. -/
inductive Pc
  /-- outside of both functions -/
  | idle
  /-- `free_segments != NULL`, unlocked -/
  | peekFree
  | lockFree
  | testFree
  | takeFree
  | readNext (h : ℕ)
  | popFree (h : ℕ) (next : Option ℕ)
  | unlockFree (h : Option ℕ)
  /-- `seg_alloced`, unlocked -/
  | peekCount
  /-- the unlock in front of the first `return NULL` -/
  | bail
  | lockCount
  | testCount
  | unlockFull
  | readCount (i : ℕ)
  | storeCount (i count : ℕ)
  | unlockCount (i : ℕ)
  /-- `mprotect` and `malloc` -/
  | mapSegment (i : ℕ)
  | initHeader (h : ℕ)
  | lockPush (h : ℕ)
  | readFree (h : ℕ)
  | linkFree (h : ℕ) (head : Option ℕ)
  | pushFree (h : ℕ)
  | unlockPush
  deriving DecidableEq

/-- The shared variables.  The lock names the thread that took it last, which the
code does not see; `held` counts the callers that a segment has been returned to
and that have not freed it since, and `wrongUnlock` records an unlock by a thread
that does not hold the lock. -/
structure Shared where
  lock : Option ℕ
  freeSegments : Option ℕ
  segAlloced : ℕ
  next : ℕ → Option ℕ
  held : ℕ → ℕ
  wrongUnlock : Bool

namespace Shared

/-- `pthread_spin_lock`, once the lock is free. -/
def acquire (sh : Shared) (t : ℕ) (pc : Pc) : Option (Shared × Pc) :=
  if sh.lock = none then some ({ sh with lock := some t }, pc) else none

/-- `pthread_spin_unlock` -/
def release (sh : Shared) (t : ℕ) : Shared :=
  { sh with lock := none, wrongUnlock := sh.wrongUnlock || sh.lock != some t }

end Shared

/-- The next step of the thread `t`; a thread that would follow a `NULL` pointer
has none.  `mapped` says whether `mprotect` and `malloc` succeed. -/
def advance (segmaxnum t : ℕ) (mapped : Bool) (sh : Shared) : Pc → Option (Shared × Pc)
  | .idle => none
  | .peekFree => some (sh, if sh.freeSegments ≠ none then .lockFree else .peekCount)
  | .lockFree => sh.acquire t .testFree
  | .testFree => some (sh, if sh.freeSegments ≠ none then .takeFree else .unlockFree none)
  | .takeFree => sh.freeSegments.map fun h => (sh, .readNext h)
  | .readNext h => some (sh, .popFree h (sh.next h))
  | .popFree h next => some ({ sh with freeSegments := next }, .unlockFree (some h))
  | .unlockFree (some h) => some (sh.release t, .initHeader h)
  | .unlockFree none => some (sh.release t, .peekCount)
  | .peekCount => some (sh, if segmaxnum ≤ sh.segAlloced then .bail else .lockCount)
  | .bail => some (sh.release t, .idle)
  | .lockCount => sh.acquire t .testCount
  | .testCount =>
      some (sh, if segmaxnum ≤ sh.segAlloced then .unlockFull else .readCount sh.segAlloced)
  | .unlockFull => some (sh.release t, .idle)
  | .readCount i => some (sh, .storeCount i sh.segAlloced)
  | .storeCount i count => some ({ sh with segAlloced := count + 1 }, .unlockCount i)
  | .unlockCount i => some (sh.release t, .mapSegment i)
  | .mapSegment i => some (sh, if mapped then .initHeader i else .idle)
  | .initHeader h => some ({ sh with held := Function.update sh.held h (sh.held h + 1) }, .idle)
  | .lockPush h => sh.acquire t (.readFree h)
  | .readFree h => some (sh, .linkFree h sh.freeSegments)
  | .linkFree h head => some ({ sh with next := Function.update sh.next h head }, .pushFree h)
  | .pushFree h => some ({ sh with freeSegments := some h }, .unlockPush)
  | .unlockPush => some (sh.release t, .idle)

structure State where
  shared : Shared
  pc : ℕ → Pc

inductive Event
  | allocate (t : ℕ)
  | free (t h : ℕ)
  /-- a caller links a segment that it holds -/
  | link (h : ℕ) (next : Option ℕ)
  | step (t : ℕ) (mapped : Bool)

def step (segmaxnum : ℕ) (s : State) : Event → Option State
  | .allocate t =>
      if s.pc t = .idle then some { s with pc := Function.update s.pc t .peekFree } else none
  | .free t h =>
      if s.pc t = .idle ∧ s.shared.held h ≠ 0 then
        some {
          shared := { s.shared with
            held := Function.update s.shared.held h (s.shared.held h - 1) }
          pc := Function.update s.pc t (.lockPush h) }
      else none
  | .link h next =>
      if s.shared.held h ≠ 0 then
        some { s with shared := { s.shared with next := Function.update s.shared.next h next } }
      else none
  | .step t mapped =>
      (advance segmaxnum t mapped s.shared (s.pc t)).map fun result =>
        { shared := result.1, pc := Function.update s.pc t result.2 }

def initial : State where
  shared :=
    { lock := none
      freeSegments := none
      segAlloced := 0
      next := fun _ => none
      held := fun _ => 0
      wrongUnlock := false }
  pc := fun _ => .idle

/-- The thread is between its lock and its unlock. -/
def Pc.critical : Pc → Bool
  | .testFree | .takeFree | .readNext _ | .popFree _ _ | .unlockFree _ | .testCount
  | .unlockFull | .readCount _ | .storeCount _ _ | .unlockCount _ | .readFree _ | .linkFree _ _
  | .pushFree _ | .unlockPush => true
  | _ => false

/-- The segment that a thread has in hand, neither free nor returned. -/
def Pc.hand : Pc → Option ℕ
  | .unlockFree h => h
  | .unlockCount h | .mapSegment h | .initHeader h | .lockPush h | .readFree h | .linkFree h _
  | .pushFree h => some h
  | _ => none

/-- One thread is inside at most, nobody unlocks a lock that is not its own, and no
segment belongs to two callers. -/
structure Exclusive (s : State) : Prop where
  inside : ∀ t u, (s.pc t).critical = true → (s.pc u).critical = true → t = u
  unlocks : s.shared.wrongUnlock = false
  returned : ∀ i, s.shared.held i ≤ 1

/-- The step is not the unlock of the early return. -/
def NoBail (s : State) : Event → Prop
  | .step t _ => s.pc t ≠ .bail
  | _ => True

/-! ## The lock -/

/-- The lock is held by the thread that is inside. -/
def LockHeld (lock : Option ℕ) (pc : ℕ → Pc) : Prop :=
  ∀ t, lock = some t ↔ (pc t).critical = true

variable {segmaxnum t u : ℕ} {mapped : Bool} {sh sh' : Shared} {pc : ℕ → Pc} {p p' : Pc}

theorem LockHeld.exclusive {lock : Option ℕ} (h : LockHeld lock pc)
    (ht : (pc t).critical = true) (hu : (pc u).critical = true) : t = u := by
  have hlock := (h t).mpr ht
  rw [(h u).mpr hu] at hlock
  exact (Option.some.inj hlock).symm

theorem LockHeld.kept {lock : Option ℕ} (h : LockHeld lock pc)
    (hcritical : p'.critical = (pc t).critical) : LockHeld lock (Function.update pc t p') := by
  intro u
  rw [h u]
  by_cases hu : u = t
  · subst hu
    rw [Function.update_self, hcritical]
  · rw [Function.update_of_ne hu]

theorem LockHeld.acquired (h : LockHeld none pc) (hcritical : p'.critical = true) :
    LockHeld (some t) (Function.update pc t p') := by
  intro u
  by_cases hu : u = t
  · subst hu
    simp [hcritical]
  · rw [Function.update_of_ne hu, ← h u]
    simp [Ne.symm hu]

theorem LockHeld.released {lock : Option ℕ} (h : LockHeld lock pc)
    (ht : (pc t).critical = true) (hcritical : p'.critical = false) :
    LockHeld none (Function.update pc t p') := by
  intro u
  by_cases hu : u = t
  · subst hu
    simp [hcritical]
  · rw [Function.update_of_ne hu]
    refine ⟨nofun, fun hinside => ?_⟩
    exact absurd (h.exclusive hinside ht) hu

/-- What a step of a thread does with the lock. -/
inductive LockStep (t : ℕ) (p p' : Pc) (sh sh' : Shared) : Prop
  | kept (hcritical : p'.critical = p.critical) (hlock : sh'.lock = sh.lock)
      (hwrong : sh'.wrongUnlock = sh.wrongUnlock)
  | acquired (hfree : sh.lock = none) (hcritical : p'.critical = true)
      (hlock : sh'.lock = some t) (hwrong : sh'.wrongUnlock = sh.wrongUnlock)
  | released (hinside : p.critical = true) (hcritical : p'.critical = false)
      (hlock : sh'.lock = none)
      (hwrong : sh'.wrongUnlock = (sh.wrongUnlock || sh.lock != some t))

theorem advance_lockStep (h : advance segmaxnum t mapped sh p = some (sh', p'))
    (hbail : p ≠ .bail) : LockStep t p p' sh sh' := by
  have hacquire : ∀ {q : Pc}, q.critical = true → sh.acquire t q = some (sh', p') →
      LockStep t p p' sh sh' := by
    intro q hq hstep
    unfold Shared.acquire at hstep
    split at hstep
    · next hfree =>
        obtain ⟨rfl, rfl⟩ := Prod.mk.inj (Option.some.inj hstep)
        exact .acquired hfree hq rfl rfl
    · cases hstep
  cases p with
  | idle => cases h
  | bail => exact absurd rfl hbail
  | lockFree => exact hacquire rfl h
  | lockCount => exact hacquire rfl h
  | lockPush k => exact hacquire rfl h
  | takeFree =>
      obtain ⟨k, -, hstep⟩ := Option.map_eq_some_iff.mp h
      obtain ⟨rfl, rfl⟩ := Prod.mk.inj hstep
      exact .kept rfl rfl rfl
  | unlockFree k =>
      cases k <;>
      · obtain ⟨rfl, rfl⟩ := Prod.mk.inj (Option.some.inj h)
        exact .released rfl rfl rfl rfl
  | unlockFull | unlockCount k | unlockPush =>
      obtain ⟨rfl, rfl⟩ := Prod.mk.inj (Option.some.inj h)
      exact .released rfl rfl rfl rfl
  | peekFree | testFree | peekCount | testCount | mapSegment k =>
      obtain ⟨rfl, rfl⟩ := Prod.mk.inj (Option.some.inj h)
      refine .kept ?_ rfl rfl
      split <;> rfl
  | readNext k | popFree k n | readCount k | storeCount k n | initHeader k | readFree k
  | linkFree k n | pushFree k =>
      obtain ⟨rfl, rfl⟩ := Prod.mk.inj (Option.some.inj h)
      exact .kept rfl rfl rfl

theorem LockStep.lockHeld (h : LockStep t (pc t) p' sh sh') (hlock : LockHeld sh.lock pc) :
    LockHeld sh'.lock (Function.update pc t p') ∧ sh'.wrongUnlock = sh.wrongUnlock := by
  cases h with
  | kept hcritical heq hwrong =>
      rw [heq]
      exact ⟨hlock.kept hcritical, hwrong⟩
  | acquired hfree hcritical heq hwrong =>
      rw [heq]
      rw [hfree] at hlock
      exact ⟨hlock.acquired hcritical, hwrong⟩
  | released hinside hcritical heq hwrong =>
      rw [heq, hwrong, (hlock t).mpr hinside]
      exact ⟨hlock.released hinside hcritical, by simp⟩

/-! ## The segments -/

/-- What a thread that is inside knows about the shared variables. -/
def Pc.Local (sh : Shared) : Pc → Prop
  | .readNext h => sh.freeSegments = some h
  | .popFree h next => sh.freeSegments = some h ∧ next = sh.next h
  | .readCount i => i = sh.segAlloced
  | .storeCount i count => i = sh.segAlloced ∧ count = sh.segAlloced
  | .linkFree _ head => head = sh.freeSegments
  | .pushFree h => sh.next h = sh.freeSegments
  | _ => True

/-- Every segment is in the list of free segments, in the hand of one thread, or
returned to one caller. -/
structure Segments (sh : Shared) (pc : ℕ → Pc) (free : List ℕ) : Prop where
  links : IsChain (fun i => i.bind sh.next) none sh.freeSegments (free.map some)
  nodup : free.Nodup
  free_ok : ∀ i ∈ free, i < sh.segAlloced ∧ sh.held i = 0
  locals : ∀ t, (pc t).Local sh
  hand_ok : ∀ t i, (pc t).hand = some i → i < sh.segAlloced ∧ sh.held i = 0 ∧ i ∉ free
  hand_unique : ∀ t u i, (pc t).hand = some i → (pc u).hand = some i → t = u
  held_ok : ∀ i, sh.held i ≤ 1 ∧ (sh.held i ≠ 0 → i < sh.segAlloced)

theorem Pc.Local.of_outside (h : p.critical = false) : p.Local sh := by
  cases p with
  | readNext k | popFree k n | readCount k | storeCount k n | linkFree k n | pushFree k => cases h
  | _ => trivial

/-- The locals depend on the shared list and its count only. -/
theorem Pc.local_congr {p : Pc} (hfree : sh'.freeSegments = sh.freeSegments)
    (hcount : sh'.segAlloced = sh.segAlloced) (hnext : sh'.next = sh.next) :
    p.Local sh' ↔ p.Local sh := by
  cases p <;> simp only [Pc.Local, hfree, hcount, hnext]

variable {free : List ℕ} {i : ℕ}

namespace Segments

/-- Only the thread has moved on, and it has dropped its segment at most. -/
theorem move (h : Segments sh pc free) (hfree : sh'.freeSegments = sh.freeSegments)
    (hcount : sh'.segAlloced = sh.segAlloced) (hnext : sh'.next = sh.next)
    (hheld : sh'.held = sh.held) (hhand : p'.hand = (pc t).hand ∨ p'.hand = none)
    (hlocal : p'.Local sh') : Segments sh' (Function.update pc t p') free := by
  have hhands : ∀ u i, (Function.update pc t p' u).hand = some i → (pc u).hand = some i := by
    intro u i hi
    by_cases hu : u = t
    · subst hu
      rw [Function.update_self] at hi
      obtain heq | hnone := hhand
      · rwa [← heq]
      · rw [hnone] at hi
        cases hi
    · rwa [Function.update_of_ne hu] at hi
  constructor
  · rw [hfree, hnext]
    exact h.links
  · exact h.nodup
  · rw [hcount, hheld]
    exact h.free_ok
  · intro u
    by_cases hu : u = t
    · subst hu
      rw [Function.update_self]
      exact hlocal
    · rw [Function.update_of_ne hu]
      exact (Pc.local_congr hfree hcount hnext).mpr (h.locals u)
  · rw [hcount, hheld]
    exact fun u i hi => h.hand_ok u i (hhands u i hi)
  · exact fun u v i hu hv => h.hand_unique u v i (hhands u i hu) (hhands v i hv)
  · rw [hcount, hheld]
    exact h.held_ok

/-- The locals of the other threads, while `t` is inside. -/
theorem others (hlock : LockHeld sh.lock pc) (ht : (pc t).critical = true) (hu : u ≠ t) :
    (pc u).Local sh' := by
  refine Pc.Local.of_outside ?_
  by_contra hinside
  exact hu (hlock.exclusive ((Bool.not_eq_false _).mp hinside) ht)

/-- A segment that no thread has in hand goes to one of them. -/
theorem hand_unique_update (h : Segments sh pc free) (hfresh : ∀ u, (pc u).hand ≠ some i)
    (hhand : p'.hand = some i) (u v k : ℕ) (hu : (Function.update pc t p' u).hand = some k)
    (hv : (Function.update pc t p' v).hand = some k) : u = v := by
  by_cases hut : u = t
  · by_cases hvt : v = t
    · rw [hut, hvt]
    · rw [hut, Function.update_self, hhand] at hu
      rw [Function.update_of_ne hvt, ← hu] at hv
      exact absurd hv (hfresh v)
  · rw [Function.update_of_ne hut] at hu
    by_cases hvt : v = t
    · rw [hvt, Function.update_self, hhand] at hv
      rw [← hv] at hu
      exact absurd hu (hfresh u)
    · rw [Function.update_of_ne hvt] at hv
      exact h.hand_unique u v k hu hv

theorem popFree (h : Segments sh pc free) (hlock : LockHeld sh.lock pc) {next : Option ℕ}
    (hpc : pc t = .popFree i next) :
    ∃ free', Segments { sh with freeSegments := next }
      (Function.update pc t (.unlockFree (some i))) free' := by
  have hlocal := h.locals t
  rw [hpc] at hlocal
  obtain ⟨hhead, rfl⟩ := hlocal
  have hlinks := h.links
  cases free with
  | nil =>
      rw [hhead] at hlinks
      cases hlinks
  | cons first free =>
      rw [hhead] at hlinks
      obtain ⟨hfirst, -, hrest⟩ := hlinks
      obtain rfl := Option.some.inj hfirst
      obtain ⟨hnot, hnodup⟩ := List.nodup_cons.mp h.nodup
      have hfresh : ∀ u, (pc u).hand ≠ some i := fun u hu =>
        (h.hand_ok u i hu).2.2 List.mem_cons_self
      refine ⟨free, hrest, hnodup, fun k hk => h.free_ok k (List.mem_cons_of_mem _ hk),
        fun u => ?_, fun u k hk => ?_, h.hand_unique_update hfresh rfl, h.held_ok⟩
      · by_cases hu : u = t
        · subst hu
          rw [Function.update_self]
          trivial
        · rw [Function.update_of_ne hu]
          exact others hlock (by rw [hpc]; rfl) hu
      · by_cases hu : u = t
        · subst hu
          rw [Function.update_self] at hk
          obtain rfl := Option.some.inj hk
          exact ⟨(h.free_ok i List.mem_cons_self).1, (h.free_ok i List.mem_cons_self).2, hnot⟩
        · rw [Function.update_of_ne hu] at hk
          obtain ⟨hlt, hheld, hout⟩ := h.hand_ok u k hk
          exact ⟨hlt, hheld, fun hmem => hout (List.mem_cons_of_mem _ hmem)⟩

theorem storeCount (h : Segments sh pc free) (hlock : LockHeld sh.lock pc) {count : ℕ}
    (hpc : pc t = .storeCount i count) :
    Segments { sh with segAlloced := count + 1 } (Function.update pc t (.unlockCount i)) free := by
  have hlocal := h.locals t
  rw [hpc] at hlocal
  obtain ⟨rfl, rfl⟩ := hlocal
  have hfresh : ∀ u, (pc u).hand ≠ some sh.segAlloced := fun u hu =>
    Nat.lt_irrefl _ (h.hand_ok u _ hu).1
  refine ⟨h.links, h.nodup, fun k hk => ?_, fun u => ?_, fun u k hk => ?_,
    h.hand_unique_update hfresh rfl, fun k => ?_⟩
  · exact ⟨Nat.lt_succ_of_lt (h.free_ok k hk).1, (h.free_ok k hk).2⟩
  · by_cases hu : u = t
    · subst hu
      rw [Function.update_self]
      trivial
    · rw [Function.update_of_ne hu]
      exact others hlock (by rw [hpc]; rfl) hu
  · by_cases hu : u = t
    · subst hu
      rw [Function.update_self] at hk
      obtain rfl := Option.some.inj hk
      refine ⟨Nat.lt_succ_self _, ?_, fun hmem => Nat.lt_irrefl _ (h.free_ok _ hmem).1⟩
      by_contra hheld
      exact Nat.lt_irrefl _ ((h.held_ok _).2 hheld)
    · rw [Function.update_of_ne hu] at hk
      obtain ⟨hlt, hheld, hout⟩ := h.hand_ok u k hk
      exact ⟨Nat.lt_succ_of_lt hlt, hheld, hout⟩
  · exact ⟨(h.held_ok k).1, fun hheld => Nat.lt_succ_of_lt ((h.held_ok k).2 hheld)⟩

theorem links_of_out (h : Segments sh pc free) (hout : i ∉ free) (next : Option ℕ) :
    IsChain (fun k => k.bind (Function.update sh.next i next)) none sh.freeSegments
      (free.map some) := by
  refine h.links.congr fun node hnode => ?_
  obtain ⟨k, hk, rfl⟩ := List.mem_map.mp hnode
  have hne : k ≠ i := by
    rintro rfl
    exact hout hk
  exact Function.update_of_ne hne _ _

theorem callerLink (h : Segments sh pc free) (hheld : sh.held i ≠ 0) (next : Option ℕ) :
    Segments { sh with next := Function.update sh.next i next } pc free := by
  have hout : i ∉ free := fun hmem => hheld (h.free_ok i hmem).2
  refine ⟨h.links_of_out hout next, h.nodup, h.free_ok, fun u => ?_, h.hand_ok, h.hand_unique,
    h.held_ok⟩
  have hlocal := h.locals u
  cases hpc : pc u with
  | popFree k n =>
      rw [hpc] at hlocal
      obtain ⟨hhead, rfl⟩ := hlocal
      have hk : k ∈ free := by
        have hlinks := h.links
        rw [hhead] at hlinks
        cases free with
        | nil => cases hlinks
        | cons first free =>
            obtain rfl := Option.some.inj hlinks.1
            exact List.mem_cons_self
      have hne : k ≠ i := by
        rintro rfl
        exact hout hk
      exact ⟨hhead, (Function.update_of_ne hne _ _).symm⟩
  | pushFree k =>
      rw [hpc] at hlocal
      have hk := (h.hand_ok u k (by rw [hpc]; rfl)).2.1
      have hne : k ≠ i := by
        rintro rfl
        exact hheld hk
      exact (Function.update_of_ne hne _ _).trans hlocal
  | _ =>
      rw [hpc] at hlocal
      exact hlocal

theorem linkFree (h : Segments sh pc free) (hlock : LockHeld sh.lock pc) {head : Option ℕ}
    (hpc : pc t = .linkFree i head) :
    Segments { sh with next := Function.update sh.next i head }
      (Function.update pc t (.pushFree i)) free := by
  have hlocal := h.locals t
  have hhand := h.hand_ok t i (by rw [hpc]; rfl)
  rw [hpc] at hlocal
  have hhands : ∀ u k, (Function.update pc t (.pushFree i) u).hand = some k →
      (pc u).hand = some k := by
    intro u k hk
    by_cases hu : u = t
    · subst hu
      rw [Function.update_self] at hk
      rw [hpc]
      exact hk
    · rwa [Function.update_of_ne hu] at hk
  refine ⟨h.links_of_out hhand.2.2 head, h.nodup, h.free_ok, fun u => ?_,
    fun u k hk => h.hand_ok u k (hhands u k hk),
    fun u v k hu hv => h.hand_unique u v k (hhands u k hu) (hhands v k hv), h.held_ok⟩
  by_cases hu : u = t
  · subst hu
    rw [Function.update_self]
    exact (Function.update_self ..).trans hlocal
  · rw [Function.update_of_ne hu]
    exact others hlock (by rw [hpc]; rfl) hu

/-- The thread that drops the segment `i` keeps none. -/
theorem hand_dropped (h : Segments sh pc free) (hpc : (pc t).hand = some i)
    (hhand : p'.hand = none) {k : ℕ} (hu : (Function.update pc t p' u).hand = some k) :
    (pc u).hand = some k ∧ k ≠ i := by
  by_cases hut : u = t
  · rw [hut, Function.update_self, hhand] at hu
    cases hu
  · rw [Function.update_of_ne hut] at hu
    refine ⟨hu, ?_⟩
    rintro rfl
    exact hut (h.hand_unique u t k hu hpc)

theorem pushFree (h : Segments sh pc free) (hlock : LockHeld sh.lock pc)
    (hpc : pc t = .pushFree i) :
    Segments { sh with freeSegments := some i } (Function.update pc t .unlockPush)
      (i :: free) := by
  have hlocal := h.locals t
  have hin : (pc t).hand = some i := by rw [hpc]; rfl
  obtain ⟨hlt, hheld, hout⟩ := h.hand_ok t i hin
  rw [hpc] at hlocal
  refine ⟨⟨rfl, nofun, ?_⟩, List.nodup_cons.mpr ⟨hout, h.nodup⟩, fun k hk => ?_, fun u => ?_,
    fun u k hk => ?_, fun u v k hu hv => ?_, h.held_ok⟩
  · change IsChain _ none (sh.next i) _
    rw [show sh.next i = sh.freeSegments from hlocal]
    exact h.links
  · obtain rfl | hk := List.mem_cons.mp hk
    · exact ⟨hlt, hheld⟩
    · exact h.free_ok k hk
  · by_cases hu : u = t
    · subst hu
      rw [Function.update_self]
      trivial
    · rw [Function.update_of_ne hu]
      exact others hlock (by rw [hpc]; rfl) hu
  · obtain ⟨hk, hne⟩ := h.hand_dropped hin rfl hk
    obtain ⟨hlt, hheld, hout⟩ := h.hand_ok u k hk
    exact ⟨hlt, hheld, List.not_mem_cons_of_ne_of_not_mem hne hout⟩
  · exact h.hand_unique u v k (h.hand_dropped hin rfl hu).1 (h.hand_dropped hin rfl hv).1

theorem initHeader (h : Segments sh pc free) (hpc : pc t = .initHeader i) :
    Segments { sh with held := Function.update sh.held i (sh.held i + 1) }
      (Function.update pc t .idle) free := by
  have hin : (pc t).hand = some i := by rw [hpc]; rfl
  obtain ⟨hlt, hheld, hout⟩ := h.hand_ok t i hin
  have hothers : ∀ k, k ≠ i → Function.update sh.held i (sh.held i + 1) k = sh.held k :=
    fun k hk => Function.update_of_ne hk _ _
  refine ⟨h.links, h.nodup, fun k hk => ?_, fun u => ?_, fun u k hk => ?_, fun u v k hu hv => ?_,
    fun k => ?_⟩
  · refine ⟨(h.free_ok k hk).1, ?_⟩
    exact (hothers k fun heq => hout (heq ▸ hk)).trans (h.free_ok k hk).2
  · by_cases hu : u = t
    · subst hu
      rw [Function.update_self]
      trivial
    · rw [Function.update_of_ne hu]
      exact h.locals u
  · obtain ⟨hk, hne⟩ := h.hand_dropped hin rfl hk
    obtain ⟨hlt, hheld, hout⟩ := h.hand_ok u k hk
    exact ⟨hlt, (hothers k hne).trans hheld, hout⟩
  · exact h.hand_unique u v k (h.hand_dropped hin rfl hu).1 (h.hand_dropped hin rfl hv).1
  · by_cases hk : k = i
    · subst hk
      simp [hheld, hlt]
    · dsimp only
      rw [hothers k hk]
      exact h.held_ok k

theorem callFree (h : Segments sh pc free) (hpc : pc t = .idle) (hheld : sh.held i ≠ 0) :
    Segments { sh with held := Function.update sh.held i (sh.held i - 1) }
      (Function.update pc t (.lockPush i)) free := by
  obtain ⟨hle, hlt⟩ := h.held_ok i
  have hout : i ∉ free := fun hmem => hheld (h.free_ok i hmem).2
  have hfresh : ∀ u, (pc u).hand ≠ some i := fun u hu => hheld (h.hand_ok u i hu).2.1
  have hothers : ∀ k, k ≠ i → Function.update sh.held i (sh.held i - 1) k = sh.held k :=
    fun k hk => Function.update_of_ne hk _ _
  refine ⟨h.links, h.nodup, fun k hk => ?_, fun u => ?_, fun u k hk => ?_,
    h.hand_unique_update hfresh rfl, fun k => ?_⟩
  · refine ⟨(h.free_ok k hk).1, ?_⟩
    exact (hothers k fun heq => hout (heq ▸ hk)).trans (h.free_ok k hk).2
  · by_cases hu : u = t
    · subst hu
      rw [Function.update_self]
      trivial
    · rw [Function.update_of_ne hu]
      exact h.locals u
  · by_cases hu : u = t
    · subst hu
      rw [Function.update_self] at hk
      obtain rfl := Option.some.inj hk
      refine ⟨hlt hheld, ?_, hout⟩
      dsimp only
      rw [Function.update_self]
      omega
    · rw [Function.update_of_ne hu] at hk
      obtain ⟨hlt, hzero, hout⟩ := h.hand_ok u k hk
      exact ⟨hlt, (hothers k fun heq => hheld (heq ▸ hzero)).trans hzero, hout⟩
  · by_cases hk : k = i
    · subst hk
      dsimp only
      rw [Function.update_self]
      exact ⟨by omega, fun _ => hlt hheld⟩
    · dsimp only
      rw [hothers k hk]
      exact h.held_ok k

end Segments

/-! ## Runs -/

structure Inv (s : State) : Prop where
  lock : LockHeld s.shared.lock s.pc
  unlocks : s.shared.wrongUnlock = false
  segments : ∃ free, Segments s.shared s.pc free

theorem inv_initial : Inv initial where
  lock := fun _ => ⟨nofun, nofun⟩
  unlocks := rfl
  segments := ⟨[], rfl, List.nodup_nil, nofun, fun _ => trivial, nofun, nofun,
    fun _ => ⟨Nat.zero_le 1, fun h => absurd rfl h⟩⟩

theorem Inv.exclusive {s : State} (hinv : Inv s) : Exclusive s where
  inside := fun _ _ ht hu => hinv.lock.exclusive ht hu
  unlocks := hinv.unlocks
  returned := fun i => by
    obtain ⟨free, hsegments⟩ := hinv.segments
    exact (hsegments.held_ok i).1

/-- A step of a thread, given that it holds the lock where it is inside. -/
theorem Segments.advance (h : Segments sh pc free) (hlock : LockHeld sh.lock pc)
    (hstep : advance segmaxnum t mapped sh (pc t) = some (sh', p')) :
    ∃ free', Segments sh' (Function.update pc t p') free' := by
  have hlocal := h.locals t
  have hacquire : ∀ {q : Pc}, (∀ lock, q.Local { sh with lock := lock }) →
      (q.hand = (pc t).hand ∨ q.hand = none) → sh.acquire t q = some (sh', p') →
      ∃ free', Segments sh' (Function.update pc t p') free' := by
    intro q hq hhand hacquire
    unfold Shared.acquire at hacquire
    split at hacquire
    · obtain ⟨rfl, rfl⟩ := Prod.mk.inj (Option.some.inj hacquire)
      exact ⟨free, h.move rfl rfl rfl rfl hhand (hq _)⟩
    · cases hacquire
  cases hpc : pc t with
  | idle =>
      rw [hpc] at hstep
      cases hstep
  | lockFree | lockCount | lockPush k =>
      rw [hpc] at hstep
      refine hacquire ?_ ?_ hstep
      · exact fun _ => trivial
      rw [hpc]
      exact Or.inl rfl
  | takeFree =>
      rw [hpc] at hstep
      obtain ⟨k, hk, heq⟩ := Option.map_eq_some_iff.mp hstep
      obtain ⟨rfl, rfl⟩ := Prod.mk.inj heq
      exact ⟨free, h.move rfl rfl rfl rfl (Or.inr rfl) hk⟩
  | readNext k =>
      rw [hpc] at hstep hlocal
      obtain ⟨rfl, rfl⟩ := Prod.mk.inj (Option.some.inj hstep)
      exact ⟨free, h.move rfl rfl rfl rfl (Or.inr rfl) ⟨hlocal, rfl⟩⟩
  | popFree k n =>
      rw [hpc] at hstep
      obtain ⟨rfl, rfl⟩ := Prod.mk.inj (Option.some.inj hstep)
      exact h.popFree hlock hpc
  | unlockFree k =>
      rw [hpc] at hstep
      cases k with
      | none =>
          obtain ⟨rfl, rfl⟩ := Prod.mk.inj (Option.some.inj hstep)
          exact ⟨free, h.move rfl rfl rfl rfl (Or.inr rfl) trivial⟩
      | some k =>
          obtain ⟨rfl, rfl⟩ := Prod.mk.inj (Option.some.inj hstep)
          exact ⟨free, h.move rfl rfl rfl rfl (Or.inl (by rw [hpc]; rfl)) trivial⟩
  | peekFree | testFree | peekCount | mapSegment k =>
      rw [hpc] at hstep
      obtain ⟨rfl, rfl⟩ := Prod.mk.inj (Option.some.inj hstep)
      refine ⟨free, h.move rfl rfl rfl rfl ?_ ?_⟩
      · rw [hpc]
        split <;> first
          | exact Or.inl rfl
          | exact Or.inr rfl
      · split <;> trivial
  | testCount =>
      rw [hpc] at hstep
      obtain ⟨rfl, rfl⟩ := Prod.mk.inj (Option.some.inj hstep)
      refine ⟨free, h.move rfl rfl rfl rfl (Or.inr ?_) ?_⟩
      · split <;> rfl
      · split
        · trivial
        · exact rfl
  | bail | unlockFull | unlockPush =>
      rw [hpc] at hstep
      obtain ⟨rfl, rfl⟩ := Prod.mk.inj (Option.some.inj hstep)
      exact ⟨free, h.move rfl rfl rfl rfl (Or.inr rfl) trivial⟩
  | readCount k =>
      rw [hpc] at hstep hlocal
      obtain ⟨rfl, rfl⟩ := Prod.mk.inj (Option.some.inj hstep)
      exact ⟨free, h.move rfl rfl rfl rfl (Or.inr rfl) ⟨hlocal, rfl⟩⟩
  | storeCount k n =>
      rw [hpc] at hstep
      obtain ⟨rfl, rfl⟩ := Prod.mk.inj (Option.some.inj hstep)
      exact ⟨free, h.storeCount hlock hpc⟩
  | unlockCount k =>
      rw [hpc] at hstep
      obtain ⟨rfl, rfl⟩ := Prod.mk.inj (Option.some.inj hstep)
      exact ⟨free, h.move rfl rfl rfl rfl (Or.inl (by rw [hpc]; rfl)) trivial⟩
  | initHeader k =>
      rw [hpc] at hstep
      obtain ⟨rfl, rfl⟩ := Prod.mk.inj (Option.some.inj hstep)
      exact ⟨free, h.initHeader hpc⟩
  | readFree k =>
      rw [hpc] at hstep
      obtain ⟨rfl, rfl⟩ := Prod.mk.inj (Option.some.inj hstep)
      exact ⟨free, h.move rfl rfl rfl rfl (Or.inl (by rw [hpc]; rfl)) rfl⟩
  | linkFree k n =>
      rw [hpc] at hstep
      obtain ⟨rfl, rfl⟩ := Prod.mk.inj (Option.some.inj hstep)
      exact ⟨free, h.linkFree hlock hpc⟩
  | pushFree k =>
      rw [hpc] at hstep
      obtain ⟨rfl, rfl⟩ := Prod.mk.inj (Option.some.inj hstep)
      exact ⟨k :: free, h.pushFree hlock hpc⟩

theorem Inv.step {s s' : State} {e : Event} (hinv : Inv s) (hbail : NoBail s e)
    (hstep : step segmaxnum s e = some s') : Inv s' := by
  obtain ⟨free, hsegments⟩ := hinv.segments
  cases e with
  | allocate t =>
      dsimp only [SegmentLock.step] at hstep
      split at hstep
      · next hidle =>
          obtain rfl := Option.some.inj hstep
          refine ⟨hinv.lock.kept (by rw [hidle]; rfl), hinv.unlocks, free, ?_⟩
          exact hsegments.move rfl rfl rfl rfl (Or.inr rfl) trivial
      · cases hstep
  | free t k =>
      dsimp only [SegmentLock.step] at hstep
      split at hstep
      · next hcall =>
          obtain rfl := Option.some.inj hstep
          refine ⟨hinv.lock.kept (by rw [hcall.1]; rfl), hinv.unlocks, free, ?_⟩
          exact hsegments.callFree hcall.1 hcall.2
      · cases hstep
  | link k n =>
      dsimp only [SegmentLock.step] at hstep
      split at hstep
      · next hheld =>
          obtain rfl := Option.some.inj hstep
          exact ⟨hinv.lock, hinv.unlocks, free, hsegments.callerLink hheld n⟩
      · cases hstep
  | step t mapped =>
      obtain ⟨⟨sh', p'⟩, hadvance, rfl⟩ := Option.map_eq_some_iff.mp hstep
      obtain ⟨hlock, hwrong⟩ := (advance_lockStep hadvance hbail).lockHeld hinv.lock
      exact ⟨hlock, hwrong.trans hinv.unlocks, hsegments.advance hinv.lock hadvance⟩

/-- The unlock of the early return is never that of the thread's own lock. -/
theorem Inv.noBail {s s' : State} {e : Event} (hinv : Inv s)
    (hstep : SegmentLock.step segmaxnum s e = some s') (hnext : Exclusive s') : NoBail s e := by
  cases e with
  | step t mapped =>
      intro hpc
      obtain ⟨⟨sh', p'⟩, hadvance, rfl⟩ := Option.map_eq_some_iff.mp hstep
      rw [hpc] at hadvance
      obtain ⟨rfl, rfl⟩ := Prod.mk.inj (Option.some.inj hadvance)
      have hother : s.shared.lock ≠ some t := fun hlock => by
        have hinside := (hinv.lock t).mp hlock
        rw [hpc] at hinside
        cases hinside
      have hwrong := hnext.unlocks
      simp [Shared.release, hother] at hwrong
  | _ => trivial

/-- Allocation is exclusive in every state of a run exactly if no step of it is
the unlock of the early return. -/
theorem exclusive_along_iff (segmaxnum : ℕ) (events : List Event) :
    Transition.Along (step segmaxnum) Exclusive initial events ↔
      Transition.Meets (step segmaxnum) NoBail initial events :=
  Transition.along_iff_meets Inv (fun _ => Inv.exclusive) (fun _ _ _ => Inv.step)
    (fun _ _ _ => Inv.noBail) inv_initial

/-! ## An unlock inside another thread's section -/

/-- Thread 0 is given a segment that did not exist before. -/
def createEvents : List Event :=
  .allocate 0 :: List.replicate 9 (.step 0 true)

/-- Thread 1 is inside to free a segment when thread 2 finds that there is none
left; thread 3 then goes inside too. -/
def exhaustedEvents : List Event :=
  createEvents ++ createEvents ++
    [.allocate 2, .step 2 true, .step 2 true, .free 1 0, .step 1 true, .step 2 true,
      .free 3 1, .step 3 true]

theorem not_exclusive_exhausted :
    ¬Transition.Along (step 2) Exclusive initial exhaustedEvents := by
  intro halong
  have hrun : (Transition.run (step 2) initial exhaustedEvents).map
      (fun s => (s.pc 1).critical && (s.pc 3).critical) = some true := by decide +kernel
  obtain ⟨s, hs, hinside⟩ := Option.map_eq_some_iff.mp hrun
  obtain ⟨hone, hthree⟩ := Bool.and_eq_true_iff.mp hinside
  exact absurd ((halong.of_run hs).inside 1 3 hone hthree) (by decide)

end ArmsTiering.Flexkvs.SegmentLock
