import ArmsTiering.Arms.ParallelCopy
import Mathlib.Algebra.BigOperators.Fin
import Mathlib.Algebra.Order.BigOperators.Group.Finset

/-!
# Parallel copies return

Whoever does not wait at the barrier can make a step, and every step of a call brings
its return nearer, so that no schedule keeps a page from being migrated.
-/

namespace ArmsTiering.ParallelCopy

open Transition Simulation Barrier

/-- The caller has been to the second wait. -/
def CallerPc.late : CallerPc → Bool
  | .finishing | .unlock => true
  | _ => false

/-- The steps that a thread can still make until the call returns. -/
def ThreadPc.rank (chunk : ℕ) (late : Bool) (status : BarrierStatus) : ThreadPc → ℕ
  | .start => if late then 3 else chunk + 12
  | .starting => if late ∧ status = .waiting then 2 else chunk + 11
  | .readLength => chunk + 10
  | .readDst _ => chunk + 9
  | .readZeros _ _ => chunk + 8
  | .readSrc _ _ => chunk + 7
  | .copying _ _ _ i => chunk - i + 6
  | .finish => 5
  | .finishing => if late = false ∧ status = .released then chunk + 13 else 4

def CallerPc.rank : CallerPc → ℕ
  | .storing rest => rest.length + 8
  | .starting => 7
  | .finish => 6
  | .finishing => 5
  | .unlock => 4

namespace State

variable {n : ℕ} {s s' : State n} {m : ℕ → UInt8} {job : Job} {tid : Fin n} {pc : ThreadPc}

/-- Whoever does not wait at the barrier can go on. -/
theorem Refines.threadStep_isSome (href : s.Refines m) (hmoves : s.barrier (some tid) ≠ .waiting) :
    ∃ s', s.threadStep tid = some s' := by
  have hleave : s.barrier (some tid) = .released → ∃ left, s.leave (some tid) = some left :=
    fun hreleased => ⟨_, leave_eq_some.mpr ⟨hreleased, rfl⟩⟩
  unfold State.threadStep
  rcases href.phase with hidle | ⟨job, hbusy⟩
  · have hthread := hidle.threads tid
    cases hpc : s.threads tid <;> rw [hpc] at hthread
    case start => exact ⟨_, rfl⟩
    case starting => exact absurd hthread hmoves
    case finishing =>
      obtain ⟨left, hleave⟩ := hleave hthread
      exact ⟨_, by rw [hleave]; rfl⟩
    all_goals exact hthread.elim
  · have hthread := hbusy.threads tid
    cases hpc : s.threads tid <;> rw [hpc] at hthread
    case start => exact hthread.elim
    case starting =>
      obtain ⟨left, hleave⟩ := hleave hthread
      exact ⟨_, by rw [hleave]; rfl⟩
    case finishing => exact absurd hthread hmoves
    case copying =>
      dsimp only
      split_ifs <;> exact ⟨_, rfl⟩
    all_goals exact ⟨_, rfl⟩

theorem Refines.callerStep_isSome (href : s.Refines m) (hcall : s.call ≠ none)
    (hmoves : s.barrier none ≠ .waiting) : ∃ s', s.callerStep = some s' := by
  obtain ⟨⟨job, callerPc⟩, hcall⟩ := Option.ne_none_iff_exists'.mp hcall
  have hleave : s.barrier none = .released → ∃ left, s.leave none = some left :=
    fun hreleased => ⟨_, leave_eq_some.mpr ⟨hreleased, rfl⟩⟩
  have hphase := href.phase_of_call hcall
  unfold State.callerStep
  rw [hcall, Option.bind_some]
  match callerPc, hphase with
  | .storing (store :: rest), _ => exact ⟨_, rfl⟩
  | .storing [], _ => exact ⟨_, rfl⟩
  | .starting, .inl ⟨_, hcaller⟩ => exact absurd hcaller.1 hmoves
  | .starting, .inr ⟨_, hpc⟩ =>
      obtain ⟨left, hleave⟩ := hleave hpc
      exact ⟨_, by rw [hleave]; rfl⟩
  | .finish, _ => exact ⟨_, rfl⟩
  | .finishing, .inl ⟨_, hcaller⟩ =>
      obtain ⟨left, hleave⟩ := hleave hcaller.1
      exact ⟨_, by rw [hleave]; rfl⟩
  | .finishing, .inr ⟨_, hpc⟩ => exact absurd hpc hmoves
  | .unlock, _ => exact ⟨_, rfl⟩

theorem Refines.step_isSome (href : s.Refines m) (hcall : s.call ≠ none) :
    ∃ action s', s.step action = some s' := by
  obtain ⟨p, hmoves⟩ := href.isOpen
  cases p with
  | none =>
      obtain ⟨s', hstep⟩ := href.callerStep_isSome hcall hmoves
      exact ⟨.caller, s', hstep⟩
  | some tid =>
      obtain ⟨s', hstep⟩ := href.threadStep_isSome hmoves
      exact ⟨.thread tid, s', hstep⟩

def threadRank (s : State n) (job : Job) (callerPc : CallerPc) (tid : Fin n) : ℕ :=
  (s.threads tid).rank (job.chunk n) callerPc.late (s.barrier (some tid))

/-- The steps that can still be made until the call returns. -/
def remaining (s : State n) (job : Job) (callerPc : CallerPc) : ℕ :=
  callerPc.rank + ∑ tid, s.threadRank job callerPc tid

variable {callerPc : CallerPc}

theorem remaining_lt (tid : Fin n)
    (hothers : ∀ other, other ≠ tid →
      s'.threadRank job callerPc other ≤ s.threadRank job callerPc other)
    (htid : s'.threadRank job callerPc tid < s.threadRank job callerPc tid) :
    s'.remaining job callerPc < s.remaining job callerPc := by
  apply Nat.add_lt_add_left
  apply Finset.sum_lt_sum
  · intro other _
    by_cases hsame : other = tid
    · rw [hsame]
      exact htid.le
    · exact hothers other hsame
  · exact ⟨tid, Finset.mem_univ tid, htid⟩

/-- A step of one thread that changes its own status only. -/
theorem remaining_goTo {mem : ℕ → UInt8} {barrier : Option (Fin n) → BarrierStatus}
    {status : BarrierStatus} (hbarrier : barrier = Function.update s.barrier (some tid) status)
    (hrank : pc.rank (job.chunk n) callerPc.late status < s.threadRank job callerPc tid) :
    (({ s with mem := mem, barrier := barrier } : State n).goTo tid pc).remaining job callerPc <
      s.remaining job callerPc := by
  subst hbarrier
  apply remaining_lt tid
  · intro other hne
    have hthread : Function.update s.threads tid pc other = s.threads other :=
      Function.update_of_ne hne _ _
    have hstatus : Function.update s.barrier (some tid) status (some other) = s.barrier (some other) :=
      Function.update_of_ne (fun h => hne (Option.some.inj h)) _ _
    unfold threadRank
    change (Function.update s.threads tid pc other).rank _ _
      (Function.update s.barrier (some tid) status (some other)) ≤ _
    rw [hthread, hstatus]
  · unfold threadRank at hrank ⊢
    change (Function.update s.threads tid pc tid).rank _ _
      (Function.update s.barrier (some tid) status (some tid)) < _
    rwa [Function.update_self, Function.update_self]

/-- A thread comes last to a wait. -/
theorem remaining_release
    (hothers : ∀ other, other ≠ tid → s.threads other = pc ∧ s.barrier (some other) = .waiting)
    (hsame : pc.rank (job.chunk n) callerPc.late .released ≤
      pc.rank (job.chunk n) callerPc.late .waiting)
    (hrank : pc.rank (job.chunk n) callerPc.late .released < s.threadRank job callerPc tid) :
    (({ s with barrier := fun _ => .released } : State n).goTo tid pc).remaining job callerPc <
      s.remaining job callerPc := by
  apply remaining_lt tid
  · intro other hne
    obtain ⟨hpc, hwaiting⟩ := hothers other hne
    have hthread : Function.update s.threads tid pc other = pc :=
      (Function.update_of_ne hne _ _).trans hpc
    unfold threadRank
    change (Function.update s.threads tid pc other).rank _ _ .released ≤ _
    rw [hthread, hpc, hwaiting]
    exact hsame
  · change (Function.update s.threads tid pc tid).rank _ _ .released < _
    rwa [Function.update_self]

theorem Idle.threadStep_remaining (hidle : s.Idle m) (hcall : s.call = some (job, callerPc))
    (hstep : s.threadStep tid = some s') : s'.remaining job callerPc < s.remaining job callerPc := by
  have hthread := hidle.threads tid
  unfold State.threadStep at hstep
  cases hpc : s.threads tid with
  | start =>
      rw [hpc] at hstep
      obtain rfl := Option.some.inj hstep
      have hrank : ∀ status, (callerPc.late = true → status = .waiting) →
          ThreadPc.starting.rank (job.chunk n) callerPc.late status <
            s.threadRank job callerPc tid := by
        intro status hstatus
        rw [threadRank, hpc, ThreadPc.rank, ThreadPc.rank]
        cases hlate : callerPc.late with
        | false => simp
        | true => simp [hstatus hlate]
      rcases arrive_cases s.barrier (some tid) with ⟨_, heq⟩ | ⟨hothers, heq⟩
      · exact remaining_goTo heq (hrank _ fun _ => rfl)
      · obtain ⟨job', hcall', _⟩ := hidle.call_of_waiting (hothers none (Option.some_ne_none tid).symm)
        obtain ⟨rfl, rfl⟩ := Prod.mk.inj (Option.some.inj (hcall.symm.trans hcall'))
        unfold arrive
        rw [heq]
        refine remaining_release (fun other hne => ?_) (by simp [ThreadPc.rank, CallerPc.late])
          (hrank _ nofun)
        have hwaiting := hothers (some other) fun h => hne (Option.some.inj h)
        exact ⟨hidle.thread_of_waiting hwaiting, hwaiting⟩
  | starting =>
      rw [hpc] at hstep hthread
      obtain ⟨left, hleave, rfl⟩ := Option.map_eq_some_iff.mp hstep
      exact absurd ((leave_eq_some.mp hleave).1.symm.trans hthread) (by decide)
  | finishing =>
      rw [hpc] at hstep
      obtain ⟨left, hleave, rfl⟩ := Option.map_eq_some_iff.mp hstep
      obtain ⟨hreleased, rfl⟩ := leave_eq_some.mp hleave
      apply remaining_goTo rfl
      rw [threadRank, hpc, hreleased, ThreadPc.rank, ThreadPc.rank]
      cases callerPc.late <;> simp
  | _ =>
      rw [hpc] at hthread
      exact hthread.elim

theorem Busy.threadStep_remaining (hbusy : s.Busy m job) (hcall : s.call = some (job, callerPc))
    (hstep : s.threadStep tid = some s') : s'.remaining job callerPc < s.remaining job callerPc := by
  have hthread := hbusy.threads tid
  have hsame := (Function.update_eq_self (some tid) s.barrier).symm
  unfold State.threadStep at hstep
  cases hpc : s.threads tid with
  | start =>
      rw [hpc] at hthread
      exact hthread.elim
  | starting =>
      rw [hpc] at hstep
      obtain ⟨left, hleave, rfl⟩ := Option.map_eq_some_iff.mp hstep
      obtain ⟨hreleased, rfl⟩ := leave_eq_some.mp hleave
      apply remaining_goTo rfl
      simp [threadRank, hpc, hreleased, ThreadPc.rank]
  | readZeros c d =>
      rw [hpc] at hstep
      obtain rfl := Option.some.inj hstep
      apply remaining_goTo hsame
      rw [threadRank, hpc]
      split_ifs <;> simp [ThreadPc.rank]
  | copying c d src i =>
      rw [hpc] at hstep hthread
      obtain ⟨_, rfl, _, _, hi⟩ := hthread
      dsimp only at hstep
      split_ifs at hstep with hlt
      · obtain rfl := Option.some.inj hstep
        apply remaining_goTo hsame
        simp only [threadRank, hpc, ThreadPc.rank]
        omega
      · obtain rfl := Option.some.inj hstep
        apply remaining_goTo hsame
        simp only [threadRank, hpc, ThreadPc.rank]
        omega
  | finish =>
      rw [hpc] at hstep
      obtain rfl := Option.some.inj hstep
      rcases arrive_cases s.barrier (some tid) with ⟨_, heq⟩ | ⟨hothers, heq⟩
      · apply remaining_goTo heq
        simp [threadRank, hpc, ThreadPc.rank]
      · have hcall' := hbusy.call_of_waiting (hothers none (Option.some_ne_none tid).symm)
        obtain ⟨_, rfl⟩ := Prod.mk.inj (Option.some.inj (hcall.symm.trans hcall'))
        unfold arrive
        rw [heq]
        refine remaining_release (fun other hne => ?_) (by simp [ThreadPc.rank, CallerPc.late])
          (by simp [threadRank, hpc, ThreadPc.rank, CallerPc.late])
        have hwaiting := hothers (some other) fun h => hne (Option.some.inj h)
        exact ⟨hbusy.thread_of_waiting hwaiting, hwaiting⟩
  | finishing =>
      rw [hpc] at hstep hthread
      obtain ⟨left, hleave, rfl⟩ := Option.map_eq_some_iff.mp hstep
      exact absurd ((leave_eq_some.mp hleave).1.symm.trans hthread) (by decide)
  | _ =>
      rw [hpc] at hstep
      obtain rfl := Option.some.inj hstep
      apply remaining_goTo hsame
      simp [threadRank, hpc, ThreadPc.rank]

/-- A step of the caller that leaves the threads no more steps than before. -/
theorem remaining_caller {callerPc' : CallerPc} (hrank : callerPc'.rank < callerPc.rank)
    (hthreads : ∀ tid, s'.threadRank job callerPc' tid ≤ s.threadRank job callerPc tid) :
    s'.remaining job callerPc' < s.remaining job callerPc :=
  Nat.add_lt_add_of_lt_of_le hrank (Finset.sum_le_sum fun tid _ => hthreads tid)

theorem Refines.callerStep_remaining (href : s.Refines m) (hcall : s.call = some (job, callerPc))
    (hstep : s.callerStep = some s') (hinside : callerPc ≠ .unlock) :
    ∃ callerPc', s'.call = some (job, callerPc') ∧
      s'.remaining job callerPc' < s.remaining job callerPc := by
  obtain ⟨⟨job', pc'⟩, hcall', hstep⟩ := Option.bind_eq_some_iff.mp hstep
  obtain ⟨rfl, rfl⟩ := Prod.mk.inj (Option.some.inj (hcall.symm.trans hcall'))
  have hphase := href.phase_of_call hcall
  have hother : ∀ tid status, Function.update s.barrier none status (some tid) = s.barrier (some tid) :=
    fun tid _ => Function.update_of_ne (Option.some_ne_none tid) _ _
  match callerPc, hstep, hphase, hcall, hinside with
  | .storing (store :: rest), hstep, _, _, _ =>
      obtain rfl := Option.some.inj hstep
      exact ⟨_, rfl, remaining_caller (by simp [CallerPc.rank]) fun tid => le_rfl⟩
  | .storing [], hstep, hphase, hcall, _ =>
      obtain rfl := Option.some.inj hstep
      obtain ⟨hidle, _⟩ | ⟨_, hpc⟩ := hphase
      · refine ⟨_, rfl, remaining_caller (by simp [CallerPc.rank]) fun tid => ?_⟩
        change (s.threads tid).rank _ _ (Barrier.arrive s.barrier none (some tid)) ≤
          (s.threads tid).rank _ _ (s.barrier (some tid))
        rcases arrive_cases s.barrier none with ⟨_, heq⟩ | ⟨hothers, heq⟩
        · rw [heq, hother]
          exact le_rfl
        · have hwaiting := hothers (some tid) (Option.some_ne_none tid)
          rw [heq, hwaiting, hidle.thread_of_waiting hwaiting]
          simp [ThreadPc.rank, CallerPc.late]
      · exact hpc.elim
  | .starting, hstep, _, _, _ =>
      obtain ⟨left, hleave, rfl⟩ := Option.map_eq_some_iff.mp hstep
      obtain ⟨_, rfl⟩ := leave_eq_some.mp hleave
      refine ⟨_, rfl, remaining_caller (by decide) fun tid => ?_⟩
      change (s.threads tid).rank _ _ (Function.update s.barrier none .away (some tid)) ≤ _
      rw [hother]
      exact le_rfl
  | .finish, hstep, hphase, _, _ =>
      obtain rfl := Option.some.inj hstep
      obtain ⟨_, hcaller⟩ | ⟨hbusy, _⟩ := hphase
      · exact hcaller.elim
      · refine ⟨_, rfl, remaining_caller (by decide) fun tid => ?_⟩
        change (s.threads tid).rank _ true (Barrier.arrive s.barrier none (some tid)) ≤
          (s.threads tid).rank _ false (s.barrier (some tid))
        rcases arrive_cases s.barrier none with ⟨_, heq⟩ | ⟨hothers, heq⟩
        · rw [heq, hother]
          cases s.threads tid <;> simp [ThreadPc.rank] <;> split_ifs <;> omega
        · have hwaiting := hothers (some tid) (Option.some_ne_none tid)
          rw [heq, hwaiting, hbusy.thread_of_waiting hwaiting]
          simp [ThreadPc.rank]
  | .finishing, hstep, _, _, _ =>
      obtain ⟨left, hleave, rfl⟩ := Option.map_eq_some_iff.mp hstep
      obtain ⟨_, rfl⟩ := leave_eq_some.mp hleave
      refine ⟨_, rfl, remaining_caller (by decide) fun tid => ?_⟩
      change (s.threads tid).rank _ _ (Function.update s.barrier none .away (some tid)) ≤ _
      rw [hother]
      exact le_rfl
  | .unlock, _, _, _, hinside => exact absurd rfl hinside

theorem Refines.threadStep_remaining (href : s.Refines m) (hcall : s.call = some (job, callerPc))
    (hstep : s.threadStep tid = some s') : s'.remaining job callerPc < s.remaining job callerPc := by
  obtain ⟨hidle, _⟩ | ⟨hbusy, _⟩ := href.phase_of_call hcall
  · exact hidle.threadStep_remaining hcall hstep
  · exact hbusy.threadStep_remaining hcall hstep

/-- Run lemma: while a call is made, every step counts. -/
theorem Refines.returns (href : s.Refines m) (hcall : s.call = some (job, callerPc))
    (actions : List (Action n)) (hrun : run step s actions = some s')
    (hlong : s.remaining job callerPc ≤ actions.length) :
    ∃ rest, trace step observe s actions = job :: rest := by
  induction actions generalizing s callerPc m with
  | nil =>
      have hpos : 0 < callerPc.rank := by cases callerPc <;> simp [CallerPc.rank]
      exact absurd (Nat.le_zero.mp hlong) (by unfold remaining; omega)
  | cons action actions ih =>
      obtain ⟨next, hstep, hrest⟩ := run_cons_eq_some.mp hrun
      rw [List.length_cons] at hlong
      cases action with
      | lock job' =>
          obtain ⟨⟨hnone, _⟩, _⟩ := Option.ite_none_right_eq_some.mp hstep
          exact absurd (hnone.symm.trans hcall) nofun
      | thread tid =>
          have hless := href.threadStep_remaining hcall hstep
          have hcall' := (threadStep_frame href.isOpen hstep).1.trans hcall
          obtain ⟨rest, htrace⟩ := ih (href.threadStep hstep) hcall' hrest (by omega)
          exact ⟨rest, by rw [trace, hstep]; exact htrace⟩
      | caller =>
          by_cases hunlock : callerPc = .unlock
          · subst hunlock
            exact ⟨trace step observe next actions, by simp [trace, hstep, observe, hcall]⟩
          · obtain ⟨callerPc', hcall', hless⟩ := href.callerStep_remaining hcall hstep hunlock
            have hsilent : s.observe .caller = none := by
              unfold observe
              rw [hcall]
              cases callerPc <;> first | rfl | exact absurd rfl hunlock
            obtain ⟨rest, htrace⟩ := ih (href.callerStep hstep) hcall' hrest (by omega)
            refine ⟨rest, ?_⟩
            rw [trace, hstep]
            dsimp only
            rw [hsilent]
            exact htrace

theorem threadRank_le (tid : Fin n) : s.threadRank job callerPc tid ≤ job.chunk n + 13 := by
  unfold threadRank
  cases s.threads tid <;> simp only [ThreadPc.rank]
  case start | starting | finishing => split_ifs <;> omega
  all_goals omega

theorem remaining_le :
    s.remaining job callerPc ≤ callerPc.rank + n * (job.chunk n + 13) := by
  apply Nat.add_le_add_left
  calc
    ∑ tid, s.threadRank job callerPc tid ≤ ∑ _tid : Fin n, (job.chunk n + 13) :=
      Finset.sum_le_sum fun tid _ => threadRank_le tid
    _ = n * (job.chunk n + 13) := by simp

end State

open State

/-- A call never gets stuck, and whichever steps the threads take, it returns before its
caller and the threads have made more than so many. -/
theorem parallel_copy_returns (n : ℕ) (mem : ℕ → UInt8) (p : Pmemcpy)
    (before actions : List (Action n)) (s called s' : State n) (job : Job)
    (hrun : run step (initial mem p) before = some s) (hlock : s.step (.lock job) = some called)
    (hrun' : run step called actions = some s') :
    (s'.call ≠ none → ∃ action next, s'.step action = some next) ∧
      (12 + n * (job.chunk n + 13) ≤ actions.length →
        ∃ rest, trace step observe called actions = job :: rest) := by
  obtain ⟨m, _, hfinal⟩ := (parallelCopy_simulates n).accepts (refines_initial mem p) before
  obtain ⟨⟨hcall, hapart⟩, hlock⟩ := Option.ite_none_right_eq_some.mp hlock
  obtain rfl := Option.some.inj hlock
  have href := (hfinal s hrun).lock hcall hapart
  obtain ⟨m', _, hfinal'⟩ := (parallelCopy_simulates n).accepts href actions
  refine ⟨(hfinal' s' hrun').step_isSome, fun hlong => href.returns rfl actions hrun' ?_⟩
  have hstores : job.stores.length ≤ 4 := by
    rcases job with ⟨_, _ | _, _⟩ <;> simp [Job.stores]
  apply remaining_le.trans
  simp only [CallerPc.rank]
  omega

/-- One thread copies one byte, and then there is another call. -/
theorem parallel_copy_returns_byte :
    ∃ (actions : List (Action 1)) (called s' : State 1),
      (initial (fun _ => 7) ⟨false, 0, 0, 0⟩).step (.lock ⟨0, some 8, 1⟩) = some called ∧
      run step called actions = some s' ∧
      (s'.call ≠ none → ∃ action next, s'.step action = some next) ∧
      ∃ rest, trace step observe called actions = ⟨0, some 8, 1⟩ :: rest := by
  let actions : List (Action 1) := List.replicate 5 .caller ++ List.replicate 9 (.thread 0) ++
    List.replicate 4 .caller ++ [.thread 0, .thread 0, .lock ⟨0, some 8, 1⟩] ++
    List.replicate 5 .caller
  have hsome : (((initial (fun _ => 7) ⟨false, 0, 0, 0⟩).step (.lock ⟨0, some 8, 1⟩)).bind
      fun called => run step called actions).isSome = true := by
    decide
  obtain ⟨s', hboth⟩ := Option.isSome_iff_exists.mp hsome
  obtain ⟨called, hlock, hrun⟩ := Option.bind_eq_some_iff.mp hboth
  obtain ⟨hstuck, hreturns⟩ := parallel_copy_returns 1 (fun _ => 7) ⟨false, 0, 0, 0⟩ [] actions
    (initial (fun _ => 7) ⟨false, 0, 0, 0⟩) called s' ⟨0, some 8, 1⟩ rfl hlock hrun
  exact ⟨actions, called, s', hlock, hrun, hstuck, hreturns (by decide)⟩

end ArmsTiering.ParallelCopy
