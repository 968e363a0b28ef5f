import ArmsTiering.Core.Barrier
import ArmsTiering.Core.Simulation
import Mathlib.Data.Fintype.Option

/-!
# Copying a page by several threads

`arms_parallel_memcpy` and `arms_parallel_memset` write down a job under a lock and wait
twice at a barrier, at which the copy threads wait as well.  Every access to memory and
every wait is a step of its own.
-/

namespace ArmsTiering.ParallelCopy

open Transition Simulation Barrier

/-- A call of `arms_parallel_memcpy`, or of `arms_parallel_memset` if there is no source. -/
structure Job where
  dst : ℕ
  src : Option ℕ
  length : ℕ
  deriving DecidableEq

/-- The shared variables of `struct pmemcpy` -/
structure Pmemcpy where
  writeZeros : Bool
  dst : ℕ
  src : ℕ
  length : ℕ

/-- An assignment to one of them. -/
inductive Store
  | dst (address : ℕ)
  | src (address : ℕ)
  | length (n : ℕ)
  | writeZeros (zeros : Bool)

def Pmemcpy.store (p : Pmemcpy) : Store → Pmemcpy
  | .dst address => { p with dst := address }
  | .src address => { p with src := address }
  | .length n => { p with length := n }
  | .writeZeros zeros => { p with writeZeros := zeros }

/-- What a caller writes down, in its order. -/
def Job.stores (job : Job) : List Store :=
  match job.src with
  | some src => [.dst job.dst, .src src, .length job.length, .writeZeros false]
  | none => [.dst job.dst, .length job.length, .writeZeros true]

/-- Where a thread is in the loop of `arms_parallel_memcpy_thread`, with its locals. -/
inductive ThreadPc
  /-- before the first wait -/
  | start
  | starting
  | readLength
  | readDst (chunkSize : ℕ)
  | readZeros (chunkSize dst : ℕ)
  | readSrc (chunkSize dst : ℕ)
  /-- in `memcpy`, or in `memset` if there is no source -/
  | copying (chunkSize dst : ℕ) (src : Option ℕ) (i : ℕ)
  /-- before the second wait -/
  | finish
  | finishing

/-- Where the caller is that holds the lock. -/
inductive CallerPc
  | storing (rest : List Store)
  | starting
  | finish
  | finishing
  | unlock

/-- The state, for `n` copy threads; nobody of the barrier is the caller. -/
structure State (n : ℕ) where
  mem : ℕ → UInt8
  pmemcpy : Pmemcpy
  barrier : Option (Fin n) → BarrierStatus
  threads : Fin n → ThreadPc
  call : Option (Job × CallerPc)

inductive Action (n : ℕ)
  | lock (job : Job)
  | caller
  | thread (tid : Fin n)

/-- `chunk_size` -/
def Job.chunk (n : ℕ) (job : Job) : ℕ := job.length / n

/-- A caller does not copy a range onto itself. -/
def Job.Apart (n : ℕ) (job : Job) : Prop :=
  ∀ src ∈ job.src, src + n * job.chunk n ≤ job.dst ∨ job.dst + n * job.chunk n ≤ src

instance (n : ℕ) : (job : Job) → Decidable (job.Apart n)
  | ⟨_, none, _⟩ => .isTrue nofun
  | ⟨dst, some src, length⟩ =>
      decidable_of_iff (src + n * (length / n) ≤ dst ∨ dst + n * (length / n) ≤ src)
        ⟨fun h _ hsrc => Option.some.inj hsrc ▸ h, fun h => h src rfl⟩

namespace State

variable {n : ℕ} (s : State n)

def goTo (tid : Fin n) (pc : ThreadPc) : State n :=
  { s with threads := Function.update s.threads tid pc }

/-- The byte that is copied to the offset `i`. -/
def source (src : Option ℕ) (i : ℕ) : UInt8 :=
  match src with
  | some src => s.mem (src + i)
  | none => 0

def arrive (p : Option (Fin n)) : State n := { s with barrier := Barrier.arrive s.barrier p }

def leave (p : Option (Fin n)) : Option (State n) :=
  (Barrier.leave s.barrier p).map fun barrier => { s with barrier := barrier }

/-- `arms_parallel_memcpy_thread` -/
def threadStep (tid : Fin n) : Option (State n) :=
  match s.threads tid with
  | .start => some ((s.arrive (some tid)).goTo tid .starting)
  | .starting => (s.leave (some tid)).map fun s => s.goTo tid .readLength
  | .readLength => some (s.goTo tid (.readDst (s.pmemcpy.length / n)))
  | .readDst chunkSize => some (s.goTo tid (.readZeros chunkSize (s.pmemcpy.dst + tid * chunkSize)))
  | .readZeros chunkSize dst =>
      some (s.goTo tid (if s.pmemcpy.writeZeros then .copying chunkSize dst none 0
        else .readSrc chunkSize dst))
  | .readSrc chunkSize dst =>
      some (s.goTo tid (.copying chunkSize dst (some (s.pmemcpy.src + tid * chunkSize)) 0))
  | .copying chunkSize dst src i =>
      if i < chunkSize then
        some ({ s with mem := Function.update s.mem (dst + i) (s.source src i) }.goTo tid
          (.copying chunkSize dst src (i + 1)))
      else some (s.goTo tid .finish)
  | .finish => some ((s.arrive (some tid)).goTo tid .finishing)
  | .finishing => (s.leave (some tid)).map fun s => s.goTo tid .start

/-- `arms_parallel_memcpy` and `arms_parallel_memset`, inside of the lock -/
def callerStep : Option (State n) :=
  s.call.bind fun (job, pc) =>
    match pc with
    | .storing (store :: rest) =>
        some { s with pmemcpy := s.pmemcpy.store store, call := some (job, .storing rest) }
    | .storing [] => some { s.arrive none with call := some (job, .starting) }
    | .starting => (s.leave none).map fun s => { s with call := some (job, .finish) }
    | .finish => some { s.arrive none with call := some (job, .finishing) }
    | .finishing => (s.leave none).map fun s => { s with call := some (job, .unlock) }
    | .unlock => some { s with call := none }

def step : Action n → Option (State n)
  | .lock job =>
      if s.call = none ∧ job.Apart n then some { s with call := some (job, .storing job.stores) }
      else none
  | .caller => s.callerStep
  | .thread tid => s.threadStep tid

/-- A call returns when its caller unlocks. -/
def observe : Action n → Option Job
  | .caller =>
      match s.call with
      | some (job, .unlock) => some job
      | _ => none
  | _ => none

/-- The threads have been created, and nobody has called yet. -/
def initial (mem : ℕ → UInt8) (pmemcpy : Pmemcpy) : State n where
  mem := mem
  pmemcpy := pmemcpy
  barrier := fun _ => .away
  threads := fun _ => .start
  call := none

end State

/-- What a job copies to the offset `i`. -/
def Job.byte (job : Job) (m : ℕ → UInt8) (i : ℕ) : UInt8 :=
  match job.src with
  | some src => m (src + i)
  | none => 0

/-- A plain copy of all chunks. -/
def Job.result (n : ℕ) (job : Job) (m : ℕ → UInt8) : ℕ → UInt8 := fun a =>
  if job.dst ≤ a ∧ a < job.dst + n * job.chunk n then job.byte m (a - job.dst) else m a

def copyStep (n : ℕ) (m : ℕ → UInt8) (job : Job) : Option (ℕ → UInt8) := some (job.result n m)

/-- `memcpy` or `memset` by a single thread. -/
def Job.memcpy (job : Job) (m : ℕ → UInt8) : ℕ → UInt8 := fun a =>
  if job.dst ≤ a ∧ a < job.dst + job.length then job.byte m (a - job.dst) else m a

/-- Nothing is left at the end if the number of threads divides the length, as it does for pages. -/
theorem Job.result_eq_memcpy {n : ℕ} {job : Job} (hdvd : n ∣ job.length) (m : ℕ → UInt8) :
    job.result n m = job.memcpy m := by
  have hall : n * job.chunk n = job.length := Nat.mul_div_cancel' hdvd
  unfold result memcpy
  rw [hall]

/-! ## Two phases -/

/-- The shared variables describe the job. -/
def Pmemcpy.Holds (p : Pmemcpy) (job : Job) : Prop :=
  p.dst = job.dst ∧ p.length = job.length ∧ p.writeZeros = job.src.isNone ∧
    ∀ src ∈ job.src, p.src = src

/-- A copy thread between two jobs. -/
def ThreadPc.Idle (status : BarrierStatus) : ThreadPc → Prop
  | .start => status = .away
  | .starting => status = .waiting
  | .finishing => status = .released
  | _ => False

/-- A copy thread during a job. -/
def ThreadPc.Busy (n : ℕ) (job : Job) (tid : ℕ) (status : BarrierStatus) : ThreadPc → Prop
  | .start => False
  | .starting => status = .released
  | .readLength => status = .away
  | .readDst c => status = .away ∧ c = job.chunk n
  | .readZeros c d => status = .away ∧ c = job.chunk n ∧ d = job.dst + tid * job.chunk n
  | .readSrc c d =>
      status = .away ∧ c = job.chunk n ∧ d = job.dst + tid * job.chunk n ∧ job.src.isSome
  | .copying c d src i =>
      status = .away ∧ c = job.chunk n ∧ d = job.dst + tid * job.chunk n ∧
        src = job.src.map (· + tid * job.chunk n) ∧ i ≤ job.chunk n
  | .finish => status = .away
  | .finishing => status = .waiting

/-- The bytes of its chunk that a thread has copied. -/
def ThreadPc.progress (chunk : ℕ) : ThreadPc → ℕ
  | .copying _ _ _ i => i
  | .finish | .finishing => chunk
  | _ => 0

def CallerPc.Busy (status : BarrierStatus) : CallerPc → Prop
  | .starting => status = .released
  | .finish => status = .away
  | .finishing => status = .waiting
  | _ => False

namespace State

variable {n : ℕ}

/-- The caller between two jobs, and the memory `mem` then. -/
def CallerIdle (n : ℕ) (mem : ℕ → UInt8) (p : Pmemcpy) (m : ℕ → UInt8) (status : BarrierStatus) :
    Option (Job × CallerPc) → Prop
  | none => status = .away ∧ mem = m
  | some (job, .storing rest) =>
      status = .away ∧ (rest.foldl Pmemcpy.store p).Holds job ∧ mem = m
  | some (job, .starting) => status = .waiting ∧ p.Holds job ∧ mem = m
  | some (_, .finish) => False
  | some (job, .finishing) => status = .released ∧ mem = job.result n m
  | some (job, .unlock) => status = .away ∧ mem = job.result n m

structure Idle (s : State n) (m : ℕ → UInt8) : Prop where
  threads : ∀ tid, (s.threads tid).Idle (s.barrier (some tid))
  caller : CallerIdle n s.mem s.pmemcpy m (s.barrier none) s.call

/-- During a job every thread has copied a part of its chunk. -/
structure Busy (s : State n) (m : ℕ → UInt8) (job : Job) : Prop where
  threads : ∀ tid, (s.threads tid).Busy n job tid (s.barrier (some tid))
  caller : ∃ pc, s.call = some (job, pc) ∧ pc.Busy (s.barrier none)
  holds : s.pmemcpy.Holds job
  inside : ∀ (tid : Fin n) (j : ℕ), j < job.chunk n →
    s.mem (job.dst + (tid * job.chunk n + j)) =
      if j < (s.threads tid).progress (job.chunk n) then job.byte m (tid * job.chunk n + j)
      else m (job.dst + (tid * job.chunk n + j))
  outside : ∀ a, ¬ (job.dst ≤ a ∧ a < job.dst + n * job.chunk n) → s.mem a = m a

/-- The memory that the users of `struct pmemcpy` see. -/
structure Refines (s : State n) (m : ℕ → UInt8) : Prop where
  isOpen : Open s.barrier
  apart : ∀ job pc, s.call = some (job, pc) → job.Apart n
  phase : s.Idle m ∨ ∃ job, s.Busy m job

variable {s s' : State n} {m : ℕ → UInt8} {job : Job} {tid : Fin n} {pc : ThreadPc}

theorem holds_stores (p : Pmemcpy) (job : Job) :
    (job.stores.foldl Pmemcpy.store p).Holds job := by
  rcases job with ⟨dst, src | src, length⟩
  · exact ⟨rfl, rfl, rfl, nofun⟩
  · exact ⟨rfl, rfl, rfl, fun _ h => Option.some.inj h⟩

/-- One thread moves on, with its status at the barrier. -/
theorem forall_goTo {P : Fin n → ThreadPc → BarrierStatus → Prop} {pcs : Fin n → ThreadPc}
    {b : Option (Fin n) → BarrierStatus} {status : BarrierStatus}
    (hall : ∀ tid, P tid (pcs tid) (b (some tid))) (hpc : P tid pc status) (other : Fin n) :
    P other (Function.update pcs tid pc other) (Function.update b (some tid) status (some other)) := by
  by_cases hsame : other = tid
  · subst hsame
    rwa [Function.update_self, Function.update_self]
  · rw [Function.update_of_ne hsame, Function.update_of_ne fun h => hsame (Option.some.inj h)]
    exact hall other

/-- All parties have come to the first wait. -/
theorem busy_of_released (hbarrier : ∀ p, s.barrier p = .released)
    (hthreads : ∀ tid, s.threads tid = .starting) (hcall : s.call = some (job, .starting))
    (hholds : s.pmemcpy.Holds job) (hmem : s.mem = m) : s.Busy m job where
  threads := fun tid => by
    rw [hthreads]
    exact hbarrier _
  caller := ⟨.starting, hcall, hbarrier none⟩
  holds := hholds
  inside := fun tid j _ => by
    have hnone : ThreadPc.starting.progress (job.chunk n) = 0 := rfl
    rw [hthreads, hmem, hnone, if_neg (Nat.not_lt_zero j)]
  outside := fun _ _ => by rw [hmem]

/-- Every offset of a job lies in one chunk. -/
theorem exists_chunk {k : ℕ} (hk : k < n * job.chunk n) :
    ∃ (tid : Fin n) (j : ℕ), j < job.chunk n ∧ k = tid * job.chunk n + j := by
  have hpos : 0 < job.chunk n := Nat.pos_of_mul_pos_left (Nat.zero_lt_of_lt hk)
  refine ⟨⟨k / job.chunk n, Nat.div_lt_of_lt_mul (by rwa [Nat.mul_comm])⟩, k % job.chunk n,
    Nat.mod_lt _ hpos, ?_⟩
  rw [Nat.mul_comm, Nat.div_add_mod]

/-- All chunks are copied when all have come to the second wait. -/
theorem Busy.mem_eq (hbusy : s.Busy m job)
    (hdone : ∀ tid, (s.threads tid).progress (job.chunk n) = job.chunk n) :
    s.mem = job.result n m := by
  funext a
  by_cases hin : job.dst ≤ a ∧ a < job.dst + n * job.chunk n
  · obtain ⟨tid, j, hj, hk⟩ := exists_chunk (n := n) (k := a - job.dst) (show _ < n * job.chunk n by omega)
    have ha : a = job.dst + (tid * job.chunk n + j) := by omega
    rw [Job.result, if_pos hin, hk, ha, hbusy.inside tid j hj, hdone, if_pos hj]
  · rw [Job.result, if_neg hin, hbusy.outside a hin]

/-- Between two jobs, only the caller of one can wait. -/
theorem Idle.call_of_waiting (hidle : s.Idle m) (hwaiting : s.barrier none = .waiting) :
    ∃ job, s.call = some (job, .starting) ∧ s.pmemcpy.Holds job ∧ s.mem = m := by
  have hcaller := hidle.caller
  rw [hwaiting] at hcaller
  generalize s.call = call at hcaller
  match call, hcaller with
  | some (job, .starting), hcaller => exact ⟨job, rfl, hcaller.2⟩

theorem Idle.thread_of_waiting (hidle : s.Idle m) (hwaiting : s.barrier (some tid) = .waiting) :
    s.threads tid = .starting := by
  have hthread := hidle.threads tid
  rw [hwaiting] at hthread
  generalize s.threads tid = pc at hthread
  match pc, hthread with
  | .starting, _ => rfl

theorem Busy.thread_of_waiting (hbusy : s.Busy m job) (hwaiting : s.barrier (some tid) = .waiting) :
    s.threads tid = .finishing := by
  have hthread := hbusy.threads tid
  rw [hwaiting] at hthread
  generalize s.threads tid = pc at hthread
  match pc, hthread with
  | .finishing, _ => rfl

theorem Busy.call_of_waiting (hbusy : s.Busy m job) (hwaiting : s.barrier none = .waiting) :
    s.call = some (job, .finishing) := by
  obtain ⟨pc, hcall, hpc⟩ := hbusy.caller
  rw [hwaiting] at hpc
  match pc, hpc, hcall with
  | .finishing, _, hcall => exact hcall

/-- A step of a thread between two jobs, by its effect on the barrier. -/
theorem Idle.goTo (hidle : s.Idle m) {barrier : Option (Fin n) → BarrierStatus}
    {status : BarrierStatus} (hbarrier : barrier = Function.update s.barrier (some tid) status)
    (hpc : pc.Idle status) : (({ s with barrier := barrier } : State n).goTo tid pc).Idle m where
  threads := by
    subst hbarrier
    exact forall_goTo (P := fun _ pc status => pc.Idle status) hidle.threads hpc
  caller := by
    have hnone : barrier none = s.barrier none := by
      rw [hbarrier, Function.update_of_ne (Option.some_ne_none tid).symm]
    change CallerIdle n s.mem s.pmemcpy m (barrier none) s.call
    rw [hnone]
    exact hidle.caller

/-- A copy thread comes to the first wait. -/
theorem Idle.arriveThread (hidle : s.Idle m) :
    ((s.arrive (some tid)).goTo tid .starting).Idle m ∨
      ∃ job, ((s.arrive (some tid)).goTo tid .starting).Busy m job := by
  rcases arrive_cases s.barrier (some tid) with ⟨_, heq⟩ | ⟨hothers, heq⟩
  · exact .inl (hidle.goTo heq rfl)
  · obtain ⟨job, hcall, hholds, hmem⟩ :=
      hidle.call_of_waiting (hothers none (Option.some_ne_none tid).symm)
    refine .inr ⟨job, busy_of_released (fun p => congrFun heq p) (fun other => ?_) hcall hholds hmem⟩
    by_cases hsame : other = tid
    · subst hsame
      exact Function.update_self _ _ _
    · exact (Function.update_of_ne hsame _ _).trans
        (hidle.thread_of_waiting (hothers _ fun h => hsame (Option.some.inj h)))

/-- A step of the caller between two jobs. -/
theorem Idle.callerGoTo (hidle : s.Idle m) {barrier : Option (Fin n) → BarrierStatus}
    {status : BarrierStatus} {p : Pmemcpy} {call : Option (Job × CallerPc)}
    {m' : ℕ → UInt8} (hbarrier : barrier = Function.update s.barrier none status)
    (hcaller : CallerIdle n s.mem p m' status call) :
    ({ s with pmemcpy := p, barrier := barrier, call := call } : State n).Idle m' where
  threads := fun tid => by
    have hthread : barrier (some tid) = s.barrier (some tid) := by
      rw [hbarrier, Function.update_of_ne (Option.some_ne_none tid)]
    change (s.threads tid).Idle (barrier (some tid))
    rw [hthread]
    exact hidle.threads tid
  caller := by
    change CallerIdle n s.mem p m' (barrier none) call
    rwa [hbarrier, Function.update_self]

/-- The caller comes to the first wait. -/
theorem Idle.arriveCaller (hidle : s.Idle m) (hcall : s.call = some (job, .storing [])) :
    ({ s.arrive none with call := some (job, .starting) } : State n).Idle m ∨
      ∃ job', ({ s.arrive none with call := some (job, .starting) } : State n).Busy m job' := by
  have hcaller := hidle.caller
  rw [hcall] at hcaller
  obtain ⟨_, hholds, hmem⟩ := hcaller
  rcases arrive_cases s.barrier none with ⟨_, heq⟩ | ⟨hothers, heq⟩
  · exact .inl (hidle.callerGoTo heq ⟨rfl, hholds, hmem⟩)
  · exact .inr ⟨job, busy_of_released (fun p => congrFun heq p)
      (fun tid => hidle.thread_of_waiting (hothers _ (Option.some_ne_none tid))) rfl hholds hmem⟩

/-- All parties have come to the second wait. -/
theorem idle_of_released (hbarrier : ∀ p, s.barrier p = .released)
    (hthreads : ∀ tid, s.threads tid = .finishing) (hcall : s.call = some (job, .finishing))
    (hmem : s.mem = job.result n m) : s.Idle m where
  threads := fun tid => by
    rw [hthreads]
    exact hbarrier _
  caller := by
    rw [hcall]
    exact ⟨hbarrier none, hmem⟩

/-- A step of a thread during a job, by its effect on the barrier. -/
theorem Busy.goTo (hbusy : s.Busy m job) {barrier : Option (Fin n) → BarrierStatus}
    {status : BarrierStatus} (hbarrier : barrier = Function.update s.barrier (some tid) status)
    (hpc : pc.Busy n job tid status)
    (hprogress : pc.progress (job.chunk n) = (s.threads tid).progress (job.chunk n)) :
    (({ s with barrier := barrier } : State n).goTo tid pc).Busy m job where
  threads := by
    subst hbarrier
    exact forall_goTo (P := fun tid pc status => pc.Busy n job tid status) hbusy.threads hpc
  caller := by
    obtain ⟨callerPc, hcall, hcaller⟩ := hbusy.caller
    have hnone : barrier none = s.barrier none := by
      rw [hbarrier, Function.update_of_ne (Option.some_ne_none tid).symm]
    refine ⟨callerPc, hcall, ?_⟩
    change callerPc.Busy (barrier none)
    rwa [hnone]
  holds := hbusy.holds
  inside := fun other j hj => by
    have hsame : (Function.update s.threads tid pc other).progress (job.chunk n) =
        (s.threads other).progress (job.chunk n) := by
      by_cases hsame : other = tid
      · subst hsame
        rw [Function.update_self, hprogress]
      · rw [Function.update_of_ne hsame]
    refine (hbusy.inside other j hj).trans ?_
    rw [← hsame]
    rfl
  outside := hbusy.outside

/-- Offsets in different chunks are different. -/
theorem chunk_unique {other : Fin n} {i j : ℕ} (hi : i < job.chunk n) (hj : j < job.chunk n)
    (heq : (other * job.chunk n + j : ℕ) = tid * job.chunk n + i) : other = tid ∧ j = i := by
  have hdiv : ∀ (t : Fin n) (k : ℕ), k < job.chunk n → (t * job.chunk n + k) / job.chunk n = t := by
    intro t k hk
    rw [Nat.mul_comm, Nat.mul_add_div (Nat.zero_lt_of_lt hk), Nat.div_eq_of_lt hk, Nat.add_zero]
  have hsame : other = tid := by
    rw [← Fin.val_inj, ← hdiv other j hj, heq, hdiv tid i hi]
  subst hsame
  exact ⟨rfl, Nat.add_left_cancel heq⟩

/-- The source of a job is not overwritten while it is copied. -/
theorem Busy.source_eq (hbusy : s.Busy m job) (hapart : job.Apart n) {i : ℕ} (hi : i < job.chunk n) :
    s.source (job.src.map (· + tid * job.chunk n)) i = job.byte m (tid * job.chunk n + i) := by
  have hinside : tid * job.chunk n + i < n * job.chunk n := by
    have hle : (tid + 1) * job.chunk n ≤ n * job.chunk n := Nat.mul_le_mul_right _ tid.isLt
    rw [Nat.succ_mul] at hle
    omega
  unfold source Job.byte
  cases hsrc : job.src with
  | none => rfl
  | some src =>
      have hside := hapart src hsrc
      change s.mem (src + tid * job.chunk n + i) = m (src + (tid * job.chunk n + i))
      rw [Nat.add_assoc, hbusy.outside _ (by omega)]

/-- One byte is copied. -/
theorem Busy.copy (hbusy : s.Busy m job) (hapart : job.Apart n) {i : ℕ} {src : Option ℕ}
    (hpc : s.threads tid = .copying (job.chunk n) (job.dst + tid * job.chunk n) src i)
    (hsrc : src = job.src.map (· + tid * job.chunk n)) (hi : i < job.chunk n)
    (haway : s.barrier (some tid) = .away) :
    (({ s with mem := Function.update s.mem (job.dst + tid * job.chunk n + i) (s.source src i) } :
      State n).goTo tid (.copying (job.chunk n) (job.dst + tid * job.chunk n) src (i + 1))).Busy
        m job where
  threads := by
    have hnext : ThreadPc.Busy n job tid .away
        (.copying (job.chunk n) (job.dst + tid * job.chunk n) src (i + 1)) :=
      ⟨rfl, rfl, rfl, hsrc, hi⟩
    have hall := forall_goTo (P := fun tid pc status => pc.Busy n job tid status) hbusy.threads hnext
    rwa [← haway, Function.update_eq_self] at hall
  caller := hbusy.caller
  holds := hbusy.holds
  inside := fun other j hj => by
    change Function.update s.mem (job.dst + tid * job.chunk n + i) (s.source src i) _ =
      if j < ThreadPc.progress _ (Function.update s.threads tid _ other) then _ else _
    by_cases hsame : other = tid
    · subst hsame
      rw [Function.update_self, ThreadPc.progress]
      rcases eq_or_ne j i with rfl | hne
      · rw [if_pos (Nat.lt_succ_self j), ← Nat.add_assoc, Function.update_self, hsrc,
          hbusy.source_eq hapart hi]
      · have hold := hbusy.inside other j hj
        rw [hpc, ThreadPc.progress] at hold
        have hiff : j < i + 1 ↔ j < i := by omega
        rw [Function.update_of_ne (by omega), hold]
        simp only [hiff]
    · rw [Function.update_of_ne hsame, Function.update_of_ne, hbusy.inside other j hj]
      intro haddress
      exact hsame (chunk_unique hi hj (by omega)).1
  outside := fun a ha => by
    have hinside : tid * job.chunk n + i < n * job.chunk n := by
      have hle : (tid + 1) * job.chunk n ≤ n * job.chunk n := Nat.mul_le_mul_right _ tid.isLt
      rw [Nat.succ_mul] at hle
      omega
    exact (Function.update_of_ne (by omega) _ _).trans (hbusy.outside a ha)

/-- A copy thread comes to the second wait. -/
theorem Busy.arriveThread (hbusy : s.Busy m job) (hpc : s.threads tid = .finish) :
    ((s.arrive (some tid)).goTo tid .finishing).Idle m ∨
      ((s.arrive (some tid)).goTo tid .finishing).Busy m job := by
  have hprogress : ThreadPc.finishing.progress (job.chunk n) =
      (s.threads tid).progress (job.chunk n) := by
    rw [hpc]
    rfl
  rcases arrive_cases s.barrier (some tid) with ⟨_, heq⟩ | ⟨hothers, heq⟩
  · exact .inr (hbusy.goTo heq rfl hprogress)
  · have hothersPc : ∀ other, other ≠ tid → s.threads other = .finishing := fun other hne =>
      hbusy.thread_of_waiting (hothers _ fun h => hne (Option.some.inj h))
    refine .inl (idle_of_released (fun p => congrFun heq p) (fun other => ?_)
      (hbusy.call_of_waiting (hothers none (Option.some_ne_none tid).symm)) (hbusy.mem_eq fun other => ?_))
    · by_cases hsame : other = tid
      · subst hsame
        exact Function.update_self _ _ _
      · exact (Function.update_of_ne hsame _ _).trans (hothersPc other hsame)
    · by_cases hsame : other = tid
      · rw [hsame, hpc]
        rfl
      · rw [hothersPc other hsame]
        rfl

/-- A step of the caller during a job. -/
theorem Busy.callerGoTo (hbusy : s.Busy m job) {barrier : Option (Fin n) → BarrierStatus}
    {status : BarrierStatus} {callerPc : CallerPc}
    (hbarrier : barrier = Function.update s.barrier none status) (hpc : callerPc.Busy status) :
    ({ s with barrier := barrier, call := some (job, callerPc) } : State n).Busy m job where
  threads := fun tid => by
    have hthread : barrier (some tid) = s.barrier (some tid) := by
      rw [hbarrier, Function.update_of_ne (Option.some_ne_none tid)]
    change (s.threads tid).Busy n job tid (barrier (some tid))
    rw [hthread]
    exact hbusy.threads tid
  caller := by
    refine ⟨callerPc, rfl, ?_⟩
    change callerPc.Busy (barrier none)
    rwa [hbarrier, Function.update_self]
  holds := hbusy.holds
  inside := hbusy.inside
  outside := hbusy.outside

/-- The caller comes to the second wait. -/
theorem Busy.arriveCaller (hbusy : s.Busy m job) :
    ({ s.arrive none with call := some (job, .finishing) } : State n).Idle m ∨
      ({ s.arrive none with call := some (job, .finishing) } : State n).Busy m job := by
  rcases arrive_cases s.barrier none with ⟨_, heq⟩ | ⟨hothers, heq⟩
  · exact .inr (hbusy.callerGoTo heq rfl)
  · have hpcs : ∀ tid, s.threads tid = .finishing := fun tid =>
      hbusy.thread_of_waiting (hothers _ (Option.some_ne_none tid))
    refine .inl (idle_of_released (fun p => congrFun heq p) hpcs rfl (hbusy.mem_eq fun tid => ?_))
    rw [hpcs]
    rfl

/-! ## Steps -/

theorem leave_eq_some {p : Option (Fin n)} :
    s.leave p = some s' ↔
      s.barrier p = .released ∧ { s with barrier := Function.update s.barrier p .away } = s' := by
  simp only [leave, Option.map_eq_some_iff, Barrier.leave_eq_some]
  constructor
  · rintro ⟨_, ⟨hreleased, rfl⟩, rfl⟩
    exact ⟨hreleased, rfl⟩
  · rintro ⟨hreleased, rfl⟩
    exact ⟨_, ⟨hreleased, rfl⟩, rfl⟩

theorem Idle.threadStep (hidle : s.Idle m) (hstep : s.threadStep tid = some s') :
    s'.Idle m ∨ ∃ job, s'.Busy m job := by
  have hthread := hidle.threads tid
  unfold State.threadStep at hstep
  cases hpc : s.threads tid with
  | start =>
      rw [hpc] at hstep
      obtain rfl := Option.some.inj hstep
      exact hidle.arriveThread
  | starting =>
      rw [hpc] at hstep hthread
      obtain ⟨left, hleave, rfl⟩ := Option.map_eq_some_iff.mp hstep
      exact absurd ((leave_eq_some.mp hleave).1.symm.trans hthread) (by decide)
  | finishing =>
      rw [hpc] at hstep
      obtain ⟨left, hleave, rfl⟩ := Option.map_eq_some_iff.mp hstep
      obtain ⟨_, rfl⟩ := leave_eq_some.mp hleave
      exact .inl (hidle.goTo rfl rfl)
  | _ =>
      rw [hpc] at hthread
      exact hthread.elim

theorem Busy.threadStep (hbusy : s.Busy m job) (hapart : job.Apart n)
    (hstep : s.threadStep tid = some s') : s'.Idle m ∨ s'.Busy m job := by
  have hthread := hbusy.threads tid
  have hsame := (Function.update_eq_self (some tid) s.barrier).symm
  obtain ⟨hdst, hlength, hzeros, hsrc⟩ := hbusy.holds
  unfold State.threadStep at hstep
  cases hpc : s.threads tid with
  | start =>
      rw [hpc] at hthread
      exact hthread.elim
  | starting =>
      rw [hpc] at hstep
      obtain ⟨left, hleave, rfl⟩ := Option.map_eq_some_iff.mp hstep
      obtain ⟨_, rfl⟩ := leave_eq_some.mp hleave
      exact .inr (hbusy.goTo rfl rfl (by rw [hpc]; rfl))
  | readLength =>
      rw [hpc] at hstep hthread
      obtain rfl := Option.some.inj hstep
      exact .inr (hbusy.goTo hsame ⟨hthread, by rw [hlength]; rfl⟩ (by rw [hpc]; rfl))
  | readDst c =>
      rw [hpc] at hstep hthread
      obtain ⟨haway, rfl⟩ := hthread
      obtain rfl := Option.some.inj hstep
      exact .inr (hbusy.goTo hsame ⟨haway, rfl, by rw [hdst]⟩ (by rw [hpc]; rfl))
  | readZeros c d =>
      rw [hpc] at hstep hthread
      obtain ⟨haway, rfl, rfl⟩ := hthread
      obtain rfl := Option.some.inj hstep
      rw [hzeros]
      cases hjob : job.src with
      | none =>
          refine .inr (hbusy.goTo hsame ⟨haway, rfl, rfl, ?_, Nat.zero_le _⟩ (by rw [hpc]; rfl))
          rw [hjob]
          rfl
      | some src =>
          exact .inr (hbusy.goTo hsame ⟨haway, rfl, rfl, by rw [hjob]; rfl⟩ (by rw [hpc]; rfl))
  | readSrc c d =>
      rw [hpc] at hstep hthread
      obtain ⟨haway, rfl, rfl, hsome⟩ := hthread
      obtain ⟨src, hjob⟩ := Option.isSome_iff_exists.mp hsome
      obtain rfl := Option.some.inj hstep
      refine .inr (hbusy.goTo hsame ⟨haway, rfl, rfl, ?_, Nat.zero_le _⟩ (by rw [hpc]; rfl))
      rw [hjob, Option.map_some, hsrc src hjob]
  | copying c d src i =>
      rw [hpc] at hstep hthread
      obtain ⟨haway, rfl, rfl, hjob, hi⟩ := hthread
      dsimp only at hstep
      split_ifs at hstep with hlt
      · obtain rfl := Option.some.inj hstep
        exact .inr (hbusy.copy hapart hpc hjob hlt haway)
      · obtain rfl := Option.some.inj hstep
        have hdone : i = job.chunk n := by omega
        exact .inr (hbusy.goTo hsame haway (by rw [hpc, hdone]; rfl))
  | finish =>
      rw [hpc] at hstep
      obtain rfl := Option.some.inj hstep
      exact hbusy.arriveThread hpc
  | finishing =>
      rw [hpc] at hstep hthread
      obtain ⟨left, hleave, rfl⟩ := Option.map_eq_some_iff.mp hstep
      exact absurd ((leave_eq_some.mp hleave).1.symm.trans hthread) (by decide)

/-- A copy thread leaves the call alone, and nobody is left waiting for nothing. -/
theorem threadStep_frame (hopen : Open s.barrier) (hstep : s.threadStep tid = some s') :
    s'.call = s.call ∧ Open s'.barrier := by
  unfold State.threadStep at hstep
  cases hpc : s.threads tid <;> rw [hpc] at hstep
  case start | finish =>
    obtain rfl := Option.some.inj hstep
    exact ⟨rfl, open_arrive _ _⟩
  case starting | finishing =>
    obtain ⟨left, hleave, rfl⟩ := Option.map_eq_some_iff.mp hstep
    obtain ⟨_, rfl⟩ := leave_eq_some.mp hleave
    exact ⟨rfl, some tid, by simp [State.goTo]⟩
  case copying =>
    dsimp only at hstep
    split_ifs at hstep <;> obtain rfl := Option.some.inj hstep <;> exact ⟨rfl, hopen⟩
  all_goals
    obtain rfl := Option.some.inj hstep
    exact ⟨rfl, hopen⟩

theorem Refines.threadStep (href : s.Refines m) (hstep : s.threadStep tid = some s') :
    s'.Refines m := by
  obtain ⟨hcall, hopen⟩ := threadStep_frame href.isOpen hstep
  refine ⟨hopen, by rw [hcall]; exact href.apart, ?_⟩
  rcases href.phase with hidle | ⟨job, hbusy⟩
  · exact hidle.threadStep hstep
  · obtain ⟨pc, hcall, _⟩ := hbusy.caller
    rcases hbusy.threadStep (href.apart job pc hcall) hstep with hidle | hbusy
    · exact .inl hidle
    · exact .inr ⟨job, hbusy⟩

/-- During a job its caller holds the lock. -/
theorem Refines.phase_of_call (href : s.Refines m) {callerPc : CallerPc}
    (hcall : s.call = some (job, callerPc)) :
    (s.Idle m ∧ CallerIdle n s.mem s.pmemcpy m (s.barrier none) (some (job, callerPc))) ∨
      (s.Busy m job ∧ callerPc.Busy (s.barrier none)) := by
  rcases href.phase with hidle | ⟨job', hbusy⟩
  · refine .inl ⟨hidle, ?_⟩
    rw [← hcall]
    exact hidle.caller
  · obtain ⟨pc, hcall', hpc⟩ := hbusy.caller
    obtain ⟨rfl, rfl⟩ := Prod.mk.inj (Option.some.inj (hcall.symm.trans hcall'))
    exact .inr ⟨hbusy, hpc⟩

/-- The memory that is seen after a step of the caller. -/
def seen (s : State n) (m : ℕ → UInt8) : ℕ → UInt8 :=
  match s.call with
  | some (job, .unlock) => job.result n m
  | _ => m

theorem Refines.callerStep (href : s.Refines m) (hstep : s.callerStep = some s') :
    s'.Refines (s.seen m) := by
  obtain ⟨⟨job, callerPc⟩, hcall, hstep⟩ := Option.bind_eq_some_iff.mp hstep
  have hsame := (Function.update_eq_self none s.barrier).symm
  have hapart : ∀ (pc : CallerPc) (job' : Job) (pc' : CallerPc), some (job, pc) = some (job', pc') →
      job'.Apart n := by
    intro pc job' pc' heq
    obtain ⟨rfl, rfl⟩ := Prod.mk.inj (Option.some.inj heq)
    exact href.apart job callerPc hcall
  have hphase := href.phase_of_call hcall
  unfold seen
  rw [hcall]
  match callerPc, hstep, hphase, hcall with
  | .storing (store :: rest), hstep, hphase, _ =>
      obtain rfl := Option.some.inj hstep
      rcases hphase with ⟨hidle, hcaller⟩ | ⟨_, hpc⟩
      · exact ⟨href.isOpen, hapart _, .inl (hidle.callerGoTo hsame hcaller)⟩
      · exact hpc.elim
  | .storing [], hstep, hphase, hcall =>
      obtain rfl := Option.some.inj hstep
      rcases hphase with ⟨hidle, _⟩ | ⟨_, hpc⟩
      · exact ⟨open_arrive _ _, hapart _, hidle.arriveCaller hcall⟩
      · exact hpc.elim
  | .starting, hstep, hphase, _ =>
      obtain ⟨left, hleave, rfl⟩ := Option.map_eq_some_iff.mp hstep
      obtain ⟨hreleased, rfl⟩ := leave_eq_some.mp hleave
      rcases hphase with ⟨_, hcaller⟩ | ⟨hbusy, _⟩
      · exact absurd (hreleased.symm.trans hcaller.1) (by decide)
      · exact ⟨⟨none, by simp⟩, hapart _, .inr ⟨job, hbusy.callerGoTo rfl rfl⟩⟩
  | .finish, hstep, hphase, _ =>
      obtain rfl := Option.some.inj hstep
      rcases hphase with ⟨_, hcaller⟩ | ⟨hbusy, _⟩
      · exact hcaller.elim
      · refine ⟨open_arrive _ _, hapart _, ?_⟩
        rcases hbusy.arriveCaller with hidle | hbusy
        · exact .inl hidle
        · exact .inr ⟨job, hbusy⟩
  | .finishing, hstep, hphase, _ =>
      obtain ⟨left, hleave, rfl⟩ := Option.map_eq_some_iff.mp hstep
      obtain ⟨hreleased, rfl⟩ := leave_eq_some.mp hleave
      rcases hphase with ⟨hidle, hcaller⟩ | ⟨_, hpc⟩
      · exact ⟨⟨none, by simp⟩, hapart _, .inl (hidle.callerGoTo rfl ⟨rfl, hcaller.2⟩)⟩
      · exact absurd (hreleased.symm.trans hpc) (by decide)
  | .unlock, hstep, hphase, _ =>
      obtain rfl := Option.some.inj hstep
      rcases hphase with ⟨hidle, haway, hmem⟩ | ⟨_, hpc⟩
      · refine ⟨href.isOpen, nofun, .inl (hidle.callerGoTo hsame ⟨haway, hmem⟩)⟩
      · exact hpc.elim

theorem Refines.lock (href : s.Refines m) (hcall : s.call = none) (hapart : job.Apart n) :
    ({ s with call := some (job, .storing job.stores) } : State n).Refines m := by
  refine ⟨href.isOpen, fun job' pc heq => ?_, ?_⟩
  · obtain ⟨rfl, rfl⟩ := Prod.mk.inj (Option.some.inj heq)
    exact hapart
  · rcases href.phase with hidle | ⟨job', hbusy⟩
    · have hcaller := hidle.caller
      rw [hcall] at hcaller
      exact .inl (hidle.callerGoTo (Function.update_eq_self none s.barrier).symm
        ⟨hcaller.1, holds_stores s.pmemcpy job, hcaller.2⟩)
    · obtain ⟨pc, hcall', _⟩ := hbusy.caller
      exact absurd (hcall.symm.trans hcall') nofun

theorem call_of_observe (hobserve : s.observe .caller = some job) :
    s.call = some (job, .unlock) := by
  unfold observe at hobserve
  generalize s.call = call at hobserve
  match call, hobserve with
  | some (job', .unlock), hobserve => rw [Option.some.inj hobserve]

theorem parallelCopy_simulates (n : ℕ) :
    ForwardSimulation (step (n := n)) observe (copyStep n) Refines where
  silent := by
    intro s action s' m href hstep hobserve
    cases action with
    | lock job =>
        obtain ⟨⟨hcall, hapart⟩, hstep⟩ := Option.ite_none_right_eq_some.mp hstep
        obtain rfl := Option.some.inj hstep
        exact href.lock hcall hapart
    | thread tid => exact href.threadStep hstep
    | caller =>
        have hseen : s.seen m = m := by
          unfold seen
          unfold observe at hobserve
          split <;> simp_all
        rw [← hseen]
        exact href.callerStep hstep
  visible := by
    intro s action s' m job href hstep hobserve
    cases action with
    | lock job => exact absurd hobserve nofun
    | thread tid => exact absurd hobserve nofun
    | caller =>
        have hseen : s.seen m = job.result n m := by
          rw [seen, call_of_observe hobserve]
        exact ⟨_, rfl, hseen ▸ href.callerStep hstep⟩

theorem refines_initial (mem : ℕ → UInt8) (p : Pmemcpy) : (initial (n := n) mem p).Refines mem :=
  ⟨⟨none, nofun⟩, nofun, .inl ⟨fun _ => rfl, rfl, rfl⟩⟩

end State

open State

/-- In every interleaving the calls take effect one after the other, each as a plain copy
of all chunks, and the memory between two calls is what they have left. -/
theorem parallel_copy_refines (n : ℕ) (mem : ℕ → UInt8) (p : Pmemcpy) (actions : List (Action n)) :
    ∃ m, run (copyStep n) mem (trace step observe (initial mem p) actions) = some m ∧
      ∀ s, run step (initial mem p) actions = some s → s.call = none → s.mem = m := by
  obtain ⟨m, haccepts, hfinal⟩ := (parallelCopy_simulates n).accepts (refines_initial mem p) actions
  refine ⟨m, haccepts, fun s hrun hcall => ?_⟩
  rcases (hfinal s hrun).phase with hidle | ⟨job, hbusy⟩
  · have hcaller := hidle.caller
    rw [hcall] at hcaller
    exact hcaller.2
  · obtain ⟨pc, hcall', _⟩ := hbusy.caller
    exact absurd (hcall.symm.trans hcall') nofun

end ArmsTiering.ParallelCopy
