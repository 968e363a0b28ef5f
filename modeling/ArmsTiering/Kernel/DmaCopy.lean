import ArmsTiering.Kernel.DmaChannels
import ArmsTiering.Kernel.PageWalk
import Mathlib.Algebra.BigOperators.Group.Finset.Basic
import Mathlib.Algebra.BigOperators.Intervals

/-!
# The copy routine

One call of `UFFDIO_DMA_COPY`, from the handler of the ioctl through
`__dma_mcopy_pages` and back.  The thread submits descriptors to the DMA engine,
which completes them in any order and at any time; each completion runs the
callback on the counter in the stack frame of the call.  Where the source would
crash, the machine does so explicitly.
-/

namespace ArmsTiering

def dmaBatch : ℕ := 32

/-- `struct uffdio_dma_copy`, without `mode`, which nothing reads, and `copy`,
which the handler only writes. -/
structure UffdioDmaCopy where
  dst : Fin dmaBatch → UInt64
  src : Fin dmaBatch → UInt64
  len : Fin dmaBatch → UInt64
  count : UInt64

structure DmaSegment where
  dst : ℕ
  src : ℕ
  len : ℕ

namespace UffdioDmaCopy

/-- The entries of the three arrays at an index, if it is inside them. -/
def segment (copy : UffdioDmaCopy) (index : ℕ) : Option DmaSegment :=
  if h : index < dmaBatch then
    some ⟨(copy.dst ⟨index, h⟩).toNat, (copy.src ⟨index, h⟩).toNat, (copy.len ⟨index, h⟩).toNat⟩
  else none

/-- `len[index]` -/
def lenAt (copy : UffdioDmaCopy) (index : ℕ) : ℕ := ((copy.segment index).map (·.len)).getD 0

end UffdioDmaCopy

/-- The error numbers of the handler and of the copy routine. -/
inductive Errno
  | esrch
  | eio
  | eagain
  | efault
  deriving DecidableEq, Repr

def Errno.toNat : Errno → ℕ
  | .esrch => 3
  | .eio => 5
  | .eagain => 11
  | .efault => 14

/-- What can crash the routine. -/
inductive Hazard
  | outOfBounds
  | divisionByZero
  | notAcquired
  | bugOn
  deriving DecidableEq, Repr

/-- A descriptor that the DMA engine has been given. -/
structure DmaDescriptor where
  chan : DmaChan
  dst : ℕ
  src : ℕ
  len : ℕ
  deriving DecidableEq, Repr

inductive DmaPc
  /-- in `userfaultfd_dma_copy` -/
  | handler
  /-- `__dma_mcopy_pages` has taken `mmap_lock` -/
  | start
  /-- at the test of the second loop -/
  | segment (index : ℕ)
  /-- at the test of the inner loop -/
  | transfer (index lenCur dstPhys srcPhys : ℕ)
  /-- in `wait_event_interruptible` -/
  | waiting
  /-- `__dma_mcopy_pages` has returned -/
  | returned (ret : ℤ)
  /-- the ioctl has returned -/
  | done (ret : ℤ)
  | crashed (hazard : Hazard)
  deriving DecidableEq, Repr

/-- What a call works on. -/
structure DmaCall where
  channels : DmaChannels
  base : PageTables
  copy : UffdioDmaCopy

structure DmaState where
  pc : DmaPc
  err : ℤ
  expectCount : ℕ
  /-- the `atomic_t` in the stack frame, as 32 bits -/
  wakeupCount : ℕ
  outstanding : List DmaDescriptor
  completed : List DmaDescriptor

def DmaState.initial : DmaState where
  pc := .handler
  err := -Errno.eagain.toNat
  expectCount := 0
  wakeupCount := 0
  outstanding := []
  completed := []

/-- Arithmetic on `u64`. -/
def wrap64 (x : ℕ) : ℕ := x % 2 ^ 64

/-- A `u64` assigned to a `long`. -/
def toLong (x : ℕ) : ℤ := if x < 2 ^ 63 then x else (x : ℤ) - 2 ^ 64

/-- The value of an `atomic_t`, converted to `u64`. -/
def atomicToU64 (x : ℕ) : ℕ := if x < 2 ^ 31 then x else x + (2 ^ 64 - 2 ^ 32)

namespace DmaCall

/-- `DIV_ROUND_UP(l, arms_size_per_dma_request)` -/
def divRoundUp (l size : ℕ) : ℕ := wrap64 (l + size - 1) / size

/-- The first loop, which counts the transactions; `left` rounds are to go. -/
def countTransactions (call : DmaCall) : ℕ → ℕ → ℕ → Except Hazard ℕ
  | 0, _, expectCount => .ok expectCount
  | left + 1, index, expectCount =>
      match call.copy.segment index with
      | none => .error .outOfBounds
      | some seg =>
          if call.channels.size = 0 then .error .divisionByZero
          else call.countTransactions left (index + 1)
            (wrap64 (expectCount + divRoundUp seg.len call.channels.size))

/-- The assertions on a segment. -/
def bugOn (seg : DmaSegment) : Prop :=
  seg.dst % kernelPageSize ≠ 0 ∨ seg.len % kernelPageSize ≠ 0 ∨
    wrap64 (seg.src + seg.len) ≤ seg.src ∨ wrap64 (seg.dst + seg.len) ≤ seg.dst

instance (seg : DmaSegment) : Decidable (bugOn seg) := by unfold bugOn; infer_instance

/-- `copied`, after the loop that adds up the lengths. -/
def copied (call : DmaCall) : ℤ :=
  toLong (wrap64 (∑ index ∈ Finset.range call.copy.count.toNat, call.copy.lenAt index))

/-- The code behind `out_unlock`. -/
def outUnlock (copied err : ℤ) : DmaPc :=
  if copied < 0 ∨ err > 0 ∨ (copied = 0 ∧ err = 0) then .crashed .bugOn
  else .returned (if copied ≠ 0 then copied else err)

/-- `arms_chans[index % arms_num_chans]`, and the access to that channel. -/
def chanAt (call : DmaCall) (index : ℕ) : Except Hazard DmaChan :=
  let g := call.channels
  if g.numChans = 0 then .error .divisionByZero
  else if armsMaxDmaChans ≤ index % g.numChans then .error .outOfBounds
  else match g.chans (index % g.numChans) with
    | some chan => if g.acquired chan then .ok chan else .error .notAcquired
    | none => .error .notAcquired

end DmaCall

/-- What `dmaengine_prep_dma_memcpy` and `dmaengine_submit` return. -/
inductive DmaOutcome
  | prepFails
  | submitFails
  | submitted
  deriving DecidableEq, Repr

inductive DmaAction
  /-- the handler returns before the copy routine is called -/
  | refuse (errno : Errno)
  | call
  /-- `mmap_changing` is set when the copy routine tests it -/
  | mmapChanging
  /-- the next step of the thread up to the end of the loops -/
  | advance
  /-- a round of the inner loop -/
  | transfer (outcome : DmaOutcome)
  /-- the DMA engine completes a descriptor and runs the callback -/
  | complete (k : ℕ)
  /-- the condition of the wait is true -/
  | wake
  /-- a signal interrupts the wait -/
  | signal
  /-- the handler returns; `put_user` may fail -/
  | finish (fault : Bool)
  deriving DecidableEq, Repr

namespace DmaCall

/-- The errors with which the handler refuses a call. -/
def refusals : List Errno := [.eagain, .efault, .esrch]

/-- The head of the second loop. -/
def enterSegment (call : DmaCall) (index : ℕ) : DmaPc :=
  if index < call.copy.count.toNat then
    match call.copy.segment index with
    | none => .crashed .outOfBounds
    | some seg =>
        if bugOn seg then .crashed .bugOn
        else .transfer index 0 ((armsPageWalk call.base seg.dst).getD 0)
          ((armsPageWalk call.base seg.src).getD 0)
  else .waiting

/-- A round of the inner loop. -/
def transferRound (call : DmaCall) (s : DmaState) (index lenCur dstPhys srcPhys : ℕ)
    (outcome : DmaOutcome) : DmaState :=
  match call.chanAt index with
  | .error hazard => { s with pc := .crashed hazard }
  | .ok chan =>
      match outcome with
      | .submitted =>
          let dmaLen := min (call.copy.lenAt index - lenCur) call.channels.size
          { s with
            err := 0
            outstanding := s.outstanding ++ [⟨chan, dstPhys, srcPhys, dmaLen⟩]
            pc := .transfer index (lenCur + dmaLen) (wrap64 (dstPhys + dmaLen))
              (wrap64 (srcPhys + dmaLen)) }
      | .prepFails | .submitFails => { s with pc := outUnlock 0 (-Errno.eio.toNat) }

def step (call : DmaCall) (s : DmaState) : DmaAction → Option DmaState
  | .refuse errno =>
      if s.pc = .handler ∧ errno ∈ refusals then some { s with pc := .done (-errno.toNat) }
      else none
  | .call => if s.pc = .handler then some { s with pc := .start } else none
  | .mmapChanging => if s.pc = .start then some { s with pc := outUnlock 0 s.err } else none
  | .advance =>
      match s.pc with
      | .start =>
          match call.countTransactions call.copy.count.toNat 0 0 with
          | .error hazard => some { s with pc := .crashed hazard }
          | .ok expectCount => some { s with expectCount := expectCount, pc := .segment 0 }
      | .segment index => some { s with pc := call.enterSegment index }
      | .transfer index lenCur _ _ =>
          if lenCur < call.copy.lenAt index then none
          else some { s with pc := .segment (index + 1) }
      | _ => none
  | .transfer outcome =>
      match s.pc with
      | .transfer index lenCur dstPhys srcPhys =>
          if lenCur < call.copy.lenAt index then
            some (call.transferRound s index lenCur dstPhys srcPhys outcome)
          else none
      | _ => none
  | .complete k =>
      s.outstanding[k]?.map fun descriptor =>
        { s with
          outstanding := s.outstanding.eraseIdx k
          completed := s.completed ++ [descriptor]
          wakeupCount := (s.wakeupCount + 1) % 2 ^ 32 }
  | .wake =>
      if s.pc = .waiting ∧ s.expectCount ≤ atomicToU64 s.wakeupCount then
        some { s with pc := outUnlock call.copied s.err }
      else none
  | .signal => if s.pc = .waiting then some { s with pc := outUnlock call.copied s.err } else none
  | .finish fault =>
      match s.pc with
      | .returned ret =>
          some { s with
            pc := .done (if fault then -Errno.efault.toNat else if ret < 0 then ret else 0) }
      | _ => none

/-- What one step can do. -/
inductive Step (call : DmaCall) (s : DmaState) : DmaAction → DmaState → Prop
  | refuse (errno : Errno) (hpc : s.pc = .handler) :
      Step call s (.refuse errno) { s with pc := .done (-errno.toNat) }
  | call (hpc : s.pc = .handler) : Step call s .call { s with pc := .start }
  | mmapChanging (hpc : s.pc = .start) :
      Step call s .mmapChanging { s with pc := outUnlock 0 s.err }
  | countCrash (hpc : s.pc = .start) (hazard : Hazard)
      (hcount : call.countTransactions call.copy.count.toNat 0 0 = .error hazard) :
      Step call s .advance { s with pc := .crashed hazard }
  | count (hpc : s.pc = .start) (expectCount : ℕ)
      (hcount : call.countTransactions call.copy.count.toNat 0 0 = .ok expectCount) :
      Step call s .advance { s with expectCount := expectCount, pc := .segment 0 }
  | enterSegment (index : ℕ) (hpc : s.pc = .segment index) :
      Step call s .advance { s with pc := call.enterSegment index }
  | leaveSegment (index lenCur dstPhys srcPhys : ℕ)
      (hpc : s.pc = .transfer index lenCur dstPhys srcPhys)
      (hend : ¬lenCur < call.copy.lenAt index) :
      Step call s .advance { s with pc := .segment (index + 1) }
  | transferCrash (index lenCur dstPhys srcPhys : ℕ) (outcome : DmaOutcome)
      (hpc : s.pc = .transfer index lenCur dstPhys srcPhys)
      (hlt : lenCur < call.copy.lenAt index) (hazard : Hazard)
      (hchan : call.chanAt index = .error hazard) :
      Step call s (.transfer outcome) { s with pc := .crashed hazard }
  | transferFails (index lenCur dstPhys srcPhys : ℕ) (outcome : DmaOutcome)
      (hpc : s.pc = .transfer index lenCur dstPhys srcPhys)
      (hlt : lenCur < call.copy.lenAt index) (hfails : outcome ≠ .submitted) :
      Step call s (.transfer outcome) { s with pc := outUnlock 0 (-Errno.eio.toNat) }
  | submit (index lenCur dstPhys srcPhys : ℕ)
      (hpc : s.pc = .transfer index lenCur dstPhys srcPhys)
      (hlt : lenCur < call.copy.lenAt index) (chan : DmaChan)
      (hchan : call.chanAt index = .ok chan) :
      Step call s (.transfer .submitted)
        (call.transferRound s index lenCur dstPhys srcPhys .submitted)
  | complete (k : ℕ) (descriptor : DmaDescriptor) (hk : s.outstanding[k]? = some descriptor) :
      Step call s (.complete k) { s with
        outstanding := s.outstanding.eraseIdx k
        completed := s.completed ++ [descriptor]
        wakeupCount := (s.wakeupCount + 1) % 2 ^ 32 }
  | wake (hpc : s.pc = .waiting) (hcond : s.expectCount ≤ atomicToU64 s.wakeupCount) :
      Step call s .wake { s with pc := outUnlock call.copied s.err }
  | signal (hpc : s.pc = .waiting) :
      Step call s .signal { s with pc := outUnlock call.copied s.err }
  | finish (fault : Bool) (ret : ℤ) (hpc : s.pc = .returned ret) :
      Step call s (.finish fault) { s with
        pc := .done (if fault then -Errno.efault.toNat else if ret < 0 then ret else 0) }

/-- A round of the inner loop ends in a crash, with an error, or with one more
descriptor. -/
theorem step_transfer {call : DmaCall} {s next : DmaState} {outcome : DmaOutcome}
    (hstep : call.step s (.transfer outcome) = some next) :
    Step call s (.transfer outcome) next := by
  rw [step] at hstep
  split at hstep
  · rename_i index lenCur dstPhys srcPhys hpc
    split at hstep
    · rename_i hlt
      obtain rfl := Option.some.inj hstep
      cases hchan : call.chanAt index with
      | error hazard =>
          rw [transferRound, hchan]
          exact .transferCrash index lenCur dstPhys srcPhys outcome hpc hlt hazard hchan
      | ok chan =>
          cases outcome with
          | submitted => exact .submit index lenCur dstPhys srcPhys hpc hlt chan hchan
          | prepFails =>
              rw [transferRound, hchan]
              exact .transferFails index lenCur dstPhys srcPhys _ hpc hlt (by decide)
          | submitFails =>
              rw [transferRound, hchan]
              exact .transferFails index lenCur dstPhys srcPhys _ hpc hlt (by decide)
    · cases hstep
  · cases hstep

theorem step_advance {call : DmaCall} {s next : DmaState}
    (hstep : call.step s .advance = some next) : Step call s .advance next := by
  rw [step] at hstep
  split at hstep
  · rename_i hpc
    split at hstep
    · rename_i hazard hcount
      obtain rfl := Option.some.inj hstep
      exact .countCrash hpc hazard hcount
    · rename_i expectCount hcount
      obtain rfl := Option.some.inj hstep
      exact .count hpc expectCount hcount
  · rename_i index hpc
    obtain rfl := Option.some.inj hstep
    exact .enterSegment index hpc
  · rename_i index lenCur dstPhys srcPhys hpc
    split at hstep
    · cases hstep
    · rename_i hend
      obtain rfl := Option.some.inj hstep
      exact .leaveSegment index lenCur dstPhys srcPhys hpc hend
  · cases hstep

theorem step_cases {call : DmaCall} {s next : DmaState} {action : DmaAction}
    (hstep : call.step s action = some next) : Step call s action next := by
  cases action with
  | transfer outcome => exact step_transfer hstep
  | advance => exact step_advance hstep
  | refuse errno =>
      obtain ⟨hcond, hnext⟩ := Option.ite_none_right_eq_some.mp hstep
      obtain rfl := Option.some.inj hnext
      exact .refuse errno hcond.1
  | call =>
      obtain ⟨hpc, hnext⟩ := Option.ite_none_right_eq_some.mp hstep
      obtain rfl := Option.some.inj hnext
      exact .call hpc
  | mmapChanging =>
      obtain ⟨hpc, hnext⟩ := Option.ite_none_right_eq_some.mp hstep
      obtain rfl := Option.some.inj hnext
      exact .mmapChanging hpc
  | complete k =>
      obtain ⟨descriptor, hk, rfl⟩ := Option.map_eq_some_iff.mp hstep
      exact .complete k descriptor hk
  | wake =>
      obtain ⟨⟨hpc, hcond⟩, hnext⟩ := Option.ite_none_right_eq_some.mp hstep
      obtain rfl := Option.some.inj hnext
      exact .wake hpc hcond
  | signal =>
      obtain ⟨hpc, hnext⟩ := Option.ite_none_right_eq_some.mp hstep
      obtain rfl := Option.some.inj hnext
      exact .signal hpc
  | finish fault =>
      rw [step] at hstep
      split at hstep
      · rename_i ret hpc
        obtain rfl := Option.some.inj hstep
        exact .finish fault ret hpc
      · cases hstep

/-- States after any number of steps of a call. -/
abbrev Reachable (call : DmaCall) : DmaState → Prop :=
  Transition.Reachable (· = DmaState.initial) call.step

end DmaCall

end ArmsTiering
