import ArmsTiering.Kernel.DmaCopy
import Mathlib.Algebra.Order.BigOperators.Group.Finset

/-!
# Completed copies

When a return of the copy routine means that the copy is done: the ranges have
to be contiguous in physical memory, and no error and no signal may end the call
while the DMA engine still works on it.
-/

namespace ArmsTiering

/-- A descriptor of the list writes the byte at the address `target`, from where the
address `source` is translated to. -/
def Overwritten (base : PageTables) (descriptors : List DmaDescriptor) (target source : ℕ) : Prop :=
  ∃ dst src, translate base target = some dst ∧ translate base source = some src ∧
    ∃ descriptor ∈ descriptors, ∃ offset < descriptor.len,
      descriptor.dst + offset = dst ∧ descriptor.src + offset = src

theorem Overwritten.mono {base : PageTables} {old new : List DmaDescriptor} {target source : ℕ}
    (hsub : old ⊆ new) (hold : Overwritten base old target source) :
    Overwritten base new target source := by
  obtain ⟨dst, src, hdst, hsrc, descriptor, hmem, hrest⟩ := hold
  exact ⟨dst, src, hdst, hsrc, descriptor, hsub hmem, hrest⟩

/-- All descriptors that the engine has been given, completed or not. -/
def DmaState.submitted (s : DmaState) : List DmaDescriptor := s.completed ++ s.outstanding

namespace DmaCall

/-- A positive return reports that every byte of every segment has been
overwritten, and at any return no descriptor is outstanding. -/
def ReturnSound (call : DmaCall) (s : DmaState) : Prop :=
  ∀ ret, s.pc = .returned ret → s.outstanding = [] ∧
    (0 < ret → ∀ index < call.copy.count.toNat, ∀ seg, call.copy.segment index = some seg →
      ∀ offset < seg.len,
        Overwritten call.base s.completed (seg.dst + offset) (seg.src + offset))

/-- Both ranges of every segment are contiguous in physical memory. -/
def Mapped (call : DmaCall) : Prop :=
  ∀ index < call.copy.count.toNat, ∀ seg, call.copy.segment index = some seg →
    Contiguous call.base seg.dst seg.len ∧ Contiguous call.base seg.src seg.len

/-- The number of transactions for the first bytes of a segment. -/
def transactionsOf (call : DmaCall) (len : ℕ) : ℕ :=
  (len + call.channels.size - 1) / call.channels.size

/-- The number of transactions for the segments below an index. -/
def transactionsBelow (call : DmaCall) (index : ℕ) : ℕ :=
  ∑ i ∈ Finset.range index, call.transactionsOf (call.copy.lenAt i)

/-- The number of transactions of the whole call. -/
def transactions (call : DmaCall) : ℕ := call.transactionsBelow call.copy.count.toNat

/-- The step does not end the call while a descriptor is outstanding. -/
def Quiet (s : DmaState) : DmaAction → Prop
  | .transfer .prepFails | .transfer .submitFails | .signal => s.outstanding = []
  | _ => True

/-! ## Counting the transactions -/

variable {call : DmaCall}

theorem transactionsOf_le (htotal : call.transactions ≤ 2 ^ 31) {index : ℕ}
    (hindex : index < call.copy.count.toNat) :
    call.transactionsOf (call.copy.lenAt index) ≤ 2 ^ 31 := by
  refine le_trans ?_ htotal
  exact Finset.single_le_sum
    (f := fun i => call.transactionsOf (call.copy.lenAt i)) (fun _ _ => Nat.zero_le _)
    (Finset.mem_range.mpr hindex)

theorem transactionsBelow_mono {first second : ℕ} (hle : first ≤ second) :
    call.transactionsBelow first ≤ call.transactionsBelow second :=
  Finset.sum_le_sum_of_subset (Finset.range_subset_range.mpr hle)

theorem transactionsBelow_succ (index : ℕ) :
    call.transactionsBelow (index + 1) =
      call.transactionsBelow index + call.transactionsOf (call.copy.lenAt index) :=
  Finset.sum_range_succ _ _

/-- No sum wraps around for a segment of few transactions. -/
theorem divRoundUp_eq {len : ℕ} (hsize : 0 < call.channels.size)
    (hfew : call.transactionsOf len ≤ 2 ^ 31) :
    divRoundUp len call.channels.size = call.transactionsOf len := by
  have hbound : call.channels.size < 2 ^ 32 := call.channels.sizePerDmaRequest.toNat_lt
  unfold transactionsOf at hfew
  have hlt : len + call.channels.size - 1 < 2 ^ 64 := by
    calc
      len + call.channels.size - 1
          < call.channels.size * ((len + call.channels.size - 1) / call.channels.size + 1) :=
        Nat.lt_mul_div_succ _ hsize
      _ ≤ 2 ^ 32 * (2 ^ 31 + 1) := Nat.mul_le_mul hbound.le (by omega)
      _ ≤ 2 ^ 64 := by decide
  rw [divRoundUp, transactionsOf, wrap64, Nat.mod_eq_of_lt hlt]

theorem countTransactions_eq (htotal : call.transactions ≤ 2 ^ 31) {left index expectCount : ℕ}
    (hend : index + left = call.copy.count.toNat)
    (hcounted : expectCount = call.transactionsBelow index) {result : ℕ}
    (hcount : call.countTransactions left index expectCount = .ok result) :
    result = call.transactions ∧ (0 < left → 0 < call.channels.size) := by
  induction left generalizing index expectCount with
  | zero =>
      obtain rfl := Except.ok.inj hcount
      rw [hcounted, transactions, ← hend]
      exact ⟨rfl, fun hpos => absurd hpos (Nat.lt_irrefl 0)⟩
  | succ left ih =>
      rw [countTransactions] at hcount
      cases hsegment : call.copy.segment index with
      | none =>
          rw [hsegment] at hcount
          cases hcount
      | some seg =>
          have hlenAt : call.copy.lenAt index = seg.len := by
            rw [UffdioDmaCopy.lenAt, hsegment]
            rfl
          rw [hsegment] at hcount
          dsimp only at hcount
          split at hcount
          · cases hcount
          · rename_i hsize
            have hpos := Nat.pos_of_ne_zero hsize
            have hfew := transactionsOf_le htotal (show index < call.copy.count.toNat by omega)
            have hnext : call.transactionsBelow (index + 1) ≤ 2 ^ 31 :=
              (transactionsBelow_mono (show index + 1 ≤ _ by omega)).trans htotal
            rw [transactionsBelow_succ] at hnext
            rw [← hlenAt, divRoundUp_eq hpos hfew, hcounted] at hcount
            refine ⟨(ih (by omega) ?_ hcount).1, fun _ => hpos⟩
            rw [transactionsBelow_succ, wrap64, Nat.mod_eq_of_lt (by omega)]

/-- A round of the inner loop is one transaction. -/
theorem transactionsOf_round {lenCur dmaLen : ℕ} (hmultiple : call.channels.size ∣ lenCur)
    (hpos : 0 < dmaLen) (hle : dmaLen ≤ call.channels.size) :
    call.transactionsOf (lenCur + dmaLen) = call.transactionsOf lenCur + 1 := by
  obtain ⟨rounds, rfl⟩ := hmultiple
  have hsize : 0 < call.channels.size := hpos.trans_le hle
  have hbefore : call.transactionsOf (call.channels.size * rounds) = rounds := by
    rw [transactionsOf, Nat.add_sub_assoc hsize, Nat.mul_add_div hsize,
      Nat.div_eq_of_lt (by omega), Nat.add_zero]
  have hafter : (dmaLen + call.channels.size - 1) / call.channels.size = 1 :=
    Nat.div_eq_of_lt_le (by omega) (by omega)
  rw [hbefore, transactionsOf, Nat.add_assoc, Nat.add_sub_assoc (by omega),
    Nat.mul_add_div hsize, hafter]

/-! ## What has been submitted -/

/-- The descriptors write the first bytes of a segment. -/
def Covers (call : DmaCall) (descriptors : List DmaDescriptor) (seg : DmaSegment)
    (len : ℕ) : Prop :=
  ∀ offset < len, Overwritten call.base descriptors (seg.dst + offset) (seg.src + offset)

/-- The descriptors write all segments below an index. -/
def CoversBelow (call : DmaCall) (descriptors : List DmaDescriptor) (index : ℕ) : Prop :=
  ∀ i < index, ∀ seg, call.copy.segment i = some seg → call.Covers descriptors seg seg.len

theorem CoversBelow.mono {old new : List DmaDescriptor} {index : ℕ}
    (hcovers : call.CoversBelow old index) (hsub : old ⊆ new) : call.CoversBelow new index :=
  fun i hi seg hseg offset hoffset => (hcovers i hi seg hseg offset hoffset).mono hsub

theorem CoversBelow.succ {descriptors : List DmaDescriptor} {index : ℕ} {seg : DmaSegment}
    (hbelow : call.CoversBelow descriptors index) (hsegment : call.copy.segment index = some seg)
    (hcovers : call.Covers descriptors seg seg.len) :
    call.CoversBelow descriptors (index + 1) := by
  intro i hi other hother
  rcases Nat.lt_or_eq_of_le (Nat.lt_succ_iff.mp hi) with hlt | rfl
  · exact hbelow i hlt other hother
  · obtain rfl : seg = other := Option.some.inj (hsegment.symm.trans hother)
    exact hcovers

/-- In the inner loop: where it stands in its segment, and the physical
addresses that belong there. -/
structure InSegment (call : DmaCall) (s : DmaState) (index lenCur dstPhys srcPhys : ℕ)
    (seg : DmaSegment) : Prop where
  segment : call.copy.segment index = some seg
  lenCur_le : lenCur ≤ seg.len
  dstPhys : dstPhys = wrap64 ((armsPageWalk call.base seg.dst).getD 0 + lenCur)
  srcPhys : srcPhys = wrap64 ((armsPageWalk call.base seg.src).getD 0 + lenCur)
  covers : call.Covers s.submitted seg lenCur
  rounds : call.channels.size ∣ lenCur ∨ lenCur = seg.len
  count : s.submitted.length = call.transactionsBelow index + call.transactionsOf lenCur

/-- Where the call stands, by its program counter. -/
def Progress (call : DmaCall) (s : DmaState) : Prop :=
  match s.pc with
  | .handler | .start => s.submitted = []
  | .segment index => index ≤ call.copy.count.toNat ∧ s.expectCount = call.transactions ∧
      (index < call.copy.count.toNat → 0 < call.channels.size) ∧
      s.submitted.length = call.transactionsBelow index ∧ call.CoversBelow s.submitted index
  | .transfer index lenCur dstPhys srcPhys => index < call.copy.count.toNat ∧
      s.expectCount = call.transactions ∧ 0 < call.channels.size ∧
      call.CoversBelow s.submitted index ∧
      ∃ seg, call.InSegment s index lenCur dstPhys srcPhys seg
  | .waiting => s.expectCount = call.transactions ∧ s.submitted.length = call.transactions ∧
      call.CoversBelow s.submitted call.copy.count.toNat
  | .returned ret => s.outstanding = [] ∧
      (0 < ret → call.CoversBelow s.completed call.copy.count.toNat)
  | .done _ | .crashed _ => True

structure Inv (call : DmaCall) (s : DmaState) : Prop where
  err : s.err ≤ 0
  wakeups : s.wakeupCount = s.completed.length % 2 ^ 32
  progress : call.Progress s

theorem Inv.returnSound {s : DmaState} (hinv : call.Inv s) : call.ReturnSound s := by
  intro ret hpc
  have hprogress := hinv.progress
  rw [Progress, hpc] at hprogress
  refine ⟨hprogress.1, fun hret index hindex seg hseg offset hoffset => ?_⟩
  exact hprogress.2 hret index hindex seg hseg offset hoffset

/-- The end of a call on which no descriptor is outstanding. -/
theorem Progress.outUnlock {s : DmaState} (hquiet : s.outstanding = []) {copied err : ℤ}
    (hcovers : 0 < copied ∨ 0 < err → call.CoversBelow s.submitted call.copy.count.toNat) :
    call.Progress { s with pc := outUnlock copied err } := by
  have hsubmitted : s.submitted = s.completed := by
    rw [DmaState.submitted, hquiet, List.append_nil]
  rw [hsubmitted] at hcovers
  unfold DmaCall.outUnlock
  split
  · trivial
  · refine ⟨hquiet, fun hret => hcovers ?_⟩
    split at hret
    · exact .inl hret
    · exact .inr hret

/-- If the wait ends by itself, all descriptors are completed. -/
theorem outstanding_of_wake (htotal : call.transactions ≤ 2 ^ 31) {s : DmaState}
    (hwakeups : s.wakeupCount = s.completed.length % 2 ^ 32)
    (hexpect : s.expectCount = call.transactions)
    (hcount : s.submitted.length = call.transactions)
    (hcond : s.expectCount ≤ atomicToU64 s.wakeupCount) : s.outstanding = [] := by
  rw [DmaState.submitted, List.length_append] at hcount
  rw [hwakeups, hexpect, atomicToU64] at hcond
  refine List.eq_nil_of_length_eq_zero ?_
  split at hcond <;> omega

/-- One more descriptor covers the bytes of its transaction. -/
theorem Covers.submit {descriptors : List DmaDescriptor} {seg : DmaSegment} {lenCur dmaLen : ℕ}
    {chan : DmaChan} (hcovers : call.Covers descriptors seg lenCur)
    (hdst : Contiguous call.base seg.dst seg.len) (hsrc : Contiguous call.base seg.src seg.len)
    (hle : lenCur + dmaLen ≤ seg.len) :
    call.Covers (descriptors ++ [⟨chan,
        wrap64 ((armsPageWalk call.base seg.dst).getD 0 + lenCur),
        wrap64 ((armsPageWalk call.base seg.src).getD 0 + lenCur), dmaLen⟩])
      seg (lenCur + dmaLen) := by
  intro offset hoffset
  rcases Nat.lt_or_ge offset lenCur with hold | hnew
  · exact (hcovers offset hold).mono (List.subset_append_left _ _)
  · have hdstByte := hdst offset (by omega)
    have hsrcByte := hsrc offset (by omega)
    have hdstBound := translate_lt hdstByte
    have hsrcBound := translate_lt hsrcByte
    refine ⟨_, _, hdstByte, hsrcByte, _, List.mem_append_right _ (List.mem_singleton_self _),
      offset - lenCur, by dsimp only; omega, ?_, ?_⟩
    · dsimp only
      rw [wrap64, Nat.mod_eq_of_lt (by omega)]
      omega
    · dsimp only
      rw [wrap64, Nat.mod_eq_of_lt (by omega)]
      omega

/-! ## Steps and runs -/

/-- Physical addresses are far below the end of a `u64`. -/
theorem wrap64_walk (base : PageTables) (address : ℕ) :
    wrap64 ((armsPageWalk base address).getD 0 + 0) = (armsPageWalk base address).getD 0 := by
  refine Nat.mod_eq_of_lt ?_
  cases hwalk : armsPageWalk base address with
  | none => decide
  | some location => exact (armsPageWalk_lt hwalk).trans (by decide)

theorem InSegment.submit {s : DmaState} {index lenCur dstPhys srcPhys : ℕ} {seg : DmaSegment}
    (hin : call.InSegment s index lenCur dstPhys srcPhys seg) (hmapped : call.Mapped)
    (hindex : index < call.copy.count.toNat) (hsize : 0 < call.channels.size)
    (hlt : lenCur < seg.len) (chan : DmaChan) {dmaLen : ℕ}
    (hdmaLen : dmaLen = min (seg.len - lenCur) call.channels.size) :
    call.InSegment
      { s with
        err := 0
        outstanding := s.outstanding ++ [⟨chan, dstPhys, srcPhys, dmaLen⟩]
        pc := .transfer index (lenCur + dmaLen) (wrap64 (dstPhys + dmaLen))
          (wrap64 (srcPhys + dmaLen)) }
      index (lenCur + dmaLen) (wrap64 (dstPhys + dmaLen)) (wrap64 (srcPhys + dmaLen)) seg := by
  obtain ⟨hsegment, hle, hdstPhys, hsrcPhys, hcovers, hrounds, hcount⟩ := hin
  obtain ⟨hdst, hsrc⟩ := hmapped index hindex seg hsegment
  have hmultiple : call.channels.size ∣ lenCur := hrounds.resolve_right hlt.ne
  have hround := transactionsOf_round hmultiple (show 0 < dmaLen by omega) (by omega)
  refine ⟨hsegment, by omega, ?_, ?_, ?_, ?_, ?_⟩
  · rw [hdstPhys, wrap64, wrap64, wrap64, Nat.mod_add_mod, Nat.add_assoc]
  · rw [hsrcPhys, wrap64, wrap64, wrap64, Nat.mod_add_mod, Nat.add_assoc]
  · rw [DmaState.submitted, ← List.append_assoc, hdstPhys, hsrcPhys]
    exact hcovers.submit hdst hsrc (by omega)
  · rcases Nat.le_total (seg.len - lenCur) call.channels.size with hlast | hfull
    · exact .inr (by omega)
    · rw [hdmaLen, Nat.min_eq_right hfull]
      exact .inl (Nat.dvd_add hmultiple (Nat.dvd_refl _))
  · rw [hround, ← Nat.add_assoc, ← hcount, DmaState.submitted, DmaState.submitted,
      ← List.append_assoc, List.length_append, List.length_singleton]

/-- The callback moves a descriptor; what has been submitted stays. -/
theorem submitted_complete {s : DmaState} {k : ℕ} {descriptor : DmaDescriptor}
    (hk : s.outstanding[k]? = some descriptor) :
    ((s.completed ++ [descriptor]) ++ s.outstanding.eraseIdx k).Perm s.submitted := by
  obtain ⟨hlt, hget⟩ := List.getElem?_eq_some_iff.mp hk
  rw [DmaState.submitted, List.append_assoc, List.singleton_append, ← hget]
  exact (List.getElem_cons_eraseIdx_perm hlt).append_left _

/-- What has been covered stays covered when a descriptor is completed. -/
theorem Progress.complete {s next : DmaState} (hprogress : call.Progress s)
    (hpc : next.pc = s.pc) (hexpect : next.expectCount = s.expectCount)
    (hperm : next.submitted.Perm s.submitted) (hrunning : s.outstanding ≠ []) :
    call.Progress next := by
  have hlength := hperm.length_eq
  have hsub : s.submitted ⊆ next.submitted := hperm.symm.subset
  unfold Progress at hprogress ⊢
  rw [hpc, hexpect, hlength]
  cases hcase : s.pc with
  | handler =>
      rw [hcase] at hprogress
      exact List.perm_nil.mp (hprogress ▸ hperm)
  | start =>
      rw [hcase] at hprogress
      exact List.perm_nil.mp (hprogress ▸ hperm)
  | segment index =>
      rw [hcase] at hprogress
      obtain ⟨hle, hcount, hsize, hlen, hcovers⟩ := hprogress
      exact ⟨hle, hcount, hsize, hlen, hcovers.mono hsub⟩
  | transfer index lenCur dstPhys srcPhys =>
      rw [hcase] at hprogress
      obtain ⟨hlt, hcount, hsize, hcovers, seg, hin⟩ := hprogress
      refine ⟨hlt, hcount, hsize, hcovers.mono hsub, seg, hin.segment, hin.lenCur_le, hin.dstPhys,
        hin.srcPhys, fun offset hoffset => (hin.covers offset hoffset).mono hsub, hin.rounds, ?_⟩
      rw [hlength]
      exact hin.count
  | waiting =>
      rw [hcase] at hprogress
      exact ⟨hprogress.1, hprogress.2.1, hprogress.2.2.mono hsub⟩
  | returned ret =>
      rw [hcase] at hprogress
      exact absurd hprogress.1 hrunning
  | done ret => trivial
  | crashed hazard => trivial

theorem Progress.enterSegment {s : DmaState} {index : ℕ} (hprogress : call.Progress s)
    (hpc : s.pc = .segment index) :
    call.Progress { s with pc := call.enterSegment index } := by
  rw [Progress, hpc] at hprogress
  obtain ⟨hle, hexpect, hsize, hcount, hcovers⟩ := hprogress
  unfold DmaCall.enterSegment
  split
  · rename_i hlt
    cases hsegment : call.copy.segment index with
    | none => trivial
    | some seg =>
        dsimp only
        split
        · trivial
        · have hzero : call.transactionsOf 0 = 0 := by
            rw [transactionsOf, Nat.zero_add]
            exact Nat.div_eq_of_lt (Nat.sub_lt (hsize hlt) Nat.one_pos)
          refine ⟨hlt, hexpect, hsize hlt, hcovers, seg, hsegment, Nat.zero_le _,
            (wrap64_walk _ _).symm, (wrap64_walk _ _).symm,
            fun offset hoffset => absurd hoffset (Nat.not_lt_zero _), .inl (Nat.dvd_zero _), ?_⟩
          rw [hzero]
          exact hcount
  · rename_i hge
    obtain rfl : index = call.copy.count.toNat := by omega
    exact ⟨hexpect, hcount, hcovers⟩

theorem inv_step (hmapped : call.Mapped) (htotal : call.transactions ≤ 2 ^ 31)
    {s next : DmaState} {action : DmaAction} (hinv : call.Inv s) (hquiet : Quiet s action)
    (hstep : call.step s action = some next) : call.Inv next := by
  obtain ⟨herr, hwakeups, hprogress⟩ := hinv
  cases step_cases hstep with
  | refuse errno hpc => exact ⟨herr, hwakeups, trivial⟩
  | call hpc =>
      rw [Progress, hpc] at hprogress
      exact ⟨herr, hwakeups, hprogress⟩
  | mmapChanging hpc =>
      rw [Progress, hpc] at hprogress
      refine ⟨herr, hwakeups, .outUnlock (List.append_eq_nil_iff.mp hprogress).2 fun hpos => ?_⟩
      omega
  | countCrash hpc hazard hcount => exact ⟨herr, hwakeups, trivial⟩
  | count hpc expectCount hcount =>
      rw [Progress, hpc] at hprogress
      obtain ⟨hexpect, hsize⟩ := countTransactions_eq htotal (Nat.zero_add _) rfl hcount
      refine ⟨herr, hwakeups, Nat.zero_le _, hexpect, hsize, ?_,
        fun i hi => absurd hi (Nat.not_lt_zero i)⟩
      change s.submitted.length = _
      rw [hprogress]
      rfl
  | enterSegment index hpc => exact ⟨herr, hwakeups, hprogress.enterSegment hpc⟩
  | leaveSegment index lenCur dstPhys srcPhys hpc hend =>
      rw [Progress, hpc] at hprogress
      obtain ⟨hlt, hexpect, hsize, hcovers, seg, hin⟩ := hprogress
      have hlenAt : call.copy.lenAt index = seg.len := by
        rw [UffdioDmaCopy.lenAt, hin.segment]
        rfl
      have hlenCur : lenCur = seg.len := le_antisymm hin.lenCur_le (hlenAt ▸ not_lt.mp hend)
      refine ⟨herr, hwakeups, hlt, hexpect, fun _ => hsize, ?_, hcovers.succ hin.segment ?_⟩
      · rw [transactionsBelow_succ, hlenAt, ← hlenCur]
        exact hin.count
      · exact hlenCur ▸ hin.covers
  | transferCrash index lenCur dstPhys srcPhys outcome hpc hlt hazard hchan =>
      exact ⟨herr, hwakeups, trivial⟩
  | transferFails index lenCur dstPhys srcPhys outcome hpc hlt hfails =>
      have hidle : s.outstanding = [] := by
        cases outcome with
        | prepFails => exact hquiet
        | submitFails => exact hquiet
        | submitted => exact absurd rfl hfails
      refine ⟨herr, hwakeups, .outUnlock hidle fun hpos => ?_⟩
      exact absurd hpos (by decide)
  | submit index lenCur dstPhys srcPhys hpc hlt chan hchan =>
      rw [Progress, hpc] at hprogress
      obtain ⟨hindex, hexpect, hsize, hcovers, seg, hin⟩ := hprogress
      have hlenAt : call.copy.lenAt index = seg.len := by
        rw [UffdioDmaCopy.lenAt, hin.segment]
        rfl
      rw [hlenAt] at hlt
      rw [transferRound, hchan, hlenAt]
      refine ⟨le_rfl, hwakeups, hindex, hexpect, hsize, hcovers.mono ?_, seg,
        hin.submit hmapped hindex hsize hlt chan rfl⟩
      rw [DmaState.submitted, DmaState.submitted, ← List.append_assoc]
      exact List.subset_append_left _ _
  | complete k descriptor hk =>
      refine ⟨herr, ?_, hprogress.complete rfl rfl (submitted_complete hk) ?_⟩
      · rw [List.length_append, List.length_singleton, hwakeups, Nat.mod_add_mod]
      · rintro hnil
        rw [hnil] at hk
        cases hk
  | wake hpc hcond =>
      rw [Progress, hpc] at hprogress
      obtain ⟨hexpect, hcount, hcovers⟩ := hprogress
      have hidle := outstanding_of_wake htotal hwakeups hexpect hcount hcond
      exact ⟨herr, hwakeups, .outUnlock hidle fun _ => hcovers⟩
  | signal hpc =>
      rw [Progress, hpc] at hprogress
      exact ⟨herr, hwakeups, .outUnlock hquiet fun _ => hprogress.2.2⟩
  | finish fault ret hpc => exact ⟨herr, hwakeups, trivial⟩

theorem initial_inv (call : DmaCall) : call.Inv DmaState.initial :=
  ⟨by decide, rfl, rfl⟩

/-- In every run of a call with contiguous ranges and at most `2 ^ 31`
transactions that does not end while a descriptor is outstanding, a positive
return means that all bytes have been copied. -/
theorem returnSound_along (call : DmaCall) (hmapped : call.Mapped)
    (htotal : call.transactions ≤ 2 ^ 31) (actions : List DmaAction)
    (hquiet : Transition.Meets call.step Quiet DmaState.initial actions) :
    Transition.Along call.step call.ReturnSound DmaState.initial actions :=
  Transition.along_of_meets call.Inv (fun _ hinv => hinv.returnSound)
    (fun _ _ _ hinv hquiet hstep => inv_step hmapped htotal hinv hquiet hstep)
    call.initial_inv hquiet

end DmaCall

/-! One huge page is copied in two transactions. -/

/-- Page tables that map the first gigabyte by leaves of the second level. -/
def hugeLeaves : PageTables := fun _ =>
  some ⟨true, false, 0, fun _ =>
    some ⟨true, false, 0, fun _ =>
      some ⟨true, false, 0, fun index =>
        some ⟨true, true, index * kernelHpageSize, fun _ => none⟩⟩⟩⟩

theorem hugeLeaves_contiguous {start len : ℕ}
    (hinside : start % kernelHpageSize + len ≤ kernelHpageSize) :
    Contiguous hugeLeaves start len := by
  have hleaf := @HugeLeafAt.leaf hugeLeaves start _ _ _ _ rfl rfl rfl rfl
    ⟨rfl, rfl, rfl, rfl⟩ ⟨rfl, rfl, rfl⟩
  exact hleaf.contiguous hinside

def hugepageCopy : DmaCall where
  channels := DmaChannels.initial.dmaRequestChanns 2 (1024 * 1024) some
  base := hugeLeaves
  copy :=
    { dst := fun _ => 2097152
      src := fun _ => 4194304
      len := fun _ => 2097152
      count := 1 }

theorem hugepageCopy_mapped : hugepageCopy.Mapped := by
  intro index hindex seg hseg
  obtain rfl : index = 0 := Nat.lt_one_iff.mp hindex
  obtain rfl := Option.some.inj hseg
  exact ⟨hugeLeaves_contiguous (by decide), hugeLeaves_contiguous (by decide)⟩

/-- Both transactions are completed before the call returns. -/
def awaitedRun : List DmaAction :=
  [.call, .advance, .advance, .transfer .submitted, .transfer .submitted, .advance, .advance,
    .complete 1, .complete 0, .wake]

theorem returnSound_along_hugepageCopy :
    Transition.Along hugepageCopy.step hugepageCopy.ReturnSound DmaState.initial awaitedRun := by
  refine hugepageCopy.returnSound_along hugepageCopy_mapped (by decide) awaitedRun ?_
  refine Transition.meets_of_forall fun action haction s => ?_
  simp only [awaitedRun, List.mem_cons, List.not_mem_nil, or_false] at haction
  rcases haction with rfl | rfl | rfl | rfl | rfl | rfl | rfl | rfl | rfl | rfl <;> trivial

/-- A signal ends the wait before the second transaction is completed. -/
def interruptedRun : List DmaAction :=
  [.call, .advance, .advance, .transfer .submitted, .transfer .submitted, .advance, .advance,
    .complete 0, .signal]

/-- The interrupted call reports the whole page, with a descriptor outstanding. -/
theorem interruptedRun_returns :
    ∃ s, Transition.run hugepageCopy.step DmaState.initial interruptedRun = some s ∧
      s.pc = .returned 2097152 ∧ ¬hugepageCopy.ReturnSound s := by
  have hrun : (Transition.run hugepageCopy.step DmaState.initial interruptedRun).map
      (fun s => (s.pc, s.outstanding.length)) = some (.returned 2097152, 1) := by
    decide +kernel
  obtain ⟨s, hs, hend⟩ := Option.map_eq_some_iff.mp hrun
  obtain ⟨hpc, hlength⟩ := Prod.mk.inj hend
  refine ⟨s, hs, hpc, fun hsound => ?_⟩
  rw [(hsound _ hpc).1] at hlength
  cases hlength

end ArmsTiering
