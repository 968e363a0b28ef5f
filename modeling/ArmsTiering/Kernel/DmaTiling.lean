import ArmsTiering.Kernel.DmaDelivery
import ArmsTiering.Kernel.DmaSafety

/-!
# The descriptors of a call

Where every preparation and every submission succeeds, the descriptors of a call
tile its segments.  The number of them is counted before, in 64 bits, and the
count is right exactly where nothing in it overflows.
-/

namespace ArmsTiering

/-- The descriptors move the bytes from one offset of a range up to another,
each from where the one before it ended. -/
def Tiles (size dst src finish : ℕ) : ℕ → List DmaDescriptor → Prop
  | start, [] => start = finish
  | start, descriptor :: rest =>
      descriptor.dst = wrap64 (dst + start) ∧ descriptor.src = wrap64 (src + start) ∧
        0 < descriptor.len ∧ descriptor.len ≤ size ∧
        Tiles size dst src finish (start + descriptor.len) rest

theorem Tiles.snoc {size dst src start middle : ℕ} {descriptors : List DmaDescriptor}
    (last : DmaDescriptor) (htiles : Tiles size dst src middle start descriptors)
    (hdst : last.dst = wrap64 (dst + middle)) (hsrc : last.src = wrap64 (src + middle))
    (hpos : 0 < last.len) (hle : last.len ≤ size) :
    Tiles size dst src (middle + last.len) start (descriptors ++ [last]) := by
  induction descriptors generalizing start with
  | nil =>
      obtain rfl : start = middle := htiles
      exact ⟨hdst, hsrc, hpos, hle, rfl⟩
  | cons descriptor rest ih =>
      obtain ⟨hdstFirst, hsrcFirst, hposFirst, hleFirst, hrest⟩ := htiles
      exact ⟨hdstFirst, hsrcFirst, hposFirst, hleFirst, ih hrest⟩

namespace DmaCall

/-- The descriptors tile the first bytes of a segment, at the physical addresses
of its two ends. -/
def TilesSegment (call : DmaCall) (index len : ℕ) (descriptors : List DmaDescriptor) : Prop :=
  ∀ seg, call.copy.segment index = some seg →
    Tiles call.channels.size ((armsPageWalk call.base seg.dst).getD 0)
      ((armsPageWalk call.base seg.src).getD 0) len 0 descriptors

/-- The descriptors, in whatever order they are completed, are those that tile
the segments below an index. -/
def TilesBelow (call : DmaCall) : ℕ → List DmaDescriptor → Prop
  | 0, descriptors => descriptors = []
  | index + 1, descriptors => ∃ earlier last, descriptors.Perm (earlier ++ last) ∧
      call.TilesBelow index earlier ∧ call.TilesSegment index (call.copy.lenAt index) last

/-- As many descriptors as the wait expects have been submitted, and they tile
the segments. -/
def DescriptorsTile (call : DmaCall) (s : DmaState) : Prop :=
  s.submitted.length = s.expectCount ∧ call.TilesBelow call.copy.count.toNat s.submitted

/-- Neither a rounded length nor the sum of the counts exceeds 64 bits. -/
def CountFits (call : DmaCall) : Prop :=
  (∀ index < call.copy.count.toNat,
    call.copy.lenAt index + call.channels.size - 1 < 2 ^ 64) ∧ call.transactions < 2 ^ 64

/-- A batch that the arrays can hold, of valid segments, for channels that have
been set up. -/
structure Acceptable (call : DmaCall) : Prop where
  channels : call.channels.Reachable
  numChans : 0 < call.channels.numChans
  size : 0 < call.channels.size
  count_le : call.copy.count.toNat ≤ dmaBatch
  valid : ∀ index < call.copy.count.toNat, ∀ seg, call.copy.segment index = some seg → seg.Valid

variable {call : DmaCall}

/-! ## The count -/

/-- The sum that the first loop computes. -/
def expected (call : DmaCall) : ℕ :=
  wrap64 (∑ index ∈ Finset.range call.copy.count.toNat,
    divRoundUp (call.copy.lenAt index) call.channels.size)

theorem countTransactions_expected {left index counted result : ℕ}
    (hend : index + left = call.copy.count.toNat)
    (hcounted : counted = wrap64 (∑ i ∈ Finset.range index,
      divRoundUp (call.copy.lenAt i) call.channels.size))
    (hcount : call.countTransactions left index counted = .ok result) :
    result = call.expected := by
  induction left generalizing index counted with
  | zero =>
      obtain rfl := Except.ok.inj hcount
      rw [hcounted, expected, ← hend, Nat.add_zero]
  | succ left ih =>
      rw [countTransactions] at hcount
      cases hsegment : call.copy.segment index with
      | none =>
          rw [hsegment] at hcount
          cases hcount
      | some seg =>
          have hlenAt : call.copy.lenAt index = seg.len := by
            rw [UffdioDmaCopy.lenAt, hsegment]
            rfl
          rw [hsegment] at hcount
          dsimp only at hcount
          split at hcount
          · cases hcount
          · refine ih (by omega) ?_ hcount
            rw [Finset.sum_range_succ, hcounted, hlenAt, wrap64, wrap64, Nat.mod_add_mod]
            rfl

theorem divRoundUp_le (len : ℕ) :
    divRoundUp len call.channels.size ≤ call.transactionsOf len :=
  Nat.div_le_div_right (Nat.mod_le _ _)

/-- The rounded division counts a transaction too few where its sum wraps
around. -/
theorem divRoundUp_eq_iff (hsize : 0 < call.channels.size) (len : ℕ) :
    divRoundUp len call.channels.size = call.transactionsOf len ↔
      len + call.channels.size - 1 < 2 ^ 64 := by
  have hbound : call.channels.size < 2 ^ 32 := call.channels.sizePerDmaRequest.toNat_lt
  constructor
  · intro heq
    by_contra hwraps
    rw [not_lt] at hwraps
    have hless : wrap64 (len + call.channels.size - 1) + call.channels.size ≤
        len + call.channels.size - 1 := by
      rw [wrap64, Nat.mod_eq_sub_mod hwraps]
      have := Nat.mod_le (len + call.channels.size - 1 - 2 ^ 64) (2 ^ 64)
      omega
    have hquotient : _ / call.channels.size ≤ _ / call.channels.size :=
      Nat.div_le_div_right hless
    rw [Nat.add_div_right _ hsize] at hquotient
    exact absurd heq (Nat.ne_of_lt hquotient)
  · intro hlt
    rw [divRoundUp, transactionsOf, wrap64, Nat.mod_eq_of_lt hlt]

theorem expected_eq_iff (hsize : 0 < call.channels.size) :
    call.expected = call.transactions ↔ call.CountFits := by
  have hle : ∀ index ∈ Finset.range call.copy.count.toNat,
      divRoundUp (call.copy.lenAt index) call.channels.size ≤
        call.transactionsOf (call.copy.lenAt index) := fun index _ => divRoundUp_le _
  have hsum := Finset.sum_le_sum hle
  constructor
  · intro heq
    have hwrap : call.expected < 2 ^ 64 := Nat.mod_lt _ (by decide)
    have hmod : call.expected ≤ ∑ index ∈ Finset.range call.copy.count.toNat,
        divRoundUp (call.copy.lenAt index) call.channels.size := Nat.mod_le _ _
    rw [heq] at hmod
    have hsame := (Finset.sum_eq_sum_iff_of_le hle).mp (le_antisymm hsum hmod)
    refine ⟨fun index hindex => ?_, heq ▸ hwrap⟩
    exact (divRoundUp_eq_iff hsize _).mp (hsame index (Finset.mem_range.mpr hindex))
  · rintro ⟨hfits, htotal⟩
    have hsame : ∑ index ∈ Finset.range call.copy.count.toNat,
        divRoundUp (call.copy.lenAt index) call.channels.size = call.transactions := by
      refine Finset.sum_congr rfl fun index hindex => ?_
      exact (divRoundUp_eq_iff hsize _).mpr (hfits index (Finset.mem_range.mp hindex))
    rw [expected, hsame, wrap64, Nat.mod_eq_of_lt htotal]

/-! ## What has been submitted -/

theorem TilesBelow.perm {index : ℕ} {old new : List DmaDescriptor}
    (htiles : call.TilesBelow index old) (hperm : new.Perm old) : call.TilesBelow index new := by
  cases index with
  | zero =>
      obtain rfl : old = [] := htiles
      exact List.perm_nil.mp hperm
  | succ index =>
      obtain ⟨earlier, last, hparts, hearlier, hlast⟩ := htiles
      exact ⟨earlier, last, hperm.trans hparts, hearlier, hlast⟩

/-- In the inner loop: the descriptors of the segments below, and those of the
bytes of this one up to `lenCur`. -/
structure Tiling (call : DmaCall) (s : DmaState) (index lenCur dstPhys srcPhys : ℕ)
    (seg : DmaSegment) : Prop where
  segment : call.copy.segment index = some seg
  lenCur_le : lenCur ≤ seg.len
  dstPhys : dstPhys = wrap64 ((armsPageWalk call.base seg.dst).getD 0 + lenCur)
  srcPhys : srcPhys = wrap64 ((armsPageWalk call.base seg.src).getD 0 + lenCur)
  tiles : ∃ earlier last, s.submitted.Perm (earlier ++ last) ∧ call.TilesBelow index earlier ∧
    call.TilesSegment index lenCur last
  rounds : call.channels.size ∣ lenCur ∨ lenCur = seg.len
  count : s.submitted.length = call.transactionsBelow index + call.transactionsOf lenCur

/-- What has been submitted, by the program counter. -/
def Tiled (call : DmaCall) (s : DmaState) : Prop :=
  match s.pc with
  | .handler | .start => s.submitted = []
  | .segment index => index ≤ call.copy.count.toNat ∧ s.expectCount = call.expected ∧
      s.submitted.length = call.transactionsBelow index ∧ call.TilesBelow index s.submitted
  | .transfer index lenCur dstPhys srcPhys => index < call.copy.count.toNat ∧
      s.expectCount = call.expected ∧ ∃ seg, call.Tiling s index lenCur dstPhys srcPhys seg
  | .waiting => s.expectCount = call.expected ∧ s.submitted.length = call.transactions ∧
      call.TilesBelow call.copy.count.toNat s.submitted
  | .returned _ | .done _ | .crashed _ => True

theorem tiled_outUnlock (s : DmaState) (copied err : ℤ) :
    call.Tiled { s with pc := outUnlock copied err } := by
  unfold DmaCall.outUnlock
  split <;> trivial

theorem Tiling.submit {s : DmaState} {index lenCur dstPhys srcPhys : ℕ} {seg : DmaSegment}
    (htiling : call.Tiling s index lenCur dstPhys srcPhys seg) (hsize : 0 < call.channels.size)
    (hlt : lenCur < seg.len) (chan : DmaChan) {dmaLen : ℕ}
    (hdmaLen : dmaLen = min (seg.len - lenCur) call.channels.size) :
    call.Tiling
      { s with
        err := 0
        outstanding := s.outstanding ++ [⟨chan, dstPhys, srcPhys, dmaLen⟩]
        pc := .transfer index (lenCur + dmaLen) (wrap64 (dstPhys + dmaLen))
          (wrap64 (srcPhys + dmaLen)) }
      index (lenCur + dmaLen) (wrap64 (dstPhys + dmaLen)) (wrap64 (srcPhys + dmaLen)) seg := by
  obtain ⟨hsegment, hle, hdstPhys, hsrcPhys, ⟨earlier, last, hparts, hearlier, hlast⟩, hrounds,
    hcount⟩ := htiling
  have hmultiple : call.channels.size ∣ lenCur := hrounds.resolve_right hlt.ne
  have hround := transactionsOf_round hmultiple (show 0 < dmaLen by omega) (by omega)
  refine ⟨hsegment, by omega, ?_, ?_, ⟨earlier, last ++ [⟨chan, dstPhys, srcPhys, dmaLen⟩], ?_,
    hearlier, ?_⟩, ?_, ?_⟩
  · rw [hdstPhys, wrap64, wrap64, wrap64, Nat.mod_add_mod, Nat.add_assoc]
  · rw [hsrcPhys, wrap64, wrap64, wrap64, Nat.mod_add_mod, Nat.add_assoc]
  · rw [DmaState.submitted, ← List.append_assoc, ← List.append_assoc]
    exact hparts.append_right _
  · intro other hother
    obtain rfl : seg = other := Option.some.inj (hsegment.symm.trans hother)
    have hpos : 0 < dmaLen := by omega
    have hsizeLe : dmaLen ≤ call.channels.size := by omega
    exact Tiles.snoc ⟨chan, dstPhys, srcPhys, dmaLen⟩ (hlast seg hsegment) hdstPhys hsrcPhys hpos
      hsizeLe
  · rcases Nat.le_total (seg.len - lenCur) call.channels.size with hshort | hfull
    · exact .inr (by omega)
    · rw [hdmaLen, Nat.min_eq_right hfull]
      exact .inl (Nat.dvd_add hmultiple (Nat.dvd_refl _))
  · rw [hround, ← Nat.add_assoc, ← hcount, DmaState.submitted, DmaState.submitted,
      ← List.append_assoc, List.length_append, List.length_singleton]

theorem Tiled.complete {s next : DmaState} (htiled : call.Tiled s) (hpc : next.pc = s.pc)
    (hexpect : next.expectCount = s.expectCount) (hperm : next.submitted.Perm s.submitted) :
    call.Tiled next := by
  have hlength := hperm.length_eq
  unfold Tiled at htiled ⊢
  rw [hpc, hexpect, hlength]
  cases hcase : s.pc with
  | handler =>
      rw [hcase] at htiled
      exact List.perm_nil.mp (htiled ▸ hperm)
  | start =>
      rw [hcase] at htiled
      exact List.perm_nil.mp (htiled ▸ hperm)
  | segment index =>
      rw [hcase] at htiled
      obtain ⟨hle, hcount, hlen, htiles⟩ := htiled
      exact ⟨hle, hcount, hlen, htiles.perm hperm⟩
  | transfer index lenCur dstPhys srcPhys =>
      rw [hcase] at htiled
      obtain ⟨hlt, hcount, seg, htiling⟩ := htiled
      obtain ⟨earlier, last, hparts, hearlier, hlast⟩ := htiling.tiles
      exact ⟨hlt, hcount, seg, htiling.segment, htiling.lenCur_le, htiling.dstPhys,
        htiling.srcPhys, ⟨earlier, last, hperm.trans hparts, hearlier, hlast⟩, htiling.rounds,
        hlength.trans htiling.count⟩
  | waiting =>
      rw [hcase] at htiled
      exact ⟨htiled.1, htiled.2.1, htiled.2.2.perm hperm⟩
  | returned ret => trivial
  | done ret => trivial
  | crashed hazard => trivial

theorem Tiled.enterSegment (hsize : 0 < call.channels.size) {s : DmaState} {index : ℕ}
    (htiled : call.Tiled s) (hpc : s.pc = .segment index) :
    call.Tiled { s with pc := call.enterSegment index } := by
  rw [Tiled, hpc] at htiled
  obtain ⟨hle, hexpect, hcount, htiles⟩ := htiled
  unfold DmaCall.enterSegment
  split
  · rename_i hlt
    cases hsegment : call.copy.segment index with
    | none => trivial
    | some seg =>
        dsimp only
        split
        · trivial
        · have hzero : call.transactionsOf 0 = 0 := by
            rw [transactionsOf, Nat.zero_add]
            exact Nat.div_eq_of_lt (Nat.sub_lt hsize Nat.one_pos)
          refine ⟨hlt, hexpect, seg, hsegment, Nat.zero_le _, (wrap64_walk _ _).symm,
            (wrap64_walk _ _).symm, ⟨s.submitted, [], ?_, htiles, fun _ _ => rfl⟩,
            .inl (Nat.dvd_zero _), ?_⟩
          · rw [List.append_nil]
            exact .refl _
          · rw [hzero]
            exact hcount
  · rename_i hge
    obtain rfl : index = call.copy.count.toNat := by omega
    exact ⟨hexpect, hcount, htiles⟩

theorem tiled_step (hsize : 0 < call.channels.size) {s next : DmaState} {action : DmaAction}
    (htiled : call.Tiled s) (hstep : call.step s action = some next) : call.Tiled next := by
  cases step_cases hstep with
  | refuse errno hpc => trivial
  | call hpc =>
      rw [Tiled, hpc] at htiled
      exact htiled
  | mmapChanging hpc => exact tiled_outUnlock _ _ _
  | countCrash hpc hazard hcount => trivial
  | count hpc expectCount hcount =>
      rw [Tiled, hpc] at htiled
      refine ⟨Nat.zero_le _, countTransactions_expected (Nat.zero_add _) rfl hcount, ?_, htiled⟩
      change s.submitted.length = _
      rw [htiled]
      rfl
  | enterSegment index hpc => exact htiled.enterSegment hsize hpc
  | leaveSegment index lenCur dstPhys srcPhys hpc hend =>
      rw [Tiled, hpc] at htiled
      obtain ⟨hlt, hexpect, seg, htiling⟩ := htiled
      have hlenAt : call.copy.lenAt index = seg.len := by
        rw [UffdioDmaCopy.lenAt, htiling.segment]
        rfl
      have hlenCur : lenCur = call.copy.lenAt index :=
        le_antisymm (hlenAt ▸ htiling.lenCur_le) (not_lt.mp hend)
      have htiles := htiling.tiles
      rw [hlenCur] at htiles
      refine ⟨hlt, hexpect, ?_, htiles⟩
      rw [transactionsBelow_succ, ← hlenCur]
      exact htiling.count
  | transferCrash index lenCur dstPhys srcPhys outcome hpc hlt hazard hchan => trivial
  | transferFails index lenCur dstPhys srcPhys outcome hpc hlt hfails =>
      exact tiled_outUnlock _ _ _
  | submit index lenCur dstPhys srcPhys hpc hlt chan hchan =>
      rw [Tiled, hpc] at htiled
      obtain ⟨hindex, hexpect, seg, htiling⟩ := htiled
      have hlenAt : call.copy.lenAt index = seg.len := by
        rw [UffdioDmaCopy.lenAt, htiling.segment]
        rfl
      rw [hlenAt] at hlt
      rw [transferRound, hchan, hlenAt]
      exact ⟨hindex, hexpect, seg, htiling.submit hsize hlt chan rfl⟩
  | complete k descriptor hk => exact htiled.complete rfl rfl (submitted_complete hk)
  | wake hpc hcond => exact tiled_outUnlock _ _ _
  | signal hpc => exact tiled_outUnlock _ _ _
  | finish fault ret hpc => trivial

/-! ## Calls -/

theorem Reachable.tiled (hsize : 0 < call.channels.size) {s : DmaState}
    (hreach : call.Reachable s) : call.Tiled s := by
  refine hreach.invariant call.Tiled ?_ fun _ _ _ htiled hstep => tiled_step hsize htiled hstep
  rintro _ rfl
  rfl

/-- If no transfer fails, a call arrives at the wait. -/
theorem Acceptable.reachable_waiting (hcall : call.Acceptable) :
    ∃ s, call.Reachable s ∧ s.pc = .waiting := by
  obtain ⟨s, hreach, hpc, -⟩ := reachable_segment hcall.size hcall.channels.wf hcall.numChans
    hcall.count_le le_rfl hcall.valid
  have henter : call.enterSegment call.copy.count.toNat = .waiting := by
    rw [enterSegment, if_neg (Nat.lt_irrefl _)]
  have hstep : call.step s .advance = some { s with pc := .waiting } := by
    simp only [step, hpc, henter]
  exact ⟨_, hreach.tail hstep, rfl⟩

theorem Acceptable.countFits (hcall : call.Acceptable)
    (htile : ∀ s, call.Reachable s → s.pc = .waiting → call.DescriptorsTile s) :
    call.CountFits := by
  obtain ⟨s, hreach, hpc⟩ := hcall.reachable_waiting
  have htiled := hreach.tiled hcall.size
  rw [Tiled, hpc] at htiled
  obtain ⟨hexpect, hlength, -⟩ := htiled
  rw [← expected_eq_iff hcall.size, ← hexpect, ← hlength]
  exact (htile s hreach hpc).1.symm

/-- Whenever all segments of a call have been submitted, the descriptors tile
them and are as many as the wait expects, exactly if the count fits in 64
bits. -/
theorem descriptorsTile_iff (call : DmaCall) (hcall : call.Acceptable) :
    (∀ s, call.Reachable s → s.pc = .waiting → call.DescriptorsTile s) ↔ call.CountFits := by
  refine ⟨hcall.countFits, fun hfits s hreach hpc => ?_⟩
  have htiled := hreach.tiled hcall.size
  rw [Tiled, hpc] at htiled
  obtain ⟨hexpect, hlength, htiles⟩ := htiled
  refine ⟨?_, htiles⟩
  rw [hlength, hexpect]
  exact ((expected_eq_iff hcall.size).mpr hfits).symm

end DmaCall

/-! The count of a batch for the largest aligned length is zero. -/

theorem acceptable_hugepageCopy : hugepageCopy.Acceptable := by
  refine ⟨startupChannels_reachable, by decide, by decide, by decide, fun index hindex seg hseg => ?_⟩
  obtain rfl : index = 0 := Nat.lt_one_iff.mp hindex
  obtain rfl := Option.some.inj hseg
  exact ⟨by decide, by decide, by decide, by decide, by decide⟩

theorem countFits_hugepageCopy : hugepageCopy.CountFits := by
  refine ⟨fun index hindex => ?_, by decide⟩
  obtain rfl : index = 0 := Nat.lt_one_iff.mp hindex
  decide

theorem descriptorsTile_iff_hugepageCopy :
    hugepageCopy.CountFits ∧
      ∀ s, hugepageCopy.Reachable s → s.pc = .waiting → hugepageCopy.DescriptorsTile s :=
  ⟨countFits_hugepageCopy,
    (hugepageCopy.descriptorsTile_iff acceptable_hugepageCopy).mpr countFits_hugepageCopy⟩

def wholeSpaceCopy : DmaCall where
  channels := startupChannels
  base := fun _ => none
  copy :=
    { dst := fun _ => 0
      src := fun _ => 0
      len := fun _ => 18446744073709547520
      count := 1 }

theorem acceptable_wholeSpaceCopy : wholeSpaceCopy.Acceptable := by
  refine ⟨startupChannels_reachable, by decide, by decide, by decide, fun index hindex seg hseg => ?_⟩
  obtain rfl : index = 0 := Nat.lt_one_iff.mp hindex
  obtain rfl := Option.some.inj hseg
  exact ⟨by decide, by decide, by decide, by decide, by decide⟩

/-- The call arrives at the wait with more descriptors than it expects. -/
theorem not_descriptorsTile :
    wholeSpaceCopy.Acceptable ∧ wholeSpaceCopy.expected = 0 ∧
      ∃ s, wholeSpaceCopy.Reachable s ∧ s.pc = .waiting ∧ ¬wholeSpaceCopy.DescriptorsTile s := by
  refine ⟨acceptable_wholeSpaceCopy, by decide, ?_⟩
  by_contra hnone
  push Not at hnone
  have hfits := acceptable_wholeSpaceCopy.countFits hnone
  exact absurd (hfits.1 0 (by decide)) (by decide)

end ArmsTiering
