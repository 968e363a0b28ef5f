import ArmsTiering.Kernel.DmaCopy

/-!
# Crashes of the copy routine

Which arguments and which channel states let a call crash: exactly those that
the routine's own assertions, its arrays and its divisions do not admit.
-/

namespace ArmsTiering

/-- What the assertions of the routine demand of a segment. -/
structure DmaSegment.Valid (seg : DmaSegment) : Prop where
  dst_aligned : seg.dst % kernelPageSize = 0
  len_aligned : seg.len % kernelPageSize = 0
  len_pos : 0 < seg.len
  src_end : seg.src + seg.len < 2 ^ 64
  dst_end : seg.dst + seg.len < 2 ^ 64

/-- Well-formed arguments: as many segments as the arrays hold, each valid, with
a total length that a `long` can report. -/
structure UffdioDmaCopy.WellFormed (copy : UffdioDmaCopy) : Prop where
  count_le : copy.count.toNat ≤ dmaBatch
  valid : ∀ index < copy.count.toNat, ∀ seg, copy.segment index = some seg → seg.Valid
  total : 0 < toLong (wrap64 (∑ index ∈ Finset.range copy.count.toNat, copy.lenAt index))

namespace DmaCall

/-- No step of the call crashes, and malformed arguments are answered with an
error. -/
def Safe (call : DmaCall) : Prop :=
  ∀ s, call.Reachable s → (∀ hazard, s.pc ≠ .crashed hazard) ∧
    (¬call.copy.WellFormed → ∀ ret, s.pc = .done ret → ret < 0)

/-- The batch is empty, or it is well-formed and the channels are set up. -/
def Accepted (call : DmaCall) : Prop :=
  call.copy.count.toNat = 0 ∨
    (0 < call.channels.size ∧ 0 < call.channels.numChans ∧ call.copy.WellFormed)

variable {call : DmaCall}

/-! ## The parts of a call -/

theorem segment_isSome (copy : UffdioDmaCopy) {index : ℕ} (hindex : index < dmaBatch) :
    ∃ seg, copy.segment index = some seg ∧ copy.lenAt index = seg.len ∧
      seg.dst < 2 ^ 64 ∧ seg.src < 2 ^ 64 ∧ seg.len < 2 ^ 64 := by
  have hsegment : copy.segment index = some ⟨(copy.dst ⟨index, hindex⟩).toNat,
      (copy.src ⟨index, hindex⟩).toNat, (copy.len ⟨index, hindex⟩).toNat⟩ := dif_pos hindex
  refine ⟨_, hsegment, ?_, UInt64.toNat_lt _, UInt64.toNat_lt _, UInt64.toNat_lt _⟩
  rw [UffdioDmaCopy.lenAt, hsegment]
  rfl

theorem segment_none {copy : UffdioDmaCopy} {index : ℕ} (hindex : dmaBatch ≤ index) :
    copy.segment index = none :=
  dif_neg (Nat.not_lt.mpr hindex)

/-- Without wrap-around the end of a range is past its start. -/
theorem wrap64_le_iff {start len : ℕ} (hstart : start < 2 ^ 64) (hlen : len < 2 ^ 64) :
    wrap64 (start + len) ≤ start ↔ len = 0 ∨ 2 ^ 64 ≤ start + len := by
  unfold wrap64
  omega

theorem bugOn_iff {seg : DmaSegment} (hdst : seg.dst < 2 ^ 64) (hsrc : seg.src < 2 ^ 64)
    (hlen : seg.len < 2 ^ 64) : bugOn seg ↔ ¬seg.Valid := by
  unfold bugOn
  rw [wrap64_le_iff hsrc hlen, wrap64_le_iff hdst hlen]
  constructor
  · rintro hbug ⟨hdstAligned, hlenAligned, hpos, hsrcEnd, hdstEnd⟩
    omega
  · intro hinvalid
    by_contra hnone
    simp only [not_or, not_not, not_le] at hnone
    obtain ⟨hdstAligned, hlenAligned, ⟨hpos, hsrcEnd⟩, _, hdstEnd⟩ := hnone
    exact hinvalid ⟨hdstAligned, hlenAligned, Nat.pos_of_ne_zero hpos, hsrcEnd, hdstEnd⟩

theorem countTransactions_ok (hsize : 0 < call.channels.size) {left index : ℕ}
    (hbound : index + left ≤ dmaBatch) (expectCount : ℕ) :
    ∃ total, call.countTransactions left index expectCount = .ok total := by
  induction left generalizing index expectCount with
  | zero => exact ⟨expectCount, rfl⟩
  | succ left ih =>
      obtain ⟨seg, hsegment, _⟩ := segment_isSome call.copy (show index < dmaBatch by omega)
      rw [countTransactions, hsegment]
      dsimp only
      rw [if_neg hsize.ne']
      exact ih (by omega) _

theorem countTransactions_outOfBounds (hsize : 0 < call.channels.size)
    {left index : ℕ} (hindex : index ≤ dmaBatch) (hbound : dmaBatch < index + left)
    (expectCount : ℕ) :
    call.countTransactions left index expectCount = .error .outOfBounds := by
  induction left generalizing index expectCount with
  | zero => omega
  | succ left ih =>
      rw [countTransactions]
      rcases Nat.lt_or_eq_of_le hindex with hlt | heq
      · obtain ⟨seg, hsegment, _⟩ := segment_isSome call.copy hlt
        rw [hsegment]
        dsimp only
        rw [if_neg hsize.ne']
        exact ih (by omega) (by omega) _
      · rw [segment_none heq.ge]

theorem chanAt_ok (hwf : call.channels.Wf) (hnum : 0 < call.channels.numChans) (index : ℕ) :
    ∃ chan, call.chanAt index = .ok chan := by
  have hbelow := Nat.mod_lt index hnum
  obtain ⟨chan, hchan, hacquired⟩ := hwf.acquired _ hbelow
  have hinside : ¬armsMaxDmaChans ≤ index % call.channels.numChans :=
    Nat.not_le.mpr (hbelow.trans_le hwf.bound)
  refine ⟨chan, ?_⟩
  rw [chanAt, if_neg hnum.ne', if_neg hinside, hchan]
  exact if_pos hacquired

theorem outUnlock_error {err : ℤ} (herr : err < 0) : outUnlock 0 err = .returned err := by
  rw [outUnlock, if_neg (by omega), if_neg (by omega)]

theorem outUnlock_copied {copied : ℤ} (hcopied : 0 < copied) :
    outUnlock copied 0 = .returned copied := by
  rw [outUnlock, if_neg (by omega), if_pos hcopied.ne']

/-! ## Accepted calls -/

/-- What holds of `err` at each point of a call that does not crash. -/
def Calm (call : DmaCall) (s : DmaState) : Prop :=
  match s.pc with
  | .handler | .start => s.err = -Errno.eagain.toNat
  | .segment index => index ≤ call.copy.count.toNat ∧
      (index = 0 ∧ s.err = -Errno.eagain.toNat ∨ 0 < call.copy.count.toNat ∧ s.err = 0)
  | .transfer index lenCur _ _ => index < call.copy.count.toNat ∧ (lenCur = 0 ∨ s.err = 0)
  | .waiting => call.copy.count.toNat = 0 ∧ s.err = -Errno.eagain.toNat ∨
      0 < call.copy.count.toNat ∧ s.err = 0
  | .returned ret | .done ret => call.copy.WellFormed ∨ ret < 0
  | .crashed _ => False

theorem Accepted.wellFormed (haccepted : call.Accepted) (hcount : 0 < call.copy.count.toNat) :
    0 < call.channels.size ∧ 0 < call.channels.numChans ∧ call.copy.WellFormed :=
  haccepted.resolve_left hcount.ne'

theorem Accepted.countTransactions (haccepted : call.Accepted) :
    ∃ total, call.countTransactions call.copy.count.toNat 0 0 = .ok total := by
  rcases Nat.eq_zero_or_pos call.copy.count.toNat with hzero | hcount
  · rw [hzero]
    exact ⟨0, rfl⟩
  · obtain ⟨hsize, _, hwf⟩ := haccepted.wellFormed hcount
    have hbound := hwf.count_le
    exact countTransactions_ok hsize (by omega) 0

/-- An accepted batch passes the assertions on each of its segments. -/
theorem Accepted.segment (haccepted : call.Accepted) {index : ℕ}
    (hindex : index < call.copy.count.toNat) :
    ∃ seg, call.copy.segment index = some seg ∧ call.copy.lenAt index = seg.len ∧
      ¬bugOn seg ∧ seg.Valid := by
  obtain ⟨_, _, hwf⟩ := haccepted.wellFormed (by omega)
  obtain ⟨seg, hsegment, hlenAt, hdst, hsrc, hlen⟩ :=
    segment_isSome call.copy (hindex.trans_le hwf.count_le)
  have hvalid := hwf.valid index hindex seg hsegment
  exact ⟨seg, hsegment, hlenAt, fun hbug => (bugOn_iff hdst hsrc hlen).mp hbug hvalid, hvalid⟩

/-- The end of the wait reports the total of a batch, or `-EAGAIN` for none. -/
theorem Accepted.calm_end (haccepted : call.Accepted) {s : DmaState}
    (hcalm : call.copy.count.toNat = 0 ∧ s.err = -Errno.eagain.toNat ∨
      0 < call.copy.count.toNat ∧ s.err = 0) :
    call.Calm { s with pc := outUnlock call.copied s.err } := by
  rcases hcalm with ⟨hzero, herr⟩ | ⟨hcount, herr⟩
  · have hcopied : call.copied = 0 := by
      rw [copied, hzero]
      rfl
    rw [hcopied, outUnlock_error (by rw [herr]; decide)]
    exact .inr (by rw [herr]; decide)
  · obtain ⟨_, _, hwf⟩ := haccepted.wellFormed hcount
    have hcopied : 0 < call.copied := hwf.total
    rw [herr, outUnlock_copied hcopied]
    exact .inl hwf

theorem Accepted.calm_step (haccepted : call.Accepted) (hchannels : call.channels.Wf)
    {s next : DmaState} {action : DmaAction} (hcalm : call.Calm s)
    (hstep : call.step s action = some next) : call.Calm next := by
  cases step_cases hstep with
  | refuse errno hpc =>
      refine .inr ?_
      cases errno <;> decide
  | call hpc =>
      rw [Calm, hpc] at hcalm
      exact hcalm
  | mmapChanging hpc =>
      rw [Calm, hpc] at hcalm
      rw [outUnlock_error (by rw [hcalm]; decide)]
      exact .inr (by rw [hcalm]; decide)
  | countCrash hpc hazard hcount =>
      obtain ⟨total, htotal⟩ := haccepted.countTransactions
      rw [htotal] at hcount
      cases hcount
  | count hpc expectCount hcount =>
      rw [Calm, hpc] at hcalm
      exact ⟨Nat.zero_le _, .inl ⟨rfl, hcalm⟩⟩
  | enterSegment index hpc =>
      rw [Calm, hpc] at hcalm
      obtain ⟨hle, herr⟩ := hcalm
      rw [DmaCall.enterSegment]
      split
      · rename_i hlt
        obtain ⟨seg, hsegment, _, hbug, _⟩ := haccepted.segment hlt
        rw [hsegment]
        dsimp only
        rw [if_neg hbug]
        exact ⟨hlt, .inl rfl⟩
      · rename_i hge
        rcases herr with ⟨rfl, herr⟩ | herr
        · exact .inl ⟨by omega, herr⟩
        · exact .inr herr
  | leaveSegment index lenCur dstPhys srcPhys hpc hend =>
      rw [Calm, hpc] at hcalm
      obtain ⟨hlt, herr⟩ := hcalm
      obtain ⟨seg, _, hlenAt, _, hvalid⟩ := haccepted.segment hlt
      have hpos := hvalid.len_pos
      rw [hlenAt] at hend
      exact ⟨hlt, .inr ⟨by omega, herr.resolve_left (by omega)⟩⟩
  | transferCrash index lenCur dstPhys srcPhys outcome hpc hlt hazard hchan =>
      rw [Calm, hpc] at hcalm
      obtain ⟨_, hnum, _⟩ := haccepted.wellFormed (Nat.zero_lt_of_lt hcalm.1)
      obtain ⟨chan, hok⟩ := chanAt_ok hchannels hnum index
      rw [hok] at hchan
      cases hchan
  | transferFails index lenCur dstPhys srcPhys outcome hpc hlt hfails => exact .inr (by decide)
  | submit index lenCur dstPhys srcPhys hpc hlt chan hchan =>
      rw [Calm, hpc] at hcalm
      rw [transferRound, hchan]
      exact ⟨hcalm.1, .inr rfl⟩
  | complete k descriptor hk => exact hcalm
  | wake hpc hcond =>
      rw [Calm, hpc] at hcalm
      exact haccepted.calm_end hcalm
  | signal hpc =>
      rw [Calm, hpc] at hcalm
      exact haccepted.calm_end hcalm
  | finish fault ret hpc =>
      rw [Calm, hpc] at hcalm
      refine hcalm.imp_right fun hret => ?_
      cases fault with
      | true =>
          rw [if_pos rfl]
          decide
      | false =>
          rw [if_neg Bool.false_ne_true, if_pos hret]
          exact hret

theorem Accepted.safe (haccepted : call.Accepted) (hchannels : call.channels.Wf) :
    call.Safe := by
  intro s hreach
  have hcalm : call.Calm s := by
    refine Transition.Reachable.invariant call.Calm ?_
      (fun _ _ _ => haccepted.calm_step hchannels) hreach
    rintro s rfl
    rfl
  refine ⟨fun hazard hpc => ?_, fun hmalformed ret hpc => ?_⟩
  · rw [Calm, hpc] at hcalm
    exact hcalm
  · rw [Calm, hpc] at hcalm
    exact hcalm.resolve_left hmalformed

/-! ## Calls that are not accepted -/

/-- Some run crashes the call. -/
def Crashes (call : DmaCall) : Prop :=
  ∃ s hazard, call.Reachable s ∧ s.pc = .crashed hazard

theorem Crashes.not_safe (hcrashes : call.Crashes) : ¬call.Safe := by
  obtain ⟨s, hazard, hreach, hpc⟩ := hcrashes
  exact fun hsafe => (hsafe s hreach).1 hazard hpc

theorem reachable_start : call.Reachable { DmaState.initial with pc := .start } := by
  have hstep : call.step DmaState.initial .call = some { DmaState.initial with pc := .start } := rfl
  have hinitial : call.Reachable DmaState.initial := .start rfl
  exact hinitial.tail hstep

theorem crashes_of_count {hazard : Hazard}
    (hcount : call.countTransactions call.copy.count.toNat 0 0 = .error hazard) :
    call.Crashes := by
  have hstep : call.step { DmaState.initial with pc := .start } .advance =
      some { DmaState.initial with pc := .crashed hazard } := by
    simp only [step, hcount]
  exact ⟨_, hazard, reachable_start.tail hstep, rfl⟩

theorem reachable_segment_zero {total : ℕ}
    (hcount : call.countTransactions call.copy.count.toNat 0 0 = .ok total) :
    ∃ s, call.Reachable s ∧ s.pc = .segment 0 := by
  have hstep : call.step { DmaState.initial with pc := .start } .advance =
      some { DmaState.initial with expectCount := total, pc := .segment 0 } := by
    simp only [step, hcount]
  exact ⟨_, reachable_start.tail hstep, rfl⟩

/-- A segment that violates an assertion crashes the call once it is reached. -/
theorem crashes_of_bugOn {s : DmaState} (hreach : call.Reachable s) {index : ℕ}
    (hpc : s.pc = .segment index) (hindex : index < call.copy.count.toNat) {seg : DmaSegment}
    (hsegment : call.copy.segment index = some seg) (hbug : bugOn seg) : call.Crashes := by
  have henter : call.enterSegment index = .crashed .bugOn := by
    rw [enterSegment, if_pos hindex, hsegment]
    exact if_pos hbug
  have hstep : call.step s .advance = some { s with pc := .crashed .bugOn } := by
    simp only [step, hpc, henter]
  exact ⟨_, .bugOn, hreach.tail hstep, rfl⟩

/-- If no transfer fails, the inner loop ends. -/
theorem reachable_next_segment (hsize : 0 < call.channels.size)
    (hchannels : call.channels.Wf) (hnum : 0 < call.channels.numChans) {s : DmaState}
    (hreach : call.Reachable s) {index lenCur dstPhys srcPhys : ℕ}
    (hpc : s.pc = .transfer index lenCur dstPhys srcPhys)
    (herr : lenCur < call.copy.lenAt index ∨ s.err = 0) :
    ∃ next, call.Reachable next ∧ next.pc = .segment (index + 1) ∧ next.err = 0 := by
  -- on the bytes of the segment that are left
  induction hleft : call.copy.lenAt index - lenCur using Nat.strong_induction_on
    generalizing s lenCur dstPhys srcPhys with
  | _ left ih =>
    by_cases hlt : lenCur < call.copy.lenAt index
    · obtain ⟨chan, hchan⟩ := chanAt_ok hchannels hnum index
      have hstep : call.step s (.transfer .submitted) =
          some (call.transferRound s index lenCur dstPhys srcPhys .submitted) := by
        simp only [step, hpc]
        exact if_pos hlt
      have hround := hreach.tail hstep
      rw [transferRound, hchan] at hround
      exact ih _ (by omega) hround rfl (.inr rfl) rfl
    · have hstep : call.step s .advance = some { s with pc := .segment (index + 1) } := by
        simp only [step, hpc]
        exact if_neg hlt
      exact ⟨_, hreach.tail hstep, rfl, herr.resolve_left hlt⟩

theorem reachable_segment (hsize : 0 < call.channels.size)
    (hchannels : call.channels.Wf) (hnum : 0 < call.channels.numChans)
    (hcount : call.copy.count.toNat ≤ dmaBatch) {index : ℕ}
    (hindex : index ≤ call.copy.count.toNat)
    (hvalid : ∀ i < index, ∀ seg, call.copy.segment i = some seg → seg.Valid) :
    ∃ s, call.Reachable s ∧ s.pc = .segment index ∧ (0 < index → s.err = 0) := by
  induction index with
  | zero =>
      have hbound : 0 + call.copy.count.toNat ≤ dmaBatch := by omega
      obtain ⟨total, htotal⟩ := countTransactions_ok hsize hbound 0
      obtain ⟨s, hreach, hpc⟩ := reachable_segment_zero htotal
      exact ⟨s, hreach, hpc, fun hpos => absurd hpos (Nat.lt_irrefl 0)⟩
  | succ index ih =>
      obtain ⟨s, hreach, hpc, _⟩ :=
        ih (by omega) fun i hi => hvalid i (by omega)
      obtain ⟨seg, hsegment, hlenAt, hdst, hsrc, hlen⟩ :=
        segment_isSome call.copy (show index < dmaBatch by omega)
      have hseg := hvalid index (by omega) seg hsegment
      have hbug : ¬bugOn seg := fun hbug => (bugOn_iff hdst hsrc hlen).mp hbug hseg
      have henter : call.enterSegment index =
          .transfer index 0 ((armsPageWalk call.base seg.dst).getD 0)
            ((armsPageWalk call.base seg.src).getD 0) := by
        rw [enterSegment, if_pos (by omega), hsegment]
        exact if_neg hbug
      have hstep : call.step s .advance = some { s with pc := call.enterSegment index } := by
        simp only [step, hpc]
      have hentered := hreach.tail hstep
      obtain ⟨next, hnext, hpcNext, herr⟩ := reachable_next_segment hsize hchannels hnum hentered
        henter (.inl (hlenAt ▸ hseg.len_pos))
      exact ⟨next, hnext, hpcNext, fun _ => herr⟩

/-- Without channels a batch crashes at its first segment. -/
theorem crashes_of_noChannels (hsize : 0 < call.channels.size)
    (hcount : call.copy.count.toNat ≤ dmaBatch) (hpos : 0 < call.copy.count.toNat)
    (hnum : call.channels.numChans = 0) : call.Crashes := by
  have hbound : 0 + call.copy.count.toNat ≤ dmaBatch := by omega
  obtain ⟨total, htotal⟩ := countTransactions_ok hsize hbound 0
  obtain ⟨s, hreach, hpc⟩ := reachable_segment_zero htotal
  obtain ⟨seg, hsegment, hlenAt, hdst, hsrc, hlen⟩ :=
    segment_isSome call.copy (show 0 < dmaBatch by omega)
  by_cases hbug : bugOn seg
  · exact crashes_of_bugOn hreach hpc hpos hsegment hbug
  · have hvalid : seg.Valid := not_not.mp (mt (bugOn_iff hdst hsrc hlen).mpr hbug)
    have henter : call.enterSegment 0 =
        .transfer 0 0 ((armsPageWalk call.base seg.dst).getD 0)
          ((armsPageWalk call.base seg.src).getD 0) := by
      rw [enterSegment, if_pos hpos, hsegment]
      exact if_neg hbug
    have hchan : call.chanAt 0 = .error .divisionByZero := if_pos hnum
    have hstep : call.step s .advance = some { s with pc := call.enterSegment 0 } := by
      simp only [step, hpc]
    have hround : call.step { s with pc := call.enterSegment 0 } (.transfer .submitted) =
        some { s with pc := .crashed .divisionByZero } := by
      simp only [step, henter, transferRound, hchan]
      exact if_pos (hlenAt ▸ hvalid.len_pos)
    exact ⟨_, .divisionByZero, (hreach.tail hstep).tail hround, rfl⟩

/-- A batch with an invalid segment crashes at the first such segment. -/
theorem crashes_of_invalid (hsize : 0 < call.channels.size)
    (hchannels : call.channels.Wf) (hnum : 0 < call.channels.numChans)
    (hcount : call.copy.count.toNat ≤ dmaBatch)
    (hinvalid : ∃ index < call.copy.count.toNat, ∃ seg,
      call.copy.segment index = some seg ∧ ¬seg.Valid) : call.Crashes := by
  classical
  obtain ⟨hindex, seg, hsegment, hseg⟩ := Nat.find_spec hinvalid
  have hearlier : ∀ i < Nat.find hinvalid, ∀ seg, call.copy.segment i = some seg → seg.Valid := by
    intro i hi other hother
    by_contra hbad
    exact Nat.find_min hinvalid hi ⟨by omega, other, hother, hbad⟩
  obtain ⟨s, hreach, hpc, _⟩ :=
    reachable_segment hsize hchannels hnum hcount hindex.le hearlier
  obtain ⟨other, hother, _, hdst, hsrc, hlen⟩ :=
    segment_isSome call.copy (hindex.trans_le hcount)
  obtain rfl : seg = other := Option.some.inj (hsegment.symm.trans hother)
  exact crashes_of_bugOn hreach hpc hindex hsegment ((bugOn_iff hdst hsrc hlen).mpr hseg)

/-- Valid segments whose lengths add up to no positive `long` crash the call at
its end. -/
theorem crashes_of_total (hsize : 0 < call.channels.size)
    (hchannels : call.channels.Wf) (hnum : 0 < call.channels.numChans)
    (hcount : call.copy.count.toNat ≤ dmaBatch) (hpos : 0 < call.copy.count.toNat)
    (hvalid : ∀ i < call.copy.count.toNat, ∀ seg, call.copy.segment i = some seg → seg.Valid)
    (htotal : call.copied ≤ 0) : call.Crashes := by
  obtain ⟨s, hreach, hpc, herr⟩ :=
    reachable_segment hsize hchannels hnum hcount le_rfl hvalid
  have hwaiting : call.enterSegment call.copy.count.toNat = .waiting :=
    if_neg (Nat.lt_irrefl _)
  have hstep : call.step s .advance = some { s with pc := .waiting } := by
    simp only [step, hpc, hwaiting]
  have hend : outUnlock call.copied s.err = .crashed .bugOn := by
    rw [herr hpos]
    exact if_pos (by omega)
  have hsignal : call.step { s with pc := .waiting } .signal =
      some { s with pc := .crashed .bugOn } := by
    rw [← hend]
    rfl
  exact ⟨_, .bugOn, (hreach.tail hstep).tail hsignal, rfl⟩

theorem crashes_of_not_accepted (hchannels : call.channels.Wf) (hnot : ¬call.Accepted) :
    call.Crashes := by
  obtain ⟨hpos, hrest⟩ := not_or.mp hnot
  rw [← ne_eq, ← Nat.pos_iff_ne_zero] at hpos
  rcases Nat.eq_zero_or_pos call.channels.size with hzero | hsize
  · obtain ⟨left, hleft⟩ := Nat.exists_eq_succ_of_ne_zero hpos.ne'
    obtain ⟨seg, hsegment, _⟩ := segment_isSome call.copy (show 0 < dmaBatch by decide)
    have hcrash : call.countTransactions call.copy.count.toNat 0 0 = .error .divisionByZero := by
      rw [hleft, countTransactions, hsegment]
      exact if_pos hzero
    exact crashes_of_count hcrash
  · rcases Nat.lt_or_ge dmaBatch call.copy.count.toNat with hlarge | hcount
    · exact crashes_of_count
        (countTransactions_outOfBounds hsize (Nat.zero_le _) (by omega) 0)
    · rcases Nat.eq_zero_or_pos call.channels.numChans with hzero | hnum
      · exact crashes_of_noChannels hsize hcount hpos hzero
      · by_cases hvalid :
          ∀ i < call.copy.count.toNat, ∀ seg, call.copy.segment i = some seg → seg.Valid
        · refine crashes_of_total hsize hchannels hnum hcount hpos hvalid ?_
          by_contra hcopied
          exact hrest ⟨hsize, hnum, hcount, hvalid, not_le.mp hcopied⟩
        · push Not at hvalid
          exact crashes_of_invalid hsize hchannels hnum hcount hvalid

/-- Exactly the accepted calls are safe. -/
theorem safe_iff {channels : DmaChannels} (hreach : channels.Reachable) (base : PageTables)
    (copy : UffdioDmaCopy) :
    (DmaCall.mk channels base copy).Safe ↔ (DmaCall.mk channels base copy).Accepted := by
  constructor
  · intro hsafe
    by_contra hnot
    exact (crashes_of_not_accepted hreach.wf hnot).not_safe hsafe
  · exact fun haccepted => haccepted.safe hreach.wf

end DmaCall

/-! A batch of one segment without bytes, after the request for channels that
the page manager makes when it starts. -/

def startupChannels : DmaChannels := DmaChannels.initial.dmaRequestChanns 2 (1024 * 1024) some

theorem startupChannels_reachable : startupChannels.Reachable := by
  have hinitial : DmaChannels.initial.Reachable := .start rfl
  have hstep : channelStep .initial (.requestChanns 2 (1024 * 1024) some) =
      some startupChannels := rfl
  exact hinitial.tail hstep

def emptySegment : UffdioDmaCopy where
  dst := fun _ => 0
  src := fun _ => 0
  len := fun _ => 0
  count := 1

theorem safe_iff_emptySegment : ¬(DmaCall.mk startupChannels (fun _ => none) emptySegment).Safe := by
  intro hsafe
  rcases (DmaCall.safe_iff startupChannels_reachable _ _).mp hsafe with hzero | ⟨_, _, hwf⟩
  · exact absurd hzero (by decide)
  · exact absurd hwf.total (by decide)

/-- The segment without bytes runs into an assertion. -/
theorem emptySegment_crashes :
    startupChannels.Reachable ∧
      ¬(DmaCall.mk startupChannels (fun _ => none) emptySegment).Safe := by
  refine ⟨startupChannels_reachable, DmaCall.Crashes.not_safe ?_⟩
  exact ⟨_, .bugOn, ⟨_, [.call, .advance, .advance], rfl, rfl⟩, rfl⟩

end ArmsTiering
