import ArmsTiering.Core.Transition
import ArmsTiering.Pebs.Page

/-!
# Hot-change detection and the sampling period

The part of `pebs_policy_thread` that measures bandwidth, runs the
Page-Hinkley test, chooses the score bias and, at the end of the interval,
switches the sampling mode.  `update_sampling_frequency` reads the mode as a
global; the policy thread calls it before it assigns the new mode, so the
period that reaches the counters is the one of the mode being left.
-/

namespace ArmsTiering

open scoped CFloat

/-- `hist_bias` or `recn_bias`, the array that `bias` points to. -/
inductive Bias
  | hist
  | recn
  deriving DecidableEq, Repr

/-- `enum sampling_modes` -/
inductive SamplingMode
  | defaultSampling
  | highFidelity
  deriving DecidableEq, Repr

/-! ## Parameters -/

def hcdEwmaAlpha : ℚ := 1 / 10
def hcdStdAlpha : ℚ := 1 / 5
def hcdRecnMaxPeriods : ℕ := 20
def hcdRecnMinNvmBw : ℚ := 3 / 10
def hcdPhDrift : ℚ := 1 / 2
def hcdPhThreshold : ℚ := 6
def cachelineSize : ℕ := 64
def dramBwKnee : ℚ := 25
def nvmRdBwKnee : ℚ := 15
def nvmWrBwKnee : ℚ := 15
def dramBwSlope : ℚ := 6 / 1000
def nvmBwSlope : ℚ := 9 / 100
def unloadedDramLat : ℚ := 1 / 10
def unloadedNvmLat : ℚ := 1 / 4

/-- `PEBS_NPROCS` -/
def pebsNprocs : ℕ := 30

variable {F : Type} [CFloat F]

/-- The detector's variables: two globals and the locals of the policy thread
that survive from one interval to the next. -/
structure Detector (F : Type) where
  curDramBw : F
  curNvmBw : F
  dramBwEwma : F
  nvmBwEwma : F
  nvmBwStd : F
  cusum : F
  timeSinceRecn : ℕ
  bias : Bias
  batchSize : F
  latencyDiff : F

/-- The initial values of these variables. -/
def initDetector : Detector F where
  curDramBw := CFloat.ofRat 0
  curNvmBw := CFloat.ofRat 0
  dramBwEwma := CFloat.ofRat 0
  nvmBwEwma := CFloat.ofRat 0
  nvmBwStd := CFloat.ofRat 0
  cusum := CFloat.ofRat 0
  timeSinceRecn := 0
  bias := .hist
  batchSize := CFloat.ofNat numMigrationThreads
  latencyDiff := CFloat.ofRat (unloadedDramLat - unloadedNvmLat)

/-- What `measure_bw` returned for the two tiers: cache lines since the last
measurement. -/
structure Measurement where
  dramLines : ℕ
  nvmLines : ℕ

/-- A count of cache lines in gigabytes. -/
def linesToGb (lines : ℕ) : F :=
  (CFloat.ofNat lines * CFloat.ofNat cachelineSize) / CFloat.ofNat (1024 * 1024 * 1024)

/-- The bandwidth averages, before the Page-Hinkley test. -/
def updateBandwidth (det : Detector F) (m : Measurement) : Detector F :=
  let one : F := CFloat.ofRat 1
  let curDramBw : F := linesToGb m.dramLines
  let curNvmBw : F := linesToGb m.nvmLines
  let ewmaAlpha : F := CFloat.ofRat hcdEwmaAlpha
  let stdAlpha : F := CFloat.ofRat hcdStdAlpha
  let dramBwEwma := (one - ewmaAlpha) * det.dramBwEwma + ewmaAlpha * curDramBw
  let nvmBwEwma := (one - ewmaAlpha) * det.nvmBwEwma + ewmaAlpha * curNvmBw
  let nvmBwVar := (one - stdAlpha) * det.nvmBwStd * det.nvmBwStd +
    stdAlpha * (curNvmBw - nvmBwEwma) * (curNvmBw - nvmBwEwma)
  let nvmBwStd := CFloat.sqrtf (CFloat.fmaxf nvmBwVar (CFloat.ofRat (1 / 10 ^ 12)))
  { det with
    curDramBw := curDramBw
    curNvmBw := curNvmBw
    dramBwEwma := dramBwEwma
    nvmBwEwma := nvmBwEwma
    nvmBwStd := nvmBwStd }

/-- The Page-Hinkley statistic after the bandwidth update. -/
def pageHinkleyCusum (det : Detector F) : F :=
  CFloat.fmaxf
    (det.cusum + ((det.curNvmBw - det.nvmBwEwma) - CFloat.ofRat hcdPhDrift * det.nvmBwStd))
    (CFloat.ofRat 0)

/-- `cusum > threshold` -/
def pageHinkleyFires (det : Detector F) : Bool :=
  CFloat.lt (CFloat.ofRat hcdPhThreshold * det.nvmBwStd) (pageHinkleyCusum det)

/-- The Page-Hinkley test and the choice of the bias. -/
def pageHinkleyTest (det : Detector F) : Detector F :=
  let cusum := pageHinkleyCusum det
  if pageHinkleyFires det then
    if det.bias = .hist ∧ CFloat.lt (CFloat.ofRat hcdRecnMinNvmBw) det.curNvmBw then
      { det with bias := .recn, timeSinceRecn := 0, cusum := CFloat.ofRat 0 }
    else
      { det with cusum := CFloat.ofRat 0 }
  else if det.bias = .recn then
    let timeSinceRecn := (det.timeSinceRecn + 1) % 2 ^ 32
    if hcdRecnMaxPeriods ≤ timeSinceRecn ∧ CFloat.le cusum (CFloat.ofRat 0) then
      { det with bias := .hist, timeSinceRecn := 0, cusum := cusum }
    else
      { det with timeSinceRecn := timeSinceRecn, cusum := cusum }
  else
    { det with cusum := cusum }

/-- The batch size and the latency estimate that close the measuring block. -/
def updateBatchAndLatency (det : Detector F) : Detector F :=
  let knee : F := CFloat.ofRat nvmWrBwKnee
  let batchSize := CFloat.floor
    (((knee - det.curNvmBw) / knee) * CFloat.ofNat numMigrationThreads)
  let batchSize :=
    if CFloat.lt batchSize (CFloat.ofRat 1) then CFloat.ofRat 1 else batchSize
  let dramLat : F := CFloat.ofRat unloadedDramLat
  let dramLat :=
    if CFloat.lt (CFloat.ofRat dramBwKnee) det.dramBwEwma then
      dramLat + (det.dramBwEwma - CFloat.ofRat dramBwKnee) * CFloat.ofRat dramBwSlope
    else dramLat
  let nvmLat : F := CFloat.ofRat unloadedNvmLat
  let nvmLat :=
    if CFloat.lt (CFloat.ofRat nvmRdBwKnee) det.nvmBwEwma then
      nvmLat + (det.nvmBwEwma - CFloat.ofRat nvmRdBwKnee) * CFloat.ofRat nvmBwSlope
    else nvmLat
  { det with batchSize := batchSize, latencyDiff := nvmLat - dramLat }

/-- The measuring block of one interval. -/
def measureBandwidth (det : Detector F) (m : Measurement) : Detector F :=
  updateBatchAndLatency (pageHinkleyTest (updateBandwidth det m))

/-- The CPUs on which `pebs_init` opens counters. -/
def monitored (cpu : Fin pebsNprocs) : Prop := ¬ (10 ≤ cpu.val ∧ cpu.val < 20)

instance (cpu : Fin pebsNprocs) : Decidable (monitored cpu) :=
  inferInstanceAs (Decidable (¬ _))

/-- The period last programmed into each open counter; `none` where there is
no counter. -/
abbrev CounterPeriods := Fin pebsNprocs → PbufType → Option ℕ

/-- `perf_setup` on every monitored CPU and event. -/
def perfSetup : CounterPeriods := fun cpu _ =>
  if monitored cpu then some defaultSamplePeriod else none

/-- `update_sampling_frequency`: one `PERF_EVENT_IOC_PERIOD` per open counter,
with the period chosen by the mode that the global holds at the call. -/
def updateSamplingFrequency (samplingMode : SamplingMode) (periods : CounterPeriods) :
    CounterPeriods :=
  let samplePeriod :=
    if samplingMode = .highFidelity then hfSamplePeriod else defaultSamplePeriod
  fun cpu type => if monitored cpu then some samplePeriod else periods cpu type

/-- State of the policy thread at the end of an interval, as far as sampling
depends on it. -/
structure SamplingState (F : Type) where
  globalVersion : ℕ
  detector : Detector F
  samplingMode : SamplingMode
  periods : CounterPeriods

def initSampling : SamplingState F where
  globalVersion := 0
  detector := initDetector
  samplingMode := .defaultSampling
  periods := perfSetup

/-- The mode switch at `loop_end`. -/
def switchSamplingMode (s : SamplingState F) : SamplingState F :=
  if s.detector.bias = .recn ∧ s.samplingMode ≠ .highFidelity then
    { s with
      periods := updateSamplingFrequency s.samplingMode s.periods
      samplingMode := .highFidelity }
  else if s.detector.bias = .hist ∧ s.samplingMode ≠ .defaultSampling then
    { s with
      periods := updateSamplingFrequency s.samplingMode s.periods
      samplingMode := .defaultSampling }
  else s

/-- Does the interval that starts now measure the bandwidth?  `period` is
`policy_thread_period` in microseconds. -/
def measuresNow (period globalVersion : ℕ) : Bool :=
  (globalVersion + 1) % 2 ^ 64 % (1000000 / period) = 0

/-- The detector after the interval's measuring block, which not every
interval runs. -/
def detectorStep (period globalVersion : ℕ) (det : Detector F) (m : Measurement) :
    Detector F :=
  if measuresNow period globalVersion then measureBandwidth det m else det

/-- One interval of the policy thread. -/
def samplingInterval (period : ℕ) (s : SamplingState F) (m : Measurement) :
    SamplingState F :=
  switchSamplingMode
    { s with
      globalVersion := (s.globalVersion + 1) % 2 ^ 64
      detector := detectorStep period s.globalVersion s.detector m }

/-- The factor by which `update_window` scales the counts. -/
def windowScale : SamplingMode → ℕ
  | .defaultSampling => defaultSamplePeriod / hfSamplePeriod
  | .highFidelity => 1

/-- The period that belongs to a sampling mode. -/
def expectedPeriod : SamplingMode → ℕ
  | .defaultSampling => defaultSamplePeriod
  | .highFidelity => hfSamplePeriod

/-- Every counter runs at the period of the current mode, so that the scaling
of `update_window` is applied exactly when they run at the default period. -/
def PeriodMatchesMode (s : SamplingState F) : Prop :=
  ∀ cpu type, monitored cpu →
    s.periods cpu type = some (expectedPeriod s.samplingMode) ∧
      (windowScale s.samplingMode = defaultSamplePeriod / hfSamplePeriod ↔
        s.periods cpu type = some defaultSamplePeriod)

/-! ## The first switch -/

/-- The interval runs the Page-Hinkley test and the test moves the bias from
`hist_bias` to `recn_bias`. -/
def entersRecn (period : ℕ) (s : SamplingState F) (m : Measurement) : Prop :=
  measuresNow period s.globalVersion = true ∧ s.detector.bias = .hist ∧
    pageHinkleyFires (updateBandwidth s.detector m) = true ∧
    CFloat.lt (CFloat.ofRat hcdRecnMinNvmBw) (updateBandwidth s.detector m).curNvmBw = true

theorem updateBandwidth_bias (det : Detector F) (m : Measurement) :
    (updateBandwidth det m).bias = det.bias := rfl

theorem updateBatchAndLatency_bias (det : Detector F) :
    (updateBatchAndLatency det).bias = det.bias := rfl

/-- Out of `hist_bias` the test reaches `recn_bias` only by firing at enough
NVM bandwidth. -/
theorem pageHinkleyTest_bias (det : Detector F) (hbias : det.bias = .hist) :
    (pageHinkleyTest det).bias =
      if pageHinkleyFires det = true ∧
          CFloat.lt (CFloat.ofRat hcdRecnMinNvmBw) det.curNvmBw = true
      then .recn else .hist := by
  by_cases hfires : pageHinkleyFires det = true
  · by_cases hbw : CFloat.lt (CFloat.ofRat hcdRecnMinNvmBw) det.curNvmBw = true
    · simp [pageHinkleyTest, hfires, hbias, hbw]
    · simp [pageHinkleyTest, hfires, hbias, hbw]
  · simp [pageHinkleyTest, hfires, hbias]

/-- Spec of one interval that starts under `hist_bias`. -/
theorem detectorStep_bias (period : ℕ) (s : SamplingState F) (m : Measurement)
    (hbias : s.detector.bias = .hist) :
    (entersRecn period s m ∧
        (detectorStep period s.globalVersion s.detector m).bias = .recn) ∨
      (¬ entersRecn period s m ∧
        (detectorStep period s.globalVersion s.detector m).bias = .hist) := by
  by_cases hmeasures : measuresNow period s.globalVersion = true
  · have hbw : (updateBandwidth s.detector m).bias = .hist := by
      rw [updateBandwidth_bias, hbias]
    have htest := pageHinkleyTest_bias (updateBandwidth s.detector m) hbw
    by_cases henters : entersRecn period s m
    · refine Or.inl ⟨henters, ?_⟩
      rw [if_pos henters.2.2] at htest
      simpa [detectorStep, hmeasures, measureBandwidth, updateBatchAndLatency_bias] using htest
    · refine Or.inr ⟨henters, ?_⟩
      have hnot : ¬ (pageHinkleyFires (updateBandwidth s.detector m) = true ∧
          CFloat.lt (CFloat.ofRat hcdRecnMinNvmBw)
            (updateBandwidth s.detector m).curNvmBw = true) :=
        fun hfires => henters ⟨hmeasures, hbias, hfires⟩
      rw [if_neg hnot] at htest
      simpa [detectorStep, hmeasures, measureBandwidth, updateBatchAndLatency_bias] using htest
  · refine Or.inr ⟨fun henters => hmeasures henters.1, ?_⟩
    simpa [detectorStep, hmeasures] using hbias

/-- No switch has happened yet. -/
structure NeverSwitched (s : SamplingState F) : Prop where
  bias : s.detector.bias = .hist
  samplingMode : s.samplingMode = .defaultSampling
  periods : s.periods = perfSetup

theorem neverSwitched_init : NeverSwitched (initSampling : SamplingState F) :=
  ⟨rfl, rfl, rfl⟩

omit [CFloat F] in
theorem NeverSwitched.matches {s : SamplingState F} (hs : NeverSwitched s) :
    PeriodMatchesMode s := by
  intro cpu type hcpu
  have hperiod : s.periods cpu type = some defaultSamplePeriod := by
    rw [hs.periods, perfSetup, if_pos hcpu]
  rw [hs.samplingMode]
  exact ⟨hperiod, fun _ => hperiod, fun _ => rfl⟩

/-- An interval without a hot change leaves mode and periods alone. -/
theorem NeverSwitched.interval {period : ℕ} {s : SamplingState F} {m : Measurement}
    (hs : NeverSwitched s) (hquiet : ¬ entersRecn period s m) :
    NeverSwitched (samplingInterval period s m) := by
  obtain ⟨henters, -⟩ | ⟨-, hbias⟩ := detectorStep_bias period s m hs.bias
  · exact absurd henters hquiet
  · have hkeeps : samplingInterval period s m =
        { s with
          globalVersion := (s.globalVersion + 1) % 2 ^ 64
          detector := detectorStep period s.globalVersion s.detector m } := by
      simp [samplingInterval, switchSamplingMode, hbias, hs.samplingMode]
    rw [hkeeps]
    exact ⟨hbias, hs.samplingMode, hs.periods⟩

/-- The first hot change programs the default period and enters the
high-fidelity mode. -/
theorem NeverSwitched.mismatch {period : ℕ} {s : SamplingState F} {m : Measurement}
    (hs : NeverSwitched s) (henters : entersRecn period s m) :
    ¬ PeriodMatchesMode (samplingInterval period s m) := by
  obtain ⟨-, hbias⟩ | ⟨hquiet, -⟩ := detectorStep_bias period s m hs.bias
  · have hswitch : (samplingInterval period s m).samplingMode = .highFidelity ∧
        (samplingInterval period s m).periods =
          updateSamplingFrequency .defaultSampling s.periods := by
      simp [samplingInterval, switchSamplingMode, hbias, hs.samplingMode]
    intro hmatches
    have hcpu : monitored ⟨0, by decide⟩ := by decide
    have hperiod := (hmatches ⟨0, by decide⟩ .write hcpu).1
    rw [hswitch.1, hswitch.2] at hperiod
    simp [updateSamplingFrequency, hcpu, expectedPeriod, defaultSamplePeriod,
      hfSamplePeriod] at hperiod
  · exact absurd henters hquiet

/-- Intervals as steps of a run: the action is the interval's measurement. -/
def samplingStep (period : ℕ) (s : SamplingState F) (m : Measurement) :
    Option (SamplingState F) :=
  some (samplingInterval period s m)

/-- The programmed period matches the sampling mode at the end of every
interval exactly when no interval detects a hot change: the detector never
moves the bias to `recn_bias`. -/
theorem periodMatchesMode_iff_never_entersRecn (F : Type) [CFloat F] (period : ℕ)
    (measurements : List Measurement) :
    Transition.Along (samplingStep period) PeriodMatchesMode
        (initSampling : SamplingState F) measurements ↔
      Transition.Meets (samplingStep period) (fun s m => ¬ entersRecn period s m)
        (initSampling : SamplingState F) measurements := by
  refine Transition.along_iff_meets NeverSwitched ?_ ?_ ?_ neverSwitched_init
  · intro s hs
    exact hs.matches
  · intro s m next hs hquiet hnext
    obtain rfl : samplingInterval period s m = next := by
      simpa [samplingStep] using hnext
    exact hs.interval hquiet
  · intro s m next hs hnext hmatches henters
    obtain rfl : samplingInterval period s m = next := by
      simpa [samplingStep] using hnext
    exact hs.mismatch henters hmatches

theorem run_samplingStep (period : ℕ) (s : SamplingState F)
    (measurements : List Measurement) :
    Transition.run (samplingStep period) s measurements =
      some (measurements.foldl (samplingInterval period) s) := by
  induction measurements generalizing s with
  | nil => rfl
  | cons m measurements ih =>
      simp only [Transition.run, samplingStep, Option.bind_some, List.foldl_cons]
      exact ih _

/-- Nine seconds at a steady 1 GB/s of NVM traffic from a cold start: the
ninth measurement fires the test, the counters keep the default period and
`update_window` stops scaling. -/
theorem steadyBandwidth_mismatch :
    ¬ ∀ measurements : List Measurement,
      Transition.Along (samplingStep 500000) PeriodMatchesMode
        (initSampling : SamplingState ℚ) measurements := by
  intro hall
  have halong := hall (List.replicate 18 ⟨0, 16777216⟩)
  have hfinal := halong.of_run (run_samplingStep _ _ _)
  have hvalues :
      ((List.replicate 18 ⟨0, 16777216⟩).foldl (samplingInterval 500000)
        (initSampling : SamplingState ℚ)).samplingMode = .highFidelity ∧
      ((List.replicate 18 ⟨0, 16777216⟩).foldl (samplingInterval 500000)
        (initSampling : SamplingState ℚ)).periods ⟨0, by decide⟩ .write =
          some defaultSamplePeriod := by
    decide +kernel
  have hperiod := (hfinal ⟨0, by decide⟩ .write (by decide)).1
  rw [hvalues.1, hvalues.2] at hperiod
  exact absurd hperiod (by decide)

end ArmsTiering
