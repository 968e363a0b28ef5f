import ArmsTiering.Core.Transition
import ArmsTiering.Kdq.Queue
import ArmsTiering.Pebs.Page

/-!
# Add and remove records in flight

Any number of threads push records on `mod_page_dq` under its lock.  The policy
thread shifts a record under the lock but reads it after the unlock, through
the pointer that `kdq_shift` returned; a push in between may reuse the slot or
move the array.  The file characterises the interleavings in which the records
acted on are the records pushed, in order.
-/

namespace ArmsTiering

/-- Where the policy thread is between two shifts. -/
inductive RecordReader
  | idle
  | shifted (mp : SlotPtr)
  | pageRead (mp : SlotPtr) (page : PageId)

def RecordReader.mp : RecordReader → Option SlotPtr
  | .idle => none
  | .shifted mp => some mp
  | .pageRead mp _ => some mp

/-- The queue, the policy thread, and the history: the records it acted on and
the records pushed, oldest first. -/
structure RecordState where
  modPageDq : Kdq ModPage
  reader : RecordReader
  acted : List ModPage
  pushed : List ModPage

/-- Atomic steps.  A read through a pointer into a block that `realloc` has
freed returns whatever the step carries. -/
inductive RecordAction
  | push (record : ModPage)
  | shift
  | readPage (garbage : PageId)
  | readFree (garbage : Bool)

/-- The record behind a pointer, while its block lives. -/
def deref (q : Kdq ModPage) (mp : SlotPtr) : Option ModPage :=
  if mp.storage = q.storage then some (q.a mp.index) else none

def recordStep (s : RecordState) : RecordAction → Option RecordState
  | .push record =>
      some { s with
        modPageDq := kdqPush s.modPageDq record
        pushed := s.pushed ++ [record] }
  | .shift =>
      match s.reader with
      | .idle =>
          (kdqShift s.modPageDq).map fun shifted =>
            { s with reader := .shifted shifted.1, modPageDq := shifted.2 }
      | _ => none
  | .readPage garbage =>
      match s.reader with
      | .shifted mp =>
          let page := ((deref s.modPageDq mp).map ModPage.page).getD garbage
          some { s with reader := .pageRead mp page }
      | _ => none
  | .readFree garbage =>
      match s.reader with
      | .pageRead mp page =>
          let free := ((deref s.modPageDq mp).map ModPage.free).getD garbage
          some { s with reader := .idle, acted := s.acted ++ [⟨page, free⟩] }
      | _ => none

/-- The drain starts on any well-formed queue. -/
def recordStart (q : Kdq ModPage) : RecordState where
  modPageDq := q
  reader := .idle
  acted := []
  pushed := q.toList

/-- What the policy thread acts on if it reads the rest from `record`. -/
def RecordReader.unread : RecordReader → ModPage → List ModPage
  | .idle, _ => []
  | .shifted _, record => [record]
  | .pageRead _ page, record => [⟨page, record.free⟩]

/-- What the policy thread would act on if it finished reading now; undefined
when it holds a pointer into freed storage. -/
def RecordState.inHand (s : RecordState) : Option (List ModPage) :=
  match s.reader.mp with
  | none => some []
  | some mp => (deref s.modPageDq mp).map s.reader.unread

/-- The records acted on, the one in hand and the queued ones are exactly the
records pushed, each once and in push order. -/
def InPushOrder (s : RecordState) : Prop :=
  ∃ inHand, s.inHand = some inHand ∧
    s.acted ++ inHand ++ s.modPageDq.toList = s.pushed

/-- A push while a shifted record is unread finds a second free slot, or the
last free slot, which is the unread one, and writes the same value there. -/
def KeepsUnread (s : RecordState) : RecordAction → Prop
  | .push record =>
      ∀ mp, s.reader.mp = some mp →
        s.modPageDq.count + 1 < 2 ^ s.modPageDq.bits ∨
          (s.modPageDq.count + 1 = 2 ^ s.modPageDq.bits ∧
            s.reader.unread record = s.reader.unread (s.modPageDq.a mp.index))
  | _ => True

/-- With `index` the slot just before the front, a push reuses it exactly when
it fills the array. -/
theorem push_slot_eq_iff {size front count index : ℕ} (hindex : index < size)
    (hfront : front = (index + 1) % size) (hcount : count < size) :
    (count + front) % size = index ↔ count + 1 = size := by
  by_cases hlast : index + 1 = size
  · have hzero : front = 0 := by rw [hfront, hlast, Nat.mod_self]
    rw [hzero, Nat.add_zero, Nat.mod_eq_of_lt hcount]
    omega
  · have hnext : front = index + 1 := by
      rw [hfront, Nat.mod_eq_of_lt (by omega)]
    by_cases hwraps : count + front < size
    · rw [Nat.mod_eq_of_lt hwraps]
      omega
    · rw [Nat.mod_eq_sub_mod (by omega), Nat.mod_eq_of_lt (by omega)]
      omega

structure RecordInv (s : RecordState) : Prop where
  wf : s.modPageDq.Wf
  order : InPushOrder s
  slot : ∀ mp, s.reader.mp = some mp →
    mp.index < 2 ^ s.modPageDq.bits ∧
      s.modPageDq.front = (mp.index + 1) % 2 ^ s.modPageDq.bits

theorem recordInv_start {q : Kdq ModPage} (hwf : q.Wf) : RecordInv (recordStart q) where
  wf := hwf
  order := ⟨[], rfl, rfl⟩
  slot mp hmp := by simp [recordStart, RecordReader.mp] at hmp

theorem deref_of_live {q : Kdq ModPage} {mp : SlotPtr} (hlive : mp.storage = q.storage) :
    deref q mp = some (q.a mp.index) := if_pos hlive

theorem RecordInv.live {s : RecordState} (hinv : RecordInv s) {mp : SlotPtr}
    (hmp : s.reader.mp = some mp) : mp.storage = s.modPageDq.storage := by
  obtain ⟨inHand, hinHand, -⟩ := hinv.order
  by_contra hdead
  simp [RecordState.inHand, hmp, deref, hdead] at hinHand

/-- The record in hand, spelled out. -/
theorem RecordInv.order_eq {s : RecordState} (hinv : RecordInv s) {mp : SlotPtr}
    (hmp : s.reader.mp = some mp) :
    s.acted ++ s.reader.unread (s.modPageDq.a mp.index) ++ s.modPageDq.toList = s.pushed := by
  obtain ⟨inHand, hinHand, horder⟩ := hinv.order
  simp only [RecordState.inHand, hmp, deref_of_live (hinv.live hmp), Option.map_some,
    Option.some.injEq] at hinHand
  rw [hinHand]
  exact horder

theorem RecordReader.length_unread (reader : RecordReader) (left right : ModPage) :
    (reader.unread left).length = (reader.unread right).length := by
  cases reader <;> rfl

/-! ## One push -/

section Push

variable {s : RecordState} (record : ModPage)

def afterPush (s : RecordState) (record : ModPage) : RecordState :=
  { s with
    modPageDq := kdqPush s.modPageDq record
    pushed := s.pushed ++ [record] }

/-- A push into an array with room writes one slot and moves nothing. -/
theorem kdqPush_of_lt {q : Kdq ModPage} (hwf : q.Wf) (hroom : q.count < 2 ^ q.bits) :
    kdqPush q record =
      { q with
        a := Function.update q.a ((q.count + q.front) % 2 ^ q.bits) record
        count := q.count + 1 } := by
  rw [kdqPush, kdqGrow_of_lt hroom]
  simp only [hwf.and_mask]

/-- A push into a full array leaves the pointer dangling. -/
theorem RecordInv.push_full (hinv : RecordInv s) {mp : SlotPtr}
    (hmp : s.reader.mp = some mp) (hfull : s.modPageDq.count = 2 ^ s.modPageDq.bits) :
    ¬ InPushOrder (afterPush s record) := by
  rintro ⟨inHand, hinHand, -⟩
  have hstorage : (kdqPush s.modPageDq record).storage = s.modPageDq.storage + 1 :=
    (kdqGrow_of_full hfull).2.2
  have hdead : ¬ mp.storage = s.modPageDq.storage + 1 := by
    rw [hinv.live hmp]
    omega
  simp [RecordState.inHand, afterPush, hmp, deref, hstorage, hdead] at hinHand

/-- The push that fills the array overwrites the slot still to be read. -/
theorem RecordInv.push_fills (hinv : RecordInv s) {mp : SlotPtr}
    (hmp : s.reader.mp = some mp)
    (hfills : s.modPageDq.count + 1 = 2 ^ s.modPageDq.bits) :
    InPushOrder (afterPush s record) ↔
      s.reader.unread record = s.reader.unread (s.modPageDq.a mp.index) := by
  obtain ⟨hindex, hfront⟩ := hinv.slot mp hmp
  have hslot := (push_slot_eq_iff hindex hfront (by omega)).mpr hfills
  have hpush := kdqPush_of_lt record hinv.wf (by omega)
  have hlist := (hinv.wf.push record).2
  have hold := hinv.order_eq hmp
  have hinHand : (afterPush s record).inHand = some (s.reader.unread record) := by
    simp [RecordState.inHand, afterPush, hmp, hpush, deref, hinv.live hmp, hslot]
  constructor
  · rintro ⟨inHand, hnow, horder⟩
    obtain rfl : s.reader.unread record = inHand := by
      simpa [hinHand] using hnow
    simp only [afterPush] at horder
    rw [hlist, ← hold, ← List.append_assoc] at horder
    have hshort := List.append_cancel_right horder
    have hhand := List.append_cancel_right hshort
    exact List.append_cancel_left hhand
  · intro hsame
    refine ⟨_, hinHand, ?_⟩
    simp only [afterPush]
    rw [hlist, ← hold, hsame]
    simp only [List.append_assoc]

/-- With two free slots the unread slot survives the push. -/
theorem RecordInv.push_room (hinv : RecordInv s) {mp : SlotPtr}
    (hmp : s.reader.mp = some mp)
    (hroom : s.modPageDq.count + 1 < 2 ^ s.modPageDq.bits) :
    InPushOrder (afterPush s record) := by
  obtain ⟨hindex, hfront⟩ := hinv.slot mp hmp
  have hslot : ¬ mp.index =
      (s.modPageDq.count + s.modPageDq.front) % 2 ^ s.modPageDq.bits := by
    intro heq
    have := (push_slot_eq_iff hindex hfront (by omega)).mp heq.symm
    omega
  have hpush := kdqPush_of_lt record hinv.wf (by omega)
  have hlist := (hinv.wf.push record).2
  refine ⟨s.reader.unread (s.modPageDq.a mp.index), ?_, ?_⟩
  · simp [RecordState.inHand, afterPush, hmp, hpush, deref, hinv.live hmp,
      Function.update_of_ne hslot]
  · simp only [afterPush]
    rw [hlist, ← hinv.order_eq hmp]
    simp only [List.append_assoc]

theorem push_idle (hinv : RecordInv s) (hmp : s.reader.mp = none) :
    InPushOrder (afterPush s record) := by
  obtain ⟨inHand, hinHand, horder⟩ := hinv.order
  obtain rfl : [] = inHand := by
    simpa [RecordState.inHand, hmp] using hinHand
  refine ⟨[], by simp [RecordState.inHand, afterPush, hmp], ?_⟩
  simp only [afterPush]
  rw [(hinv.wf.push record).2, ← horder]
  simp only [List.append_assoc]

/-- One push keeps the order exactly when it keeps what is unread. -/
theorem RecordInv.push_iff (hinv : RecordInv s) :
    InPushOrder (afterPush s record) ↔ KeepsUnread s (.push record) := by
  cases hmp : s.reader.mp with
  | none => simp [KeepsUnread, hmp, push_idle record hinv hmp]
  | some mp =>
      have hcount := hinv.wf.count
      simp only [KeepsUnread, hmp, Option.some.injEq, forall_eq']
      by_cases hroom : s.modPageDq.count + 1 < 2 ^ s.modPageDq.bits
      · simp [hroom, hinv.push_room record hmp hroom]
      · by_cases hfills : s.modPageDq.count + 1 = 2 ^ s.modPageDq.bits
        · simp [hfills, hinv.push_fills record hmp hfills]
        · simp [hroom, hfills, hinv.push_full record hmp (by omega)]

theorem RecordInv.push (hinv : RecordInv s) (hkeeps : KeepsUnread s (.push record)) :
    RecordInv (afterPush s record) where
  wf := (hinv.wf.push record).1
  order := (hinv.push_iff record).mpr hkeeps
  slot mp hmp := by
    have hmp' : s.reader.mp = some mp := hmp
    have hroom : s.modPageDq.count < 2 ^ s.modPageDq.bits := by
      obtain hroom | ⟨hfills, -⟩ := hkeeps mp hmp' <;> omega
    simp only [afterPush, kdqPush_of_lt record hinv.wf hroom]
    exact hinv.slot mp hmp'

end Push

/-! ## The policy thread's own steps -/

theorem RecordInv.shift {s : RecordState} (hinv : RecordInv s) (hreader : s.reader = .idle)
    {mp : SlotPtr} {q' : Kdq ModPage} (hshift : kdqShift s.modPageDq = some (mp, q')) :
    RecordInv { s with reader := .shifted mp, modPageDq := q' } := by
  obtain ⟨hwf, hlist, ha, hstorage, hlive, hbits, hfront, hindex⟩ := hinv.wf.shift hshift
  obtain ⟨inHand, hinHand, horder⟩ := hinv.order
  obtain rfl : [] = inHand := by
    simpa [RecordState.inHand, hreader, RecordReader.mp] using hinHand
  refine ⟨hwf, ⟨[s.modPageDq.a mp.index], ?_, ?_⟩, ?_⟩
  · simp [RecordState.inHand, RecordReader.mp, RecordReader.unread, deref, hlive, hstorage, ha]
  · simpa [hlist] using horder
  · intro mp' hmp'
    obtain rfl : mp = mp' := by simpa [RecordReader.mp] using hmp'
    simp only [hbits]
    exact ⟨hindex, hfront⟩

theorem RecordInv.readPage {s : RecordState} (hinv : RecordInv s) {mp : SlotPtr}
    (hreader : s.reader = .shifted mp) :
    RecordInv { s with reader := .pageRead mp (s.modPageDq.a mp.index).page } := by
  have hmp : s.reader.mp = some mp := by rw [hreader, RecordReader.mp]
  have horder := hinv.order_eq hmp
  rw [hreader] at horder
  refine ⟨hinv.wf, ⟨_, ?_, horder⟩, fun mp' hmp' => hinv.slot mp' (hmp.trans hmp')⟩
  simp [RecordState.inHand, RecordReader.mp, RecordReader.unread, deref, hinv.live hmp]

theorem RecordInv.readFree {s : RecordState} (hinv : RecordInv s) {mp : SlotPtr}
    {page : PageId} (hreader : s.reader = .pageRead mp page) :
    RecordInv { s with
      reader := .idle
      acted := s.acted ++ [⟨page, (s.modPageDq.a mp.index).free⟩] } := by
  have hmp : s.reader.mp = some mp := by rw [hreader, RecordReader.mp]
  have horder := hinv.order_eq hmp
  rw [hreader] at horder
  refine ⟨hinv.wf, ⟨[], rfl, ?_⟩, ?_⟩
  · simpa [RecordReader.unread] using horder
  · intro mp' hmp'
    simp [RecordReader.mp] at hmp'

/-- Step lemma: a step that keeps what is unread preserves the invariant. -/
theorem RecordInv.step {s next : RecordState} {action : RecordAction} (hinv : RecordInv s)
    (hkeeps : KeepsUnread s action) (hstep : recordStep s action = some next) :
    RecordInv next := by
  cases action with
  | push record =>
      obtain rfl : afterPush s record = next := by simpa [recordStep, afterPush] using hstep
      exact hinv.push record hkeeps
  | shift =>
      cases hreader : s.reader with
      | idle =>
          simp only [recordStep, hreader, Option.map_eq_some_iff] at hstep
          obtain ⟨⟨mp, q'⟩, hshift, rfl⟩ := hstep
          exact hinv.shift hreader hshift
      | shifted mp => simp [recordStep, hreader] at hstep
      | pageRead mp page => simp [recordStep, hreader] at hstep
  | readPage garbage =>
      cases hreader : s.reader with
      | idle => simp [recordStep, hreader] at hstep
      | shifted mp =>
          have hmp : s.reader.mp = some mp := by rw [hreader, RecordReader.mp]
          simp only [recordStep, hreader, deref_of_live (hinv.live hmp), Option.map_some,
            Option.getD_some, Option.some.injEq] at hstep
          rw [← hstep]
          exact hinv.readPage hreader
      | pageRead mp page => simp [recordStep, hreader] at hstep
  | readFree garbage =>
      cases hreader : s.reader with
      | idle => simp [recordStep, hreader] at hstep
      | shifted mp => simp [recordStep, hreader] at hstep
      | pageRead mp page =>
          have hmp : s.reader.mp = some mp := by rw [hreader, RecordReader.mp]
          simp only [recordStep, hreader, deref_of_live (hinv.live hmp), Option.map_some,
            Option.getD_some, Option.some.injEq] at hstep
          rw [← hstep]
          exact hinv.readFree hreader

/-- From every queue state: the records acted on, in hand and queued are the
records pushed, in order, all along the run exactly when every push keeps what
is unread. -/
theorem inPushOrder_iff_keepsUnread (q : {q : Kdq ModPage // q.Wf})
    (actions : List RecordAction) :
    Transition.Along recordStep InPushOrder (recordStart q.1) actions ↔
      Transition.Meets recordStep KeepsUnread (recordStart q.1) actions := by
  refine Transition.along_iff_meets RecordInv ?_ ?_ ?_ (recordInv_start q.2)
  · intro s hinv
    exact hinv.order
  · intro s action next hinv hkeeps hstep
    exact hinv.step hkeeps hstep
  · intro s action next hinv hstep horder
    cases action with
    | push record =>
        obtain rfl : afterPush s record = next := by simpa [recordStep, afterPush] using hstep
        exact (hinv.push_iff record).mp horder
    | shift => trivial
    | readPage garbage => trivial
    | readFree garbage => trivial

/-- A full array of four add records; one more push before the shifted record
is read makes the policy thread act on the fifth record instead of the first. -/
def fullRecords : Kdq ModPage where
  front := 0
  bits := 2
  count := 4
  mask := 3
  a := fun index => ⟨index, false⟩
  storage := 0

theorem overtakingPush_loses_record :
    ¬ ∀ (q : {q : Kdq ModPage // q.Wf}) (actions : List RecordAction) (final : RecordState),
      Transition.run recordStep (recordStart q.1) actions = some final →
        final.acted <+: final.pushed := by
  intro hall
  have hwf : fullRecords.Wf := ⟨by decide, by decide, by decide⟩
  let actions : List RecordAction :=
    [.shift, .push ⟨4, false⟩, .readPage 0, .readFree false]
  have hrun : ((Transition.run recordStep (recordStart fullRecords) actions).map
      fun final => (final.acted, final.pushed)) =
        some ([⟨4, false⟩],
          [⟨0, false⟩, ⟨1, false⟩, ⟨2, false⟩, ⟨3, false⟩, ⟨4, false⟩]) := by
    decide +kernel
  obtain ⟨final, hfinal, hvalues⟩ := Option.map_eq_some_iff.mp hrun
  have hprefix := hall ⟨fullRecords, hwf⟩ actions final hfinal
  simp only [Prod.mk.injEq] at hvalues
  rw [hvalues.1, hvalues.2] at hprefix
  exact absurd hprefix (by decide)

end ArmsTiering
