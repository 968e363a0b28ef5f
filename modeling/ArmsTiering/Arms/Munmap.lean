import ArmsTiering.Machine.State

/-!
# Mapping and unmapping a region

`arms_mmap` rounds the length of a region up to whole huge pages.  `arms_munmap`
walks over the length it is given, in steps of a huge page where one is tracked
and of a base page elsewhere, and passes that length on to `munmap`.
-/

namespace ArmsTiering

/-- `PAGE_ROUND_UP` on `size_t`. -/
def pageRoundUp (x : ℕ) : ℕ := (x + (hugepageSize - 1)) % 2 ^ 64 / hugepageSize * hugepageSize

/-- What the page manager tracks. -/
structure Tracking where
  page : PageId → Page
  pages : Va → Option PageId
  modPageDq : List ModPage

namespace Tracking

/-- `mmgr_find` -/
def mmgrFind (t : Tracking) (va : Va) : Option PageId := t.pages va

/-- `mmgr_remove`; undefined where its assertion fails. -/
def mmgrRemove (t : Tracking) (p : PageId) : Option Tracking :=
  if (t.pages (t.page p).va).isSome then
    some { t with
      pages := Function.update t.pages (t.page p).va none
      modPageDq := t.modPageDq ++ [⟨p, true⟩]
      page := Function.update t.page p { t.page p with present := false } }
  else none

theorem ptToPagesize_pos (pt : PageType) : 0 < ptToPagesize pt := by
  cases pt <;> decide

/-- The loop of `arms_munmap`, with the pages that it hands to `mmgr_remove`. -/
def unmapPages (t : Tracking) (pageBoundry stop : ℕ) : Option (List PageId × Tracking) :=
  if pageBoundry < stop then
    match t.mmgrFind pageBoundry with
    | some p =>
        let size := ptToPagesize (t.page p).pt
        (t.mmgrRemove p).bind fun t' =>
          (unmapPages t' (pageBoundry + size) stop).map fun result =>
            (p :: result.1, result.2)
    | none => unmapPages t (pageBoundry + basepageSize) stop
  else some ([], t)
termination_by stop - pageBoundry
decreasing_by
  · have hpos := ptToPagesize_pos (t.page p).pt
    omega
  · have hpos : 0 < basepageSize := by decide
    omega

end Tracking

/-- A call of `arms_munmap`: the pages handed to `mmgr_remove`, and the
arguments of `libc_munmap`. -/
structure MunmapCall where
  handed : List PageId
  tracking : Tracking
  unmapAddr : ℕ
  unmapLength : ℕ

def armsMunmap (t : Tracking) (addr length : ℕ) : Option MunmapCall :=
  (t.unmapPages addr ((addr + length) % 2 ^ 64)).map fun result =>
    ⟨result.1, result.2, addr, length⟩

/-! ## The regions and the pages in them -/

/-- What `mmap` of a devdax file promises about a region that it maps. -/
structure DevdaxRegion (addr length : ℕ) : Prop where
  nonempty : 0 < length
  aligned : addr % hugepageSize = 0
  fits : addr + length < 2 ^ 64

/-- Tracked pages are huge pages at huge-page boundaries, under their own
address. -/
structure Tracking.Wf (t : Tracking) : Prop where
  va : ∀ (va : ℕ) p, t.pages va = some p → (t.page p).va = va
  aligned : ∀ (va : ℕ) p, t.pages va = some p → va % hugepageSize = 0
  huge : ∀ (va : ℕ) p, t.pages va = some p → (t.page p).pt = .hugep

/-- The page `q` is tracked at an address in the range. -/
def Tracking.TrackedIn (t : Tracking) (start stop : ℕ) (q : PageId) : Prop :=
  ∃ va : ℕ, start ≤ va ∧ va < stop ∧ t.pages va = some q

theorem pageRoundUp_eq {length : ℕ} (hpos : 0 < pageRoundUp length) (hlength : length < 2 ^ 64) :
    ∃ count, pageRoundUp length = count * hugepageSize ∧ length ≤ count * hugepageSize ∧
      count * hugepageSize < length + hugepageSize := by
  unfold pageRoundUp at hpos ⊢
  unfold hugepageSize at hpos ⊢
  refine ⟨_, rfl, ?_, ?_⟩ <;> omega

namespace Tracking

variable {t : Tracking}

theorem Wf.mmgrRemove (hwf : t.Wf) {va : ℕ} {p : PageId} (hp : t.pages va = some p) :
    ∃ t', t.mmgrRemove p = some t' ∧ t'.pages = Function.update t.pages va none ∧
      (∀ q, (t'.page q).va = (t.page q).va ∧ (t'.page q).pt = (t.page q).pt) := by
  have hva := hwf.va va p hp
  refine ⟨_, by rw [Tracking.mmgrRemove, if_pos (by rw [hva, hp]; rfl)], ?_, fun q => ?_⟩
  · exact congrArg (fun key => Function.update t.pages key none) hva
  · rcases eq_or_ne q p with rfl | hne
    · simp
    · simp [Function.update_of_ne hne]

theorem Wf.of_removed (hwf : t.Wf) {t' : Tracking} {va : ℕ}
    (hpages : t'.pages = Function.update t.pages va none)
    (hkept : ∀ q, (t'.page q).va = (t.page q).va ∧ (t'.page q).pt = (t.page q).pt) : t'.Wf := by
  have hold : ∀ key p, t'.pages key = some p → t.pages key = some p := by
    intro key p hp
    rw [hpages] at hp
    rcases eq_or_ne key va with rfl | hne
    · simp at hp
    · rwa [Function.update_of_ne hne] at hp
  refine ⟨fun key p hp => ?_, fun key p hp => hwf.aligned key p (hold key p hp),
    fun key p hp => ?_⟩
  · rw [(hkept p).1]
    exact hwf.va key p (hold key p hp)
  · rw [(hkept p).2]
    exact hwf.huge key p (hold key p hp)

/-- No page is tracked strictly between two neighbouring boundaries. -/
theorem Wf.untracked_between (hwf : t.Wf) {start va : ℕ} {p : PageId}
    (hstart : start % basepageSize = 0) (hp : t.pages va = some p) (hle : start ≤ va)
    (hne : va ≠ start) : start + basepageSize ≤ va := by
  have haligned := hwf.aligned va p hp
  unfold basepageSize at hstart ⊢
  unfold hugepageSize at haligned
  omega

theorem unmapPages_stop {start stop : ℕ} (hstop : ¬start < stop) :
    t.unmapPages start stop = some ([], t) := by
  rw [Tracking.unmapPages, if_neg hstop]

theorem unmapPages_hole {start stop : ℕ} (hlt : start < stop) (hnone : t.pages start = none) :
    t.unmapPages start stop = t.unmapPages (start + basepageSize) stop := by
  rw [Tracking.unmapPages, if_pos hlt, mmgrFind, hnone]

theorem unmapPages_page {start stop : ℕ} (hlt : start < stop) {p : PageId} {t' : Tracking}
    (hp : t.pages start = some p) (hremove : t.mmgrRemove p = some t') {size : ℕ}
    (hsize : ptToPagesize (t.page p).pt = size) :
    t.unmapPages start stop =
      (t'.unmapPages (start + size) stop).map fun result => (p :: result.1, result.2) := by
  subst hsize
  rw [Tracking.unmapPages, if_pos hlt, mmgrFind, hp]
  exact congrArg (Option.bind · _) hremove

/-- The walk hands over exactly the tracked pages of its range, each once. -/
theorem Wf.unmapPages (hwf : t.Wf) {start : ℕ} (hstart : start % basepageSize = 0) (stop : ℕ) :
    ∃ handed t', t.unmapPages start stop = some (handed, t') ∧ handed.Nodup ∧
      ∀ q, q ∈ handed ↔ t.TrackedIn start stop q := by
  -- on the number of bytes left
  induction hleft : stop - start using Nat.strong_induction_on generalizing t start with
  | _ left ih =>
    subst hleft
    by_cases hlt : start < stop
    · cases hfind : t.pages start with
      | none =>
          have hsize : 0 < basepageSize := by decide
          have hbase : (start + basepageSize) % basepageSize = 0 := by
            rw [Nat.add_mod_right]
            exact hstart
          obtain ⟨handed, t', hwalk, hnodup, hmem⟩ := ih _ (by omega) hwf hbase rfl
          rw [unmapPages_hole hlt hfind]
          refine ⟨handed, t', hwalk, hnodup, fun q => (hmem q).trans ⟨?_, ?_⟩⟩
          · rintro ⟨va, hle, hva, hq⟩
            exact ⟨va, by omega, hva, hq⟩
          · rintro ⟨va, hle, hva, hq⟩
            have hne : va ≠ start := by
              rintro rfl
              rw [hfind] at hq
              cases hq
            exact ⟨va, hwf.untracked_between hstart hq hle hne, hva, hq⟩
      | some p =>
          have hva := hwf.va start p hfind
          have hsize : ptToPagesize (t.page p).pt = hugepageSize := by
            rw [hwf.huge start p hfind]
            rfl
          have hhuge : 0 < hugepageSize := by decide
          obtain ⟨removed, hremove, hpages, hkept⟩ := hwf.mmgrRemove hfind
          have hwf' : removed.Wf := hwf.of_removed hpages hkept
          have hbase : (start + hugepageSize) % basepageSize = 0 := by
            unfold basepageSize at hstart ⊢
            unfold hugepageSize
            omega
          obtain ⟨handed, t', hwalk, hnodup, hmem⟩ := ih _ (by omega) hwf' hbase rfl
          -- pages further on are tracked before the removal exactly as after it
          have hrest : ∀ q, q ∈ handed ↔
              ∃ va : ℕ, start + hugepageSize ≤ va ∧ va < stop ∧ t.pages va = some q := by
            intro q
            refine (hmem q).trans (exists_congr fun va => and_congr_right fun hle => ?_)
            have hne : va ≠ start := by omega
            rw [hpages, Function.update_of_ne hne]
          rw [unmapPages_page hlt hfind hremove hsize, hwalk]
          refine ⟨_, _, rfl, List.nodup_cons.mpr ⟨fun hp => ?_, hnodup⟩, fun q => ?_⟩
          · obtain ⟨va, hle, _, hq⟩ := (hrest p).mp hp
            have hsame := (hwf.va va p hq).symm.trans hva
            omega
          · rw [List.mem_cons, hrest]
            constructor
            · rintro (rfl | ⟨va, hle, hlt', hq⟩)
              · exact ⟨start, le_rfl, hlt, hfind⟩
              · exact ⟨va, by omega, hlt', hq⟩
            · rintro ⟨va, hle, hlt', hq⟩
              rcases eq_or_ne va start with rfl | hne
              · exact .inl (Option.some.inj (hq.symm.trans hfind))
              · have hnext : start + hugepageSize ≤ va := by
                  have hfirst := hwf.aligned start p hfind
                  have hsecond := hwf.aligned va q hq
                  unfold hugepageSize at hfirst hsecond ⊢
                  omega
                exact .inr ⟨va, hnext, hlt', hq⟩
    · rw [unmapPages_stop hlt]
      refine ⟨[], t, rfl, List.nodup_nil, fun q => ?_⟩
      simp only [List.not_mem_nil, false_iff]
      rintro ⟨va, hle, hva, _⟩
      omega

end Tracking

/-! ## Agreement of the two functions -/

/-- `arms_munmap` of a region hands over exactly the pages tracked in it, and
each of them lies completely in the range that it passes to `libc_munmap`. -/
structure MunmapCall.Agrees (call : MunmapCall) (t : Tracking) (addr length : ℕ) : Prop where
  handed_nodup : call.handed.Nodup
  handed : ∀ q, q ∈ call.handed ↔ t.TrackedIn addr (addr + pageRoundUp length) q
  unmapped : ∀ q ∈ call.handed, call.unmapAddr ≤ (t.page q).va ∧
    (t.page q).va + ptToPagesize (t.page q).pt ≤ call.unmapAddr + call.unmapLength

/-- The rounded region has the tracked pages of the exact one: no huge page
begins in the bytes that rounding adds. -/
theorem Tracking.Wf.trackedIn_rounded {t : Tracking} (hwf : t.Wf) {addr length : ℕ}
    (hregion : DevdaxRegion addr (pageRoundUp length)) (hlength : length < 2 ^ 64) (q : PageId) :
    t.TrackedIn addr (addr + length) q ↔ t.TrackedIn addr (addr + pageRoundUp length) q := by
  obtain ⟨count, hcount, hle, hlt⟩ := pageRoundUp_eq hregion.nonempty hlength
  have haddr := hregion.aligned
  rw [hcount]
  unfold hugepageSize at *
  constructor
  · rintro ⟨va, hva, hend, hq⟩
    exact ⟨va, hva, by omega, hq⟩
  · rintro ⟨va, hva, hend, hq⟩
    have haligned := hwf.aligned va q hq
    unfold hugepageSize at haligned
    exact ⟨va, hva, by omega, hq⟩

theorem Tracking.Wf.armsMunmap {t : Tracking} (hwf : t.Wf) {addr length : ℕ}
    (hlength : length < 2 ^ 64) (hregion : DevdaxRegion addr (pageRoundUp length)) :
    ∃ call, armsMunmap t addr length = some call ∧ call.unmapAddr = addr ∧
      call.unmapLength = length ∧ call.handed.Nodup ∧
      ∀ q, q ∈ call.handed ↔ t.TrackedIn addr (addr + pageRoundUp length) q := by
  obtain ⟨count, hcount, hle, hlt⟩ := pageRoundUp_eq hregion.nonempty hlength
  have hfits := hregion.fits
  have hbase : addr % basepageSize = 0 := by
    have haddr := hregion.aligned
    unfold hugepageSize at haddr
    unfold basepageSize
    omega
  have hstop : (addr + length) % 2 ^ 64 = addr + length := Nat.mod_eq_of_lt (by omega)
  obtain ⟨handed, t', hwalk, hnodup, hmem⟩ := hwf.unmapPages hbase (addr + length)
  refine ⟨⟨handed, t', addr, length⟩, ?_, rfl, rfl, hnodup, fun q => ?_⟩
  · rw [ArmsTiering.armsMunmap, hstop, hwalk]
    rfl
  · exact (hmem q).trans (hwf.trackedIn_rounded hregion hlength q)

/-- Mapping and unmapping agree exactly if the requested length is a multiple
of the huge page size, or the last huge page of the region is not tracked. -/
theorem armsMunmap_agrees_iff {t : Tracking} (hwf : t.Wf) {addr length : ℕ}
    (hpos : 1 ≤ length) (hlength : length < 2 ^ 64)
    (hregion : DevdaxRegion addr (pageRoundUp length)) :
    (∃ call, armsMunmap t addr length = some call ∧ call.Agrees t addr length) ↔
      length % hugepageSize = 0 ∨
        t.pages (addr + pageRoundUp length - hugepageSize) = none := by
  obtain ⟨count, hcount, hle, hlt⟩ := pageRoundUp_eq hregion.nonempty hlength
  obtain ⟨call, hcall, haddr, hlen, hnodup, hmem⟩ := hwf.armsMunmap hlength hregion
  have haligned := hregion.aligned
  rw [hcount] at hmem ⊢
  constructor
  · rintro ⟨other, hother, hagrees⟩
    obtain rfl : call = other := Option.some.inj (hcall.symm.trans hother)
    by_contra hnone
    obtain ⟨hragged, htracked⟩ := not_or.mp hnone
    obtain ⟨q, hq⟩ := Option.ne_none_iff_exists'.mp htracked
    have hva := hwf.va _ q hq
    have hin : q ∈ call.handed := by
      refine (hmem q).mpr ⟨_, ?_, ?_, hq⟩ <;> (unfold hugepageSize at *; omega)
    have hend := (hagrees.unmapped q hin).2
    rw [hva, hwf.huge _ q hq, haddr, hlen] at hend
    change _ + hugepageSize ≤ _ at hend
    unfold hugepageSize at *
    omega
  · intro hcases
    refine ⟨call, hcall, hnodup, fun q => ?_, fun q hq => ?_⟩
    · rw [hcount]
      exact hmem q
    · obtain ⟨va, hfrom, hto, hpage⟩ := (hmem q).mp hq
      have hpageAligned := hwf.aligned va q hpage
      rw [hwf.va va q hpage, hwf.huge va q hpage, haddr, hlen]
      change _ ∧ va + hugepageSize ≤ _
      refine ⟨hfrom, ?_⟩
      rcases hcases with hmultiple | huntracked
      · unfold hugepageSize at *
        omega
      · have hne : va ≠ addr + count * hugepageSize - hugepageSize := by
          intro heq
          rw [heq, huntracked] at hpage
          cases hpage
        unfold hugepageSize at *
        omega

/-! A region of 1 GB and a base page, of which only the last page has been
faulted in. -/

def lastPageTracked : Tracking where
  page := fun _ => { callocPage 0 true with va := 2 ^ 31, present := true }
  pages := fun va => if va = 2 ^ 31 then some 0 else none
  modPageDq := []

theorem lastPageTracked_wf : lastPageTracked.Wf := by
  have honly : ∀ va p, lastPageTracked.pages va = some p → va = 2 ^ 31 := by
    intro va p hp
    by_contra hne
    have hnone : lastPageTracked.pages va = none := if_neg hne
    rw [hnone] at hp
    cases hp
  refine ⟨fun va p hp => ?_, fun va p hp => ?_, fun va p hp => rfl⟩
  · rw [honly va p hp]
    rfl
  · rw [honly va p hp]
    decide

theorem devdaxRegion_lastPage : DevdaxRegion (2 ^ 30) (pageRoundUp (2 ^ 30 + basepageSize)) :=
  ⟨by decide, by decide, by decide⟩

theorem armsMunmap_agrees_iff_lastPage :
    ¬ ∃ call, armsMunmap lastPageTracked (2 ^ 30) (2 ^ 30 + basepageSize) = some call ∧
      call.Agrees lastPageTracked (2 ^ 30) (2 ^ 30 + basepageSize) := by
  intro hagrees
  rcases (armsMunmap_agrees_iff lastPageTracked_wf (by decide) (by decide)
    devdaxRegion_lastPage).mp hagrees with hmultiple | huntracked
  · exact absurd hmultiple (by decide)
  · exact absurd huntracked (by decide)

/-- The last page is handed over although all of it but one base page is
outside the range that is unmapped. -/
theorem lastPage_freed_partly_mapped :
    ∃ call, armsMunmap lastPageTracked (2 ^ 30) (2 ^ 30 + basepageSize) = some call ∧
      ¬call.Agrees lastPageTracked (2 ^ 30) (2 ^ 30 + basepageSize) := by
  obtain ⟨call, hcall, haddr, hlen, _, hmem⟩ :=
    lastPageTracked_wf.armsMunmap (by decide) devdaxRegion_lastPage
  refine ⟨call, hcall, fun hagrees => ?_⟩
  have hhanded : 0 ∈ call.handed := (hmem 0).mpr ⟨2 ^ 31, by decide, by decide, rfl⟩
  have hinside := (hagrees.unmapped 0 hhanded).2
  rw [haddr, hlen] at hinside
  exact absurd hinside (by decide)

end ArmsTiering
