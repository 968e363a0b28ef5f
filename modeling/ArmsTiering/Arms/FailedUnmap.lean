import ArmsTiering.Arms.Munmap

/-!
# A failed unmap

`arms_munmap` gives up the pages of the range before it calls `libc_munmap`, and
does not look at the result.
-/

namespace ArmsTiering

/-- The tracking state and the counters that `arms_munmap` changes. -/
structure Unmapping where
  tracking : Tracking
  memAllocated : ℕ
  memMmaped : ℕ
  pagesFreed : ℕ

namespace Unmapping

/-- The body of the loop for a tracked page. -/
def release (u : Unmapping) (p : PageId) : Option Unmapping :=
  (u.tracking.mmgrRemove p).map fun tracking =>
    let size := ptToPagesize (u.tracking.page p).pt
    { tracking := tracking
      memAllocated := (u.memAllocated + 2 ^ 64 - size) % 2 ^ 64
      memMmaped := (u.memMmaped + 2 ^ 64 - size) % 2 ^ 64
      pagesFreed := (u.pagesFreed + 1) % 2 ^ 64 }

/-- The loop of `arms_munmap`, in at most `fuel` rounds.  The boundary is a 64-bit
number. -/
def releasePages : ℕ → Unmapping → ℕ → ℕ → Option Unmapping
  | 0, _, _, _ => none
  | fuel + 1, u, pageBoundry, stop =>
      if pageBoundry < stop then
        match u.tracking.mmgrFind pageBoundry with
        | some p => (u.release p).bind fun u' =>
            releasePages fuel u' ((pageBoundry + ptToPagesize (u.tracking.page p).pt) % 2 ^ 64) stop
        | none => releasePages fuel u ((pageBoundry + basepageSize) % 2 ^ 64) stop
      else some u

/-- `arms_munmap` with its result, for the system call `libc_munmap`. -/
def armsMunmap (libcMunmap : ℕ → ℕ → ℤ) (fuel : ℕ) (u : Unmapping) (addr length : ℕ) :
    Option (Unmapping × ℤ) :=
  (u.releasePages fuel addr ((addr + length) % 2 ^ 64)).map fun u => (u, libcMunmap addr length)

/-- Nothing that counts has changed. -/
structure Unchanged (u u' : Unmapping) : Prop where
  pages : u'.tracking.pages = u.tracking.pages
  modPageDq : u'.tracking.modPageDq = u.tracking.modPageDq
  present : ∀ q, (u'.tracking.page q).present = (u.tracking.page q).present
  memAllocated : u'.memAllocated = u.memAllocated
  memMmaped : u'.memMmaped = u.memMmaped
  pagesFreed : u'.pagesFreed = u.pagesFreed

/-- No page is tracked at the boundaries of base pages up to the end of the range. -/
def NothingTracked (pages : Va → Option PageId) (start stop : ℕ) : Prop :=
  ∀ k, (∀ j, j ≤ k → (start + j * basepageSize) % 2 ^ 64 < stop) →
    pages ((start + k * basepageSize) % 2 ^ 64) = none

variable {u u' : Unmapping} {p : PageId} {start stop fuel : ℕ}

theorem Unchanged.refl (u : Unmapping) : u.Unchanged u := ⟨rfl, rfl, fun _ => rfl, rfl, rfl, rfl⟩

/-- Releasing a page leaves a record of it. -/
theorem length_release (hrelease : u.release p = some u') :
    u'.tracking.modPageDq.length = u.tracking.modPageDq.length + 1 := by
  obtain ⟨tracking, hremove, rfl⟩ := Option.map_eq_some_iff.mp hrelease
  unfold Tracking.mmgrRemove at hremove
  split at hremove
  · obtain rfl := Option.some.inj hremove
    exact List.length_append
  · cases hremove

theorem length_releasePages_le (hreturn : u.releasePages fuel start stop = some u') :
    u.tracking.modPageDq.length ≤ u'.tracking.modPageDq.length := by
  induction fuel generalizing u start with
  | zero => cases hreturn
  | succ fuel ih =>
      rw [releasePages] at hreturn
      split at hreturn
      · split at hreturn
        · obtain ⟨released, hrelease, hrest⟩ := Option.bind_eq_some_iff.mp hreturn
          have hlength := length_release hrelease
          have hle := ih hrest
          omega
        · exact ih hreturn
      · obtain rfl := Option.some.inj hreturn
        exact le_rfl

theorem nothingTracked_step {pages : Va → Option PageId} (hlt : start < stop)
    (hstart : start < 2 ^ 64) (hnone : pages start = none) :
    NothingTracked pages start stop ↔
      NothingTracked pages ((start + basepageSize) % 2 ^ 64) stop := by
  have hshift : ∀ k, (start + (k + 1) * basepageSize) % 2 ^ 64 =
      ((start + basepageSize) % 2 ^ 64 + k * basepageSize) % 2 ^ 64 := by
    intro k
    rw [Nat.mod_add_mod, Nat.add_mul, Nat.one_mul]
    congr 1
    omega
  have hzero : (start + 0 * basepageSize) % 2 ^ 64 = start := by
    rw [Nat.zero_mul, Nat.add_zero, Nat.mod_eq_of_lt hstart]
  constructor
  · intro htracked k hbelow
    rw [← hshift]
    refine htracked (k + 1) fun j hj => ?_
    cases j with
    | zero => rwa [hzero]
    | succ j =>
        rw [hshift]
        exact hbelow j (Nat.le_of_succ_le_succ hj)
  · intro htracked k hbelow
    cases k with
    | zero => rwa [hzero]
    | succ k =>
        rw [hshift]
        refine htracked k fun j hj => ?_
        rw [← hshift]
        exact hbelow (j + 1) (Nat.succ_le_succ hj)

/-- The loop leaves everything as it was if it finds no page, and a further record
otherwise. -/
theorem releasePages_cases (hstart : start < 2 ^ 64)
    (hreturn : u.releasePages fuel start stop = some u') :
    (NothingTracked u.tracking.pages start stop → u' = u) ∧
      (¬NothingTracked u.tracking.pages start stop →
        u.tracking.modPageDq.length < u'.tracking.modPageDq.length) := by
  induction fuel generalizing u start with
  | zero => cases hreturn
  | succ fuel ih =>
      have hzero : (start + 0 * basepageSize) % 2 ^ 64 = start := by
        rw [Nat.zero_mul, Nat.add_zero, Nat.mod_eq_of_lt hstart]
      rw [releasePages] at hreturn
      split at hreturn
      · rename_i hlt
        split at hreturn
        · rename_i p hfind
          obtain ⟨released, hrelease, hrest⟩ := Option.bind_eq_some_iff.mp hreturn
          have hlength := length_release hrelease
          have hle := length_releasePages_le hrest
          refine ⟨fun htracked => ?_, fun _ => by omega⟩
          have hnone := htracked 0 fun j hj => by
            rw [Nat.le_zero.mp hj, hzero]
            exact hlt
          rw [hzero] at hnone
          exact absurd (hfind.symm.trans hnone) (Option.some_ne_none p)
        · rename_i hfind
          have hnone : u.tracking.pages start = none := hfind
          rw [nothingTracked_step hlt hstart hnone]
          exact ih (Nat.mod_lt _ (Nat.two_pow_pos 64)) hreturn
      · rename_i hstop
        obtain rfl := Option.some.inj hreturn
        refine ⟨fun _ => rfl, fun htracked => absurd (fun k hbelow => ?_) htracked⟩
        have hfirst := hbelow 0 (Nat.zero_le k)
        rw [hzero] at hfirst
        exact absurd hfirst hstop

/-- A call of `arms_munmap` whose `libc_munmap` fails changes nothing if and only if
there was no page to give up. -/
theorem unchanged_iff {libcMunmap : ℕ → ℕ → ℤ} {addr length : ℕ} (haddr : addr < 2 ^ 64)
    (hcall : u.armsMunmap libcMunmap fuel addr length = some (u', -1)) :
    u.Unchanged u' ↔ NothingTracked u.tracking.pages addr ((addr + length) % 2 ^ 64) := by
  obtain ⟨returned, hreturn, hpair⟩ := Option.map_eq_some_iff.mp hcall
  obtain ⟨rfl, _⟩ := Prod.mk.inj hpair
  have hcases := releasePages_cases haddr hreturn
  constructor
  · intro hsame
    by_contra htracked
    have hlt := hcases.2 htracked
    rw [hsame.modPageDq] at hlt
    exact Nat.lt_irrefl _ hlt
  · intro htracked
    rw [hcases.1 htracked]
    exact Unchanged.refl u

/-! The unmap of a single tracked page, which the kernel refuses. -/

def oneTracked : Unmapping := ⟨lastPageTracked, hugepageSize, hugepageSize, 0⟩

theorem oneTracked_munmap :
    ∃ u', oneTracked.armsMunmap (fun _ _ => -1) 2 (2 ^ 31) hugepageSize = some (u', -1) := by
  have hreturn : ((oneTracked.releasePages 2 (2 ^ 31)
      ((2 ^ 31 + hugepageSize) % 2 ^ 64)).isSome) = true := by decide
  obtain ⟨u', hu'⟩ := Option.isSome_iff_exists.mp hreturn
  exact ⟨u', by rw [armsMunmap, hu', Option.map_some]⟩

theorem unchanged_iff_oneTracked :
    ∃ u', oneTracked.armsMunmap (fun _ _ => -1) 2 (2 ^ 31) hugepageSize = some (u', -1) ∧
      (oneTracked.Unchanged u' ↔
        NothingTracked oneTracked.tracking.pages (2 ^ 31) ((2 ^ 31 + hugepageSize) % 2 ^ 64)) := by
  obtain ⟨u', hcall⟩ := oneTracked_munmap
  exact ⟨u', hcall, unchanged_iff (by decide) hcall⟩

/-- The page is no longer tracked although it is still mapped. -/
theorem oneTracked_not_unchanged :
    ∃ u', oneTracked.armsMunmap (fun _ _ => -1) 2 (2 ^ 31) hugepageSize = some (u', -1) ∧
      ¬oneTracked.Unchanged u' := by
  obtain ⟨u', hcall⟩ := oneTracked_munmap
  obtain ⟨returned, hreturn, hpair⟩ := Option.map_eq_some_iff.mp hcall
  obtain ⟨rfl, _⟩ := Prod.mk.inj hpair
  refine ⟨returned, hcall, fun hsame => ?_⟩
  have htracked : ¬NothingTracked oneTracked.tracking.pages (2 ^ 31)
      ((2 ^ 31 + hugepageSize) % 2 ^ 64) := by
    intro hnothing
    have hnone := hnothing 0 fun j hj => by
      rw [Nat.le_zero.mp hj]
      decide
    exact absurd hnone (by decide)
  have hlt := (releasePages_cases (by decide) hreturn).2 htracked
  rw [hsame.modPageDq] at hlt
  exact Nat.lt_irrefl _ hlt

end Unmapping

end ArmsTiering
