import Mathlib.Algebra.Group.Nat.Defs
import Mathlib.Data.Rat.Defs
import Mathlib.Logic.Function.Basic

/-!
# Page structs and the arithmetic done on them

`struct arms_page` of `arms.h`, the parameters of `pebs.h` for the C220G5
build, and the `float` operations of the policy code.  The floating-point type
is left abstract: the scorer and the hot-change detector are deterministic
functions of it, and the results about them use no law of arithmetic.  The
instance for `ℚ` makes every definition executable.
-/

namespace ArmsTiering

/-- The C arithmetic on `float` and `double` that the policy code performs. -/
class CFloat (F : Type) where
  ofRat : ℚ → F
  add : F → F → F
  sub : F → F → F
  mul : F → F → F
  div : F → F → F
  sqrtf : F → F
  floor : F → F
  lt : F → F → Bool
  le : F → F → Bool
  eq : F → F → Bool

namespace CFloat

variable {F : Type} [CFloat F]

-- Scoped, so that arithmetic on `ℚ` elsewhere keeps its own instances.
scoped instance (priority := low) : Add F := ⟨CFloat.add⟩
scoped instance (priority := low) : Sub F := ⟨CFloat.sub⟩
scoped instance (priority := low) : Mul F := ⟨CFloat.mul⟩
scoped instance (priority := low) : Div F := ⟨CFloat.div⟩

/-- A C integer converted to `float`. -/
def ofNat (value : ℕ) : F := ofRat value

/-- `fmaxf` on ordered values. -/
def fmaxf (left right : F) : F := if lt left right then right else left

end CFloat

/-- Rational square root, rounded down to a millionth. -/
def ratSqrt (value : ℚ) : ℚ :=
  (Nat.sqrt (value * 1000000 ^ 2).floor.toNat : ℚ) / 1000000

instance : CFloat ℚ where
  ofRat := id
  add := (· + ·)
  sub := (· - ·)
  mul := (· * ·)
  div := (· / ·)
  sqrtf := ratSqrt
  floor := fun value => value.floor
  lt := fun left right => decide (left < right)
  le := fun left right => decide (left ≤ right)
  eq := fun left right => decide (left = right)

/-! ## Parameters of the C220G5 build -/

def hugepageSize : ℕ := 2 * 1024 * 1024
def basepageSize : ℕ := 4 * 1024

/-- `PAGE_SIZE` -/
def pageSize : ℕ := hugepageSize

/-- `WINDOW_SIZE` -/
def windowSize : ℕ := 2

def numMigrationThreads : ℕ := 8
def nvmWritesWeight : ℕ := 1
def defaultSamplePeriod : ℕ := 10007
def hfSamplePeriod : ℕ := 5003

/-- `CB_MULTIPLIER` -/
def cbMultiplier : ℚ := 3 / 2

/-- `enum pbuftype` -/
inductive PbufType
  | dramread
  | nvmread
  | write
  deriving DecidableEq, Repr

/-- `enum pagetypes` -/
inductive PageType
  | hugep
  | basep
  deriving DecidableEq, Repr

/-- `pt_to_pagesize` -/
def ptToPagesize : PageType → ℕ
  | .hugep => hugepageSize
  | .basep => basepageSize

/-- A `struct arms_page *`: the index at which `pebs_init` created the struct. -/
abbrev PageId := ℕ

/-- `mod_page_t` -/
structure ModPage where
  page : PageId
  free : Bool
  deriving DecidableEq, Repr

/-- `struct arms_page`, without the mutex and the list links, which live in
the state of the system that locks and links the structs.  `accesses` is
indexed by sample type and access version. -/
structure ArmsPage (F : Type) (n : ℕ) where
  va : ℕ
  devdaxOffset : ℕ
  inDram : Bool
  pt : PageType
  migrating : Bool
  present : Bool
  accesses : PbufType → Fin 2 → ℕ
  w : Fin n → F
  score : F
  prevScore : F
  hotAge : ℕ
  canPromote : Bool

variable {F : Type} [CFloat F] {n : ℕ}

/-- A struct as `pebs_init` creates it: `calloc`, then the frame and tier. -/
def callocPage (devdaxOffset : ℕ) (inDram : Bool) : ArmsPage F n where
  va := 0
  devdaxOffset := devdaxOffset
  inDram := inDram
  pt := .hugep
  migrating := false
  present := false
  accesses := fun _ _ => 0
  w := fun _ => CFloat.ofRat 0
  score := CFloat.ofRat 0
  prevScore := CFloat.ofRat 0
  hotAge := 0
  canPromote := false

/-- `reset_page_access_fields`: every write the helper makes, and no other. -/
def resetPageAccessFields (page : ArmsPage F n) : ArmsPage F n :=
  { page with
    accesses := fun _ _ => 0
    w := fun _ => CFloat.ofRat 0
    hotAge := 0
    prevScore := CFloat.ofRat 0 }

section Reset

variable (page : ArmsPage F n)

@[simp] theorem resetPageAccessFields_va :
    (resetPageAccessFields page).va = page.va := rfl

@[simp] theorem resetPageAccessFields_devdaxOffset :
    (resetPageAccessFields page).devdaxOffset = page.devdaxOffset := rfl

@[simp] theorem resetPageAccessFields_inDram :
    (resetPageAccessFields page).inDram = page.inDram := rfl

@[simp] theorem resetPageAccessFields_present :
    (resetPageAccessFields page).present = page.present := rfl

/-- The helper leaves the two fields that outlive a page's removal. -/
theorem resetPageAccessFields_stale :
    (resetPageAccessFields page).score = page.score ∧
      (resetPageAccessFields page).canPromote = page.canPromote := ⟨rfl, rfl⟩

end Reset

end ArmsTiering
