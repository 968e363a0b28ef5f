import Mathlib.Algebra.Order.Ring.Nat
import Mathlib.Tactic.Common

/-!
# The page walk of the kernel

`arms_page_walk` translates an address by reading the page tables itself.  The
processor's own translation reads the same tables; the two differ in the leaves
that they accept and in the entries that they test.
-/

namespace ArmsTiering

/-- `PAGE_SIZE` and `HPAGE_SIZE` of the kernel. -/
def kernelPageSize : ℕ := 4096
def kernelHpageSize : ℕ := 2097152

/-- An entry of the lowest level. -/
structure Pte where
  present : Bool
  val : ℕ

/-- An entry of an upper level, with the table below it.  An entry of that table
is `none` where reading it faults (`arms_bad_address`). -/
structure TableEntry (Below : Type) where
  present : Bool
  leaf : Bool
  val : ℕ
  table : ℕ → Option Below

abbrev Pmd := TableEntry Pte
abbrev Pud := TableEntry Pmd
abbrev P4d := TableEntry Pud
abbrev Pgd := TableEntry P4d

/-- The table in `CR3`.  With four levels its first entry is present and stands
for all addresses. -/
abbrev PageTables := ℕ → Option Pgd

def pgdIndex (address : ℕ) : ℕ := address / 2 ^ 48 % 512
def p4dIndex (address : ℕ) : ℕ := address / 2 ^ 39 % 512
def pudIndex (address : ℕ) : ℕ := address / 2 ^ 30 % 512
def pmdIndex (address : ℕ) : ℕ := address / 2 ^ 21 % 512
def pteIndex (address : ℕ) : ℕ := address / 2 ^ 12 % 512

/-- The physical address in an entry for a page of `2 ^ bits` bytes, with the
offset of the address in that page. -/
def physical (bits val address : ℕ) : ℕ :=
  val % 2 ^ 52 / 2 ^ bits * 2 ^ bits + address % 2 ^ bits

/-- `arms_page_walk`; `none` where `*phy_addr` is left unchanged. -/
def armsPageWalk (base : PageTables) (address : ℕ) : Option ℕ := do
  let pgd ← base (pgdIndex address)
  guard pgd.present
  let p4d ← pgd.table (p4dIndex address)
  guard (p4d.present && !p4d.leaf)
  let pud ← p4d.table (pudIndex address)
  guard (pud.present && !pud.leaf)
  let pmd ← pud.table (pmdIndex address)
  if pmd.leaf then
    return physical 21 pmd.val address
  guard pmd.present
  let pte ← pmd.table (pteIndex address)
  return physical 12 pte.val address

/-- Where the processor finds the byte at an address. -/
def translate (base : PageTables) (address : ℕ) : Option ℕ := do
  let pgd ← base (pgdIndex address)
  guard pgd.present
  let p4d ← pgd.table (p4dIndex address)
  guard (p4d.present && !p4d.leaf)
  let pud ← p4d.table (pudIndex address)
  guard pud.present
  if pud.leaf then
    return physical 30 pud.val address
  let pmd ← pud.table (pmdIndex address)
  guard pmd.present
  if pmd.leaf then
    return physical 21 pmd.val address
  let pte ← pmd.table (pteIndex address)
  guard pte.present
  return physical 12 pte.val address

/-- The bytes of a range lie one after the other behind the address that the
walk finds for its first byte, which is 0 where the walk fails. -/
def Contiguous (base : PageTables) (start len : ℕ) : Prop :=
  ∀ offset < len,
    translate base (start + offset) = some ((armsPageWalk base start).getD 0 + offset)

theorem physical_lt {bits val address : ℕ} (hbits : bits ≤ 52) :
    physical bits val address < 2 ^ 52 := by
  have hval : val % 2 ^ 52 < 2 ^ 52 := Nat.mod_lt _ (Nat.two_pow_pos _)
  have hoffset : address % 2 ^ bits < 2 ^ bits := Nat.mod_lt _ (Nat.two_pow_pos _)
  obtain ⟨rest, hrest⟩ := Nat.exists_eq_add_of_le hbits
  rw [hrest, Nat.pow_add] at hval
  have hframe := Nat.div_lt_of_lt_mul hval
  rw [physical, hrest, Nat.pow_add]
  calc
    val % (2 ^ bits * 2 ^ rest) / 2 ^ bits * 2 ^ bits + address % 2 ^ bits
        < val % (2 ^ bits * 2 ^ rest) / 2 ^ bits * 2 ^ bits + 2 ^ bits := by
      exact Nat.add_lt_add_left hoffset _
    _ = (val % (2 ^ bits * 2 ^ rest) / 2 ^ bits + 1) * 2 ^ bits := (Nat.succ_mul _ _).symm
    _ ≤ 2 ^ rest * 2 ^ bits := Nat.mul_le_mul_right _ hframe
    _ = 2 ^ bits * 2 ^ rest := Nat.mul_comm _ _

theorem translate_lt {base : PageTables} {address location : ℕ}
    (htranslate : translate base address = some location) : location < 2 ^ 52 := by
  simp only [translate, Option.bind_eq_bind, Option.bind_eq_some_iff, Option.pure_def] at htranslate
  obtain ⟨pgd, _, _, _, p4d, _, _, _, pud, _, _, _, htranslate⟩ := htranslate
  split at htranslate
  · obtain rfl := Option.some.inj htranslate
    exact physical_lt (by decide)
  · simp only [Option.bind_eq_some_iff] at htranslate
    obtain ⟨pmd, _, _, _, htranslate⟩ := htranslate
    split at htranslate
    · obtain rfl := Option.some.inj htranslate
      exact physical_lt (by decide)
    · simp only [Option.bind_eq_some_iff] at htranslate
      obtain ⟨pte, _, _, _, htranslate⟩ := htranslate
      obtain rfl := Option.some.inj htranslate
      exact physical_lt (by decide)

theorem armsPageWalk_lt {base : PageTables} {address location : ℕ}
    (hwalk : armsPageWalk base address = some location) : location < 2 ^ 52 := by
  simp only [armsPageWalk, Option.bind_eq_bind, Option.bind_eq_some_iff, Option.pure_def] at hwalk
  obtain ⟨pgd, _, _, _, p4d, _, _, _, pud, _, _, _, pmd, _, hwalk⟩ := hwalk
  split at hwalk
  · obtain rfl := Option.some.inj hwalk
    exact physical_lt (by decide)
  · simp only [Option.bind_eq_some_iff] at hwalk
    obtain ⟨_, _, pte, _, hwalk⟩ := hwalk
    obtain rfl := Option.some.inj hwalk
    exact physical_lt (by decide)

/-- The address lies in a huge page that an entry of the given value maps. -/
inductive HugeLeafAt (base : PageTables) (address : ℕ) : ℕ → Prop
  | leaf {pgd : Pgd} {p4d : P4d} {pud : Pud} {pmd : Pmd}
      (hpgd : base (pgdIndex address) = some pgd)
      (hp4d : pgd.table (p4dIndex address) = some p4d)
      (hpud : p4d.table (pudIndex address) = some pud)
      (hpmd : pud.table (pmdIndex address) = some pmd)
      (hpresent : pgd.present ∧ p4d.present ∧ pud.present ∧ pmd.present)
      (hleaves : p4d.leaf = false ∧ pud.leaf = false ∧ pmd.leaf = true) :
      HugeLeafAt base address pmd.val

namespace HugeLeafAt

variable {base : PageTables} {address val : ℕ}

theorem armsPageWalk_eq (hleaf : HugeLeafAt base address val) :
    armsPageWalk base address = some (physical 21 val address) := by
  obtain ⟨hpgd, hp4d, hpud, hpmd, ⟨h0, h1, h2, h3⟩, hl1, hl2, hl3⟩ := hleaf
  simp [armsPageWalk, hpgd, hp4d, hpud, hpmd, h0, h1, h2, hl1, hl2, hl3]

theorem translate_eq (hleaf : HugeLeafAt base address val) :
    translate base address = some (physical 21 val address) := by
  obtain ⟨hpgd, hp4d, hpud, hpmd, ⟨h0, h1, h2, h3⟩, hl1, hl2, hl3⟩ := hleaf
  simp [translate, hpgd, hp4d, hpud, hpmd, h0, h1, h2, h3, hl1, hl2, hl3]

/-- All addresses of a huge page take the same path through the tables. -/
theorem of_same_page (hleaf : HugeLeafAt base address val) {other : ℕ}
    (hsame : other / 2 ^ 21 = address / 2 ^ 21) : HugeLeafAt base other val := by
  have hpgdIndex : pgdIndex other = pgdIndex address := by unfold pgdIndex; omega
  have hp4dIndex : p4dIndex other = p4dIndex address := by unfold p4dIndex; omega
  have hpudIndex : pudIndex other = pudIndex address := by unfold pudIndex; omega
  have hpmdIndex : pmdIndex other = pmdIndex address := by unfold pmdIndex; omega
  obtain ⟨hpgd, hp4d, hpud, hpmd, hpresent, hleaves⟩ := hleaf
  rw [← hpgdIndex] at hpgd
  rw [← hp4dIndex] at hp4d
  rw [← hpudIndex] at hpud
  rw [← hpmdIndex] at hpmd
  exact .leaf hpgd hp4d hpud hpmd hpresent hleaves

/-- A range inside one huge page is contiguous. -/
theorem contiguous {start len : ℕ} (hleaf : HugeLeafAt base start val)
    (hinside : start % kernelHpageSize + len ≤ kernelHpageSize) : Contiguous base start len := by
  intro offset hoffset
  unfold kernelHpageSize at hinside
  have hsame : (start + offset) / 2 ^ 21 = start / 2 ^ 21 := by omega
  have hmod : (start + offset) % 2 ^ 21 = start % 2 ^ 21 + offset := by omega
  rw [(hleaf.of_same_page hsame).translate_eq, hleaf.armsPageWalk_eq, Option.getD_some, physical,
    physical, hmod, Nat.add_assoc]

end HugeLeafAt

end ArmsTiering
