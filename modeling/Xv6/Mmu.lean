import Mathlib.Data.BitVec

/-! Addresses, page-table entries and their flags, as in `mmu.h` and
`memlayout.h`. An address is a natural number and `uint` arithmetic is reduced
modulo `2 ^ 32` where it can wrap. A page-table entry is kept as its two fields,
the physical page number and the twelve flag bits. -/
namespace Xv6

abbrev PGSIZE : Nat := 4096
abbrev NPDENTRIES : Nat := 1024

abbrev EXTMEM : Nat := 0x100000
abbrev PHYSTOP : Nat := 0xE000000
abbrev DEVSPACE : Nat := 0xFE000000
abbrev KERNBASE : Nat := 0x80000000
abbrev KERNLINK : Nat := KERNBASE + EXTMEM

/-- `uint` arithmetic. -/
def uint (n : Nat) : Nat := n % 2 ^ 32

def pgRoundUp (sz : Nat) : Nat := uint (sz + PGSIZE - 1) / PGSIZE * PGSIZE
def pgRoundDown (a : Nat) : Nat := a / PGSIZE * PGSIZE

def pdx (va : Nat) : Nat := va / 2 ^ 22 % 1024
def ptx (va : Nat) : Nat := va / 2 ^ 12 % 1024

/-- `PGADDR(d, 0, 0)`. -/
def pgAddr (d : Nat) : Nat := uint (d * 2 ^ 22)

/-- The virtual page an address lies in. -/
def vpn (va : Nat) : Nat := va / PGSIZE % 2 ^ 20

abbrev Flags := BitVec 12

/-- The flag bits the kernel reads or writes. -/
inductive PteBit where
  | PTE_P | PTE_W | PTE_U | PTE_A | PTE_E
  deriving DecidableEq, Repr

open PteBit

def PteBit.mask : PteBit → Flags
  | PTE_P => 0x001#12
  | PTE_W => 0x002#12
  | PTE_U => 0x004#12
  | PTE_A => 0x020#12
  | PTE_E => 0x400#12

theorem PteBit.mask_and (f g : PteBit) : f.mask &&& g.mask = if f = g then f.mask else 0#12 := by
  cases f <;> cases g <;> decide

theorem PteBit.mask_ne_zero (f : PteBit) : f.mask ≠ 0#12 := by
  cases f <;> decide

theorem PteBit.not_mask_and {f g : PteBit} (ne : f ≠ g) : ~~~f.mask &&& g.mask = g.mask := by
  cases f <;> cases g <;> first | contradiction | decide

theorem PteBit.or_mask {f : PteBit} {x : Flags} (bit : x &&& f.mask ≠ 0#12) : x ||| f.mask = x := by
  have single : ∃ k, f.mask = BitVec.twoPow 12 k := by
    cases f
    · exact ⟨0, rfl⟩
    · exact ⟨1, rfl⟩
    · exact ⟨2, rfl⟩
    · exact ⟨5, rfl⟩
    · exact ⟨10, rfl⟩
  obtain ⟨k, single⟩ := single
  rw [single] at bit ⊢
  have set : x.getLsbD k = true := by
    by_contra clear
    rw [BitVec.and_twoPow, if_neg clear] at bit
    exact bit rfl
  ext i hi
  simp only [BitVec.getElem_or, BitVec.getElem_twoPow]
  by_cases same : i = k
  · subst same
    simp [← BitVec.getLsbD_eq_getElem, set]
  · simp [same]

structure Pte where
  ppn : Nat
  flags : Flags
  deriving DecidableEq, Repr

namespace Pte

def zero : Pte := ⟨0, 0#12⟩

/-- `*pte & f`. -/
def has (pte : Pte) (f : PteBit) : Bool := pte.flags &&& f.mask != 0#12
/-- `*pte = *pte | f`. -/
def set (pte : Pte) (f : PteBit) : Pte := { pte with flags := pte.flags ||| f.mask }
/-- `*pte = *pte & ~f`. -/
def clear (pte : Pte) (f : PteBit) : Pte := { pte with flags := pte.flags &&& ~~~f.mask }

/-- `*pte & (PTE_P | PTE_E)`: the entry maps a page, in the clear or encrypted. -/
def mapped (pte : Pte) : Bool := pte.has PTE_P || pte.has PTE_E

/-- An entry as the word it is in memory. -/
def word (pte : Pte) : Nat := pte.ppn * 4096 + pte.flags.toNat
def ofWord (w : Nat) : Pte := ⟨w / 4096, BitVec.ofNat 12 w⟩

@[simp] theorem set_ppn (pte : Pte) (f : PteBit) : (pte.set f).ppn = pte.ppn := rfl
@[simp] theorem clear_ppn (pte : Pte) (f : PteBit) : (pte.clear f).ppn = pte.ppn := rfl

@[simp] theorem has_zero (f : PteBit) : zero.has f = false := by cases f <;> rfl

@[simp] theorem has_set (pte : Pte) (f g : PteBit) :
    (pte.set f).has g = (pte.has g || f = g) := by
  unfold has set
  rw [BitVec.and_or_distrib_right, PteBit.mask_and, Bool.eq_iff_iff]
  by_cases same : f = g
  · simp [same, PteBit.mask_ne_zero]
  · simp [same]

@[simp] theorem has_clear (pte : Pte) (f g : PteBit) :
    (pte.clear f).has g = (pte.has g && f ≠ g) := by
  unfold has clear
  rw [BitVec.and_assoc]
  by_cases same : f = g
  · simp [same]
  · have kept := PteBit.not_mask_and same
    simp [same, kept]

theorem set_of_has {pte : Pte} {f : PteBit} (bit : pte.has f = true) : pte.set f = pte := by
  have same : pte.flags ||| f.mask = pte.flags := PteBit.or_mask (by simpa [Pte.has] using bit)
  simp only [Pte.set, same]

end Pte
end Xv6
