import Xv6.Strings
import Xv6.Lib.Fields

/-! `getpgtable`: it scans the user pages downwards from the top of the process and writes
an entry for each page it lists into a buffer of the process. The kernel reaches the buffer
through the page table it is listing, so every write marks a page and may page-fault. -/
namespace Xv6
open PteBit Control Fields

/-- The members of `struct pt_entry`. -/
inductive PtEntry where
  | pdx | ptx | ppage | present | writable | user | encrypted | ref
  deriving DecidableEq, Repr

namespace PtEntry

/-- The word of the record that holds the member: `ppage` does not fit behind `ptx`. -/
def word : PtEntry → Nat
  | pdx | ptx => 0
  | ppage | present | writable | user | encrypted | ref => 1

def field : PtEntry → Field
  | pdx => ⟨0, 10⟩
  | ptx => ⟨10, 10⟩
  | ppage => ⟨0, 20⟩
  | present => ⟨20, 1⟩
  | writable => ⟨21, 1⟩
  | user => ⟨22, 1⟩
  | encrypted => ⟨23, 1⟩
  | ref => ⟨24, 1⟩

theorem apart {m n : PtEntry} (ne : m ≠ n) (same : m.word = n.word) : m.field.Apart n.field := by
  cases m <;> cases n <;> first | contradiction | decide

theorem inside (m : PtEntry) : m.field.shift + m.field.width ≤ 32 := by
  cases m <;> decide

end PtEntry

/-- The word at a user address, read by the kernel. -/
def loadWord [NullPte] (a : Nat) : K Nat := do
  let b₀ ← load false (uint a)
  let b₁ ← load false (uint (a + 1))
  let b₂ ← load false (uint (a + 2))
  let b₃ ← load false (uint (a + 3))
  return le [b₀, b₁, b₂, b₃] 0 4

/-- The null pointer as the kernel runs with it: user page 0 is mapped, so that the entry behind
the pointer is the word at user address 0. A page fault on that page whose own eviction comes to
the null pointer again never gets served. -/
@[reducible] def NullPte.userWord : NullPte where
  read := do return .ofWord (← loadWord 0)
  write pte := storeInt 0 pte.word

/-- `entry->m = x`. -/
def setMember [NullPte] (entry : Nat) (m : PtEntry) (x : Nat) : K Unit := do
  let w ← loadWord (entry + 4 * m.word)
  storeInt (entry + 4 * m.word) (m.field.put w x)

/-- `entry->m` is set to a part of `*pte`. -/
def setFromPte [NullPte] (entry uva : Nat) (m : PtEntry) (x : Pte → Nat) : K Unit := do
  let pte ← derefPte (← get).proc.pgdir uva
  setMember entry m (x pte)

/-- The entry of the page at `uva`. The member `user` is not set. -/
def writeEntry [NullPte] (entry uva : Nat) : K Unit := do
  setMember entry .pdx (pdx uva)
  setMember entry .ptx (ptx uva)
  setFromPte entry uva .ppage fun pte => pte.ppn
  setFromPte entry uva .present fun pte => (pte.has PTE_P).toNat
  setFromPte entry uva .writable fun pte => (pte.has PTE_W).toNat
  setFromPte entry uva .encrypted fun pte => (pte.has PTE_E).toNat
  setFromPte entry uva .ref fun pte => (pte.has PTE_A).toNat

/-- The loop of `getpgtable`. It ends only where it has written an entry. The result is the
number of entries and, for the record, the addresses that were looked up. -/
def getpgtableLoop [NullPte] (entries : Nat) (num wsetOnly : Int) : Nat → Nat → Nat → K (Nat × List Nat)
  | 0, _, _ => throw .spin
  | fuel + 1, uva, i => do
    let p := (← get).proc
    let pte ← derefPte p.pgdir uva
    let next := uint (uva + 2 ^ 32 - PGSIZE)
    if pte.has PTE_U = false ∨ pte.mapped = false then
      let (n, seen) ← getpgtableLoop entries num wsetOnly fuel next i
      return (n, uva :: seen)
    else if wsetOnly ≠ 0 ∧ inQ p uva = none then
      let (n, seen) ← getpgtableLoop entries num wsetOnly fuel next i
      return (n, uva :: seen)
    else
      writeEntry (entries + 8 * i) uva
      if uva = 0 ∨ ((i + 1 : Nat) : Int) = num then
        return (i + 1, [uva])
      else
        let (n, seen) ← getpgtableLoop entries num wsetOnly fuel next (i + 1)
        return (n, uva :: seen)

/-- The page the scan starts at. -/
def scanStart (sz : Nat) : Nat :=
  if sz % PGSIZE = 0 then uint (sz + 2 ^ 32 - PGSIZE) else pgRoundDown sz

/-- `getpgtable`, for as many rounds of its loop as `fuel` says. -/
def getpgtable [NullPte] (fuel entries : Nat) (num wsetOnly : Int) : K (Int × List Nat) := do
  if wsetOnly ≠ 0 ∧ wsetOnly ≠ 1 then
    return (-1, [])
  else
    let (i, seen) ← getpgtableLoop entries num wsetOnly fuel (scanStart (← get).proc.sz) 0
    return (i, seen)

/-- A member of the entry at `entry`, as the process sees it. -/
def St.member (s : St) (entry : Nat) (m : PtEntry) : Nat :=
  m.field.get (s.word (entry + 4 * m.word))

end Xv6
