import Xv6.Lib.Control
import Xv6.PageTable

/-! Page encryption and the clock of decrypted pages: the second half of `vm.c`,
the page-fault branch of `trap` and `growproc`. These routines run on behalf of
one process, on its own page table. Diagnostic output is not part of this state.

The state also records the pages whose translation was used since `cr3` was last
loaded, which is what a translation lookaside buffer may still hold. Translation
itself follows the page table, and the processor sets `PTE_A` when it uses an
entry. Every user page is mapped writable, so write protection plays no part. -/
namespace Xv6
open PteBit

abbrev CLOCKSIZE : Nat := 8

/-- The part of `struct proc` the memory system reads and writes. A clock entry
of 0 is the null pointer; `eip` and `esp` are those of the trap frame. -/
structure Proc where
  sz : Nat
  pgdir : PgDir
  clock : Nat → Nat
  head : Nat
  tlb : Nat → Bool
  name : List UInt8
  eip : Nat
  esp : Nat

structure St where
  phys : Phys
  proc : Proc

abbrev K := EStateM Stop St

/-- Run a routine that only needs physical memory. -/
def onPhys {α : Type} (m : M α) : K α := Control.zoom St.phys (fun s phys => { s with phys := phys }) m

def modifyProc (f : Proc → Proc) : K Unit := modify fun s => { s with proc := f s.proc }

/-- What the kernel finds behind the null pointer that `walkpgdir` returns where there is no
page table, and what a store through that pointer does. -/
class NullPte where
  read : K Pte
  write : Pte → K Unit

/-- The machine that stops at the null pointer. It stands for the kernel in every run that does
not come to such a pointer. -/
instance NullPte.stop : NullPte := ⟨throw .nullPte, fun _ => throw .nullPte⟩

/-- Dereference the result of `walkpgdir(pgdir, va, 0)`. -/
def derefPte [NullPte] (d : PgDir) (va : Nat) : K Pte :=
  match walkpgdir d va with
  | some pte => return pte
  | none => NullPte.read

/-- The frame behind a user address, if user code may use the page. -/
def uva2ka [NullPte] (d : PgDir) (uva : Nat) : K (Option Nat) := do
  let pte ← derefPte d uva
  if pte.mapped then
    if pte.has PTE_U then
      return some pte.ppn
    else return none
  else return none

/-- `lcr3` in `switchuvm` empties the translation buffer. -/
def switchuvm : K Unit := modifyProc fun p => { p with tlb := fun _ => false }

def Proc.setPte (p : Proc) (va : Nat) (pte : Pte) : Proc :=
  { p with pgdir := p.pgdir.setPte va pte }

/-- The processor uses the translation of `va`. -/
def Proc.use (p : Proc) (va : Nat) (pte : Pte) : Proc :=
  { p.setPte va (pte.set PTE_A) with tlb := Function.update p.tlb (vpn va) true }

/-- Store through the pointer that `derefPte` reads through. -/
def storePte [NullPte] (va : Nat) (pte : Pte) : K Unit := do
  match walkpgdir (← get).proc.pgdir va with
  | some _ => modifyProc fun p => p.setPte va pte
  | none => NullPte.write pte

/-- The loop `*slider = *slider ^ 0xFF; slider++` over the page at `va`, through
the user mapping. Where there is no page table, `mdecrypt` fails and `trap` ends the process. -/
def xorPage (va : Nat) : K Unit := do
  match walkpgdir (← get).proc.pgdir va with
  | none => throw .exit
  | some pte =>
    if pte.has PTE_P then
      modify fun s =>
        { phys := s.phys.write pte.ppn (s.phys.bytes pte.ppn).flip, proc := s.proc.use va pte }
    else throw .fault

def translateAndSet [NullPte] (uva : Nat) : K (Option Nat) := do
  let pte ← derefPte (← get).proc.pgdir uva
  if pte.has PTE_P = false ∧ pte.has PTE_E = false then
    return none
  else if pte.has PTE_E then
    return none
  else if pte.has PTE_U = false then
    return none
  else
    modifyProc fun p => p.setPte uva (((pte.set PTE_E).clear PTE_P).clear PTE_A)
    return some pte.ppn

/-- The first loop of `mencrypt`: every page of the range can be translated. -/
def mencryptCheck [NullPte] (d : PgDir) : Nat → Nat → K Bool
  | 0, _ => return true
  | n + 1, slider => do
    match ← uva2ka d slider with
    | none => return false
    | some _ => mencryptCheck d n (uint (slider + PGSIZE))

/-- The second loop of `mencrypt`. It returns from inside the loop once it has
encrypted one page. -/
def mencryptLoop [NullPte] : Nat → Nat → K Int
  | 0, _ => do
    switchuvm
    return 0
  | n + 1, slider => do
    let mypd := (← get).proc.pgdir
    let _ ← uva2ka mypd slider
    let mypte ← derefPte mypd slider
    if mypte.has PTE_E then
      mencryptLoop n (uint (slider + PGSIZE))
    else
      xorPage slider
      match ← translateAndSet slider with
      | none => return -1
      | some _ => return 0

def mencrypt [NullPte] (va : Nat) (len : Int) : K Int := do
  let va := pgRoundDown va
  match ← mencryptCheck (← get).proc.pgdir len.toNat va with
  | false => return -1
  | true => mencryptLoop len.toNat va

/-- `argptr`, once it has fetched the pointer: the block lies below the size. -/
def argptr (p : Proc) (i size : Nat) : Bool := i < p.sz ∧ uint (i + size) ≤ p.sz

def sysMencrypt [NullPte] (va : Nat) (len : Int) : K Int := do
  if len ≤ 0 then
    return -1
  else if argptr (← get).proc va 1 = false then
    return -1
  else if va ≥ KERNBASE + PHYSTOP then
    return -1
  else mencrypt va len

/-- The slot of the clock that holds `virt`, searched from `head` on. -/
def inQ (p : Proc) (virt : Nat) : Option Nat :=
  ((List.range CLOCKSIZE).map fun k => (p.head % CLOCKSIZE + k) % CLOCKSIZE).find?
    fun i => p.clock i = virt

/-- The empty slot `addClock` takes: `i` counts down from `head + CLOCKSIZE`. -/
def emptySlot (p : Proc) : Option Nat :=
  ((List.range CLOCKSIZE).map fun k => p.head + CLOCKSIZE - k).find?
    fun i => p.clock (i % CLOCKSIZE) = 0

def Proc.setClock (p : Proc) (i va head : Nat) : Proc :=
  { p with clock := Function.update p.clock i (pgRoundDown va), head := head }

/-- The eviction loop of `addClock`. The local `head` is not advanced with
`p->head`, so `cur_va` is the same entry in every round. -/
def evictLoop [NullPte] (va head : Nat) : Nat → Nat → K Unit
  | 0, _ => throw .spin
  | n + 1, curVa => do
    let pte ← derefPte (← get).proc.pgdir curVa
    if pte.has PTE_A = false then
      let _ ← mencrypt curVa 1
      modifyProc fun p => p.setClock head va ((p.head + 1) % CLOCKSIZE)
    else
      storePte curVa (pte.clear PTE_A)
      modifyProc fun p => { p with head := (p.head + 1) % CLOCKSIZE }
      evictLoop va head n ((← get).proc.clock head)

def addClock [NullPte] (va : Nat) : K Unit := do
  let p := (← get).proc
  match emptySlot p with
  | some i =>
    modifyProc fun p => p.setClock (i % CLOCKSIZE) va ((i + 1) % CLOCKSIZE)
    let pte ← derefPte p.pgdir va
    modifyProc fun p => p.setPte va (pte.clear PTE_A)
  | none => evictLoop va p.head 2 (p.clock p.head)

/-- `mdecrypt` once the page is in the clock. -/
def mdecryptPage [NullPte] (va : Nat) : K Int := do
  let pte ← derefPte (← get).proc.pgdir va
  modifyProc fun p => p.setPte va ((pte.clear PTE_E).set PTE_P)
  match ← uva2ka (← get).proc.pgdir (pgRoundDown va) with
  | none => return -1
  | some kvp =>
    if (← get).phys.bytes kvp 0 = 0 then
      return -1
    else
      xorPage (pgRoundDown va)
      return 0

def mdecrypt [NullPte] (va : Nat) : K Int := do
  let p := (← get).proc
  match walkpgdir p.pgdir va with
  | none => return -1
  | some pte =>
    if pte = .zero then
      return -1
    else
      match inQ p va with
      | none =>
        addClock va
        mdecryptPage va
      | some _ => mdecryptPage va

/-- `trap` on `T_PGFLT`. -/
def trapPgflt [NullPte] (addr : Nat) : K Unit := do
  if (← mdecrypt addr) ≠ 0 then
    throw .exit
  else return ()

/-- The entry for `va`, if an access in user or kernel mode needs no fault. -/
def Proc.resident (p : Proc) (user : Bool) (va : Nat) : Option Pte :=
  (walkpgdir p.pgdir va).filter fun pte => pte.has PTE_P && (!user || pte.has PTE_U)

/-- An access to `va`: the frame it reaches. After a page fault that `trap`
serves, the instruction is restarted. -/
def access [NullPte] (user : Bool) (va : Nat) : K Nat := do
  match (← get).proc.resident user va with
  | some pte =>
    modifyProc fun p => p.use va pte
    return pte.ppn
  | none =>
    trapPgflt va
    match (← get).proc.resident user va with
    | some pte =>
      modifyProc fun p => p.use va pte
      return pte.ppn
    | none => throw .fault

def load [NullPte] (user : Bool) (va : Nat) : K UInt8 := do
  let frame ← access user va
  return (← get).phys.bytes frame (slot va)

def Phys.poke (m : Phys) (frame va : Nat) (b : UInt8) : Phys :=
  m.write frame (Function.update (m.bytes frame) (slot va) b)

def store [NullPte] (user : Bool) (va : Nat) (b : UInt8) : K Unit := do
  let frame ← access user va
  modify fun s => { s with phys := s.phys.poke frame va b }

/-- `sz + n` for an `int n`. -/
def addInt (sz : Nat) (n : Int) : Nat := ((sz + n) % 2 ^ 32).toNat

/-- The loop of `growproc` that encrypts one page after another. -/
def growprocLoop [NullPte] : Nat → Nat → K Unit
  | 0, _ => return ()
  | k + 1, a => do
    let _ ← mencrypt a 1
    growprocLoop k (uint (a + PGSIZE))

def growproc [NullPte] (n : Int) : K Int := do
  let p := (← get).proc
  if 0 < n then
    let (sz, d) ← onPhys (allocuvm p.pgdir p.sz (addInt p.sz n))
    modifyProc fun p => { p with pgdir := d }
    if sz = 0 then
      return -1
    else
      let n := if n % PGSIZE ≠ 0 then pgRoundUp n.toNat else n.toNat
      growprocLoop (n / PGSIZE) p.sz
      modifyProc fun p => { p with sz := sz }
      switchuvm
      return 0
  else if n < 0 then
    let (sz, d) ← onPhys (deallocuvm p.pgdir p.sz (addInt p.sz n))
    modifyProc fun p => { p with pgdir := d }
    if sz = 0 then
      return -1
    else
      modifyProc fun p => { p with sz := sz }
      switchuvm
      return 0
  else
    switchuvm
    return 0

end Xv6
