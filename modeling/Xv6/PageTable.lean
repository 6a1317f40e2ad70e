import Xv6.Kalloc

/-! Two-level page tables and the routines of `vm.c` that build, copy and free
them. A page directory is a value that holds its page-table pages, each with
the frame it occupies; a routine that updates a directory through a pointer
returns the updated directory. -/
namespace Xv6
open PteBit

structure PgTab where
  frame : Nat
  ptes : Nat → Pte

structure PgDir where
  frame : Nat
  tabs : Nat → Option PgTab

/-- `walkpgdir(pgdir, va, 0)`, read through: the entry for `va`, if its
page-table page exists. -/
def walkpgdir (d : PgDir) (va : Nat) : Option Pte :=
  (d.tabs (pdx va)).map fun t => t.ptes (ptx va)

def PgDir.setTab (d : PgDir) (i : Nat) (t : PgTab) : PgDir :=
  { d with tabs := Function.update d.tabs i (some t) }

/-- Store through the pointer `walkpgdir(pgdir, va, 0)`. -/
def PgDir.setPte (d : PgDir) (va : Nat) (pte : Pte) : PgDir :=
  match d.tabs (pdx va) with
  | none => d
  | some t => d.setTab (pdx va) { t with ptes := Function.update t.ptes (ptx va) pte }

/-- `walkpgdir(pgdir, va, 1)`: the directory with a page-table page for `va`,
or nothing when there was none and `kalloc` failed. -/
def walkpgdirAlloc (d : PgDir) (va : Nat) : M (Option PgDir) := do
  match d.tabs (pdx va) with
  | some _ => return some d
  | none =>
    match ← kalloc with
    | none => return none
    | some frame =>
      memset frame 0
      return some (d.setTab (pdx va) ⟨frame, fun _ => .zero⟩)

/-- The entry `mappages` stores: encrypted when `perm` says so, else present. -/
def mkPte (pa : Nat) (perm : Flags) : Pte :=
  if (Pte.mk (pa / PGSIZE) perm).has PTE_E then (Pte.mk (pa / PGSIZE) perm).set PTE_E
  else (Pte.mk (pa / PGSIZE) perm).set PTE_P

/-- The loop of `mappages`, with the number of pages left. The flag tells
whether every page was mapped. -/
def mappagesLoop (perm : Flags) : Nat → PgDir → Nat → Nat → M (Bool × PgDir)
  | 0, d, _, _ => return (true, d)
  | n + 1, d, a, pa => do
    match ← walkpgdirAlloc d a with
    | none => return (false, d)
    | some d =>
      if (walkpgdir d a).any Pte.mapped then
        throw (.panic "p4Debug, remapping page")
      else
        mappagesLoop perm n (d.setPte a (mkPte pa perm)) (uint (a + PGSIZE)) (uint (pa + PGSIZE))

/-- The rounds `mappages` makes from `a` until `a == last`. -/
def mapCount (va size : Nat) : Nat :=
  let last := pgRoundDown (uint (va + size + 2 ^ 32 - 1))
  uint (last + 2 ^ 32 - pgRoundDown va) / PGSIZE + 1

def mappages (d : PgDir) (va size pa : Nat) (perm : Flags) : M (Bool × PgDir) :=
  mappagesLoop perm (mapCount va size) d (pgRoundDown va) pa

structure Kmap where
  virt : Nat
  physStart : Nat
  physEnd : Nat
  perm : Flags

def kmap (data : Nat) : List Kmap :=
  [⟨KERNBASE, 0, EXTMEM, PTE_W.mask⟩,
   ⟨KERNLINK, KERNLINK - KERNBASE, data - KERNBASE, 0⟩,
   ⟨data, data - KERNBASE, PHYSTOP, PTE_W.mask⟩,
   ⟨DEVSPACE, DEVSPACE, 0, PTE_W.mask⟩]

/-- The loop of `deallocuvm`. Each round moves `a` up by at least one page, so
`n` bounds the rounds left. -/
def deallocuvmLoop (oldsz : Nat) : Nat → PgDir → Nat → M PgDir
  -- `n` pages from the start cover the range, and no size is above `KERNBASE`, so that `a` has
  -- not passed 0: it is at or above `oldsz`, where the guard ends the loop
  | 0, d, _ => return d
  | n + 1, d, a => do
    if a < oldsz then
      match walkpgdir d a with
      | none =>
        let a := uint (pgAddr (pdx a + 1) + 2 ^ 32 - PGSIZE)
        deallocuvmLoop oldsz n d (uint (a + PGSIZE))
      | some pte =>
        if pte.mapped then
          if pte.ppn = 0 then
            throw (.panic "kfree")
          else
            kfree pte.ppn
            deallocuvmLoop oldsz n (d.setPte a .zero) (uint (a + PGSIZE))
        else deallocuvmLoop oldsz n d (uint (a + PGSIZE))
    else return d

def deallocuvm (d : PgDir) (oldsz newsz : Nat) : M (Nat × PgDir) := do
  if newsz ≥ oldsz then
    return (oldsz, d)
  else
    let a := pgRoundUp newsz
    let d ← deallocuvmLoop oldsz ((oldsz - a) / PGSIZE + 1) d a
    return (newsz, d)

/-- The loop of `freevm` over the page-table pages. -/
def freevmLoop (d : PgDir) : Nat → M Unit
  | 0 => return ()
  | n + 1 => do
    match d.tabs (NPDENTRIES - (n + 1)) with
    | none => freevmLoop d n
    | some t =>
      kfree t.frame
      freevmLoop d n

def freevm (d : PgDir) : M Unit := do
  let (_, d) ← deallocuvm d KERNBASE 0
  freevmLoop d NPDENTRIES
  kfree d.frame

/-- The loop of `setupkvm` over `kmap`. -/
def setupkvmLoop : List Kmap → PgDir → M (Option PgDir)
  | [], d => return some d
  | k :: rest, d => do
    match ← mappages d k.virt (uint (k.physEnd + 2 ^ 32 - k.physStart)) k.physStart k.perm with
    | (true, d) => setupkvmLoop rest d
    | (false, d) =>
      freevm d
      return none

def setupkvm : M (Option PgDir) := do
  match ← kalloc with
  | none => return none
  | some frame =>
    memset frame 0
    setupkvmLoop (kmap (← get).image.data) ⟨frame, fun _ => none⟩

/-- The loop of `allocuvm`, with the number of pages left to add. -/
def allocuvmLoop (oldsz newsz : Nat) : Nat → PgDir → Nat → M (Nat × PgDir)
  | 0, d, _ => return (newsz, d)
  | n + 1, d, a => do
    match ← kalloc with
    | none =>
      let (_, d) ← deallocuvm d newsz oldsz
      return (0, d)
    | some mem =>
      memset mem 0
      match ← mappages d a PGSIZE (mem * PGSIZE) (PTE_W.mask ||| PTE_U.mask) with
      | (false, d) =>
        let (_, d) ← deallocuvm d newsz oldsz
        kfree mem
        return (0, d)
      | (true, d) => allocuvmLoop oldsz newsz n d (uint (a + PGSIZE))

/-- The new size, or 0 on error. -/
def allocuvm (d : PgDir) (oldsz newsz : Nat) : M (Nat × PgDir) := do
  if newsz ≥ KERNBASE then
    return (0, d)
  else if newsz < oldsz then
    return (oldsz, d)
  else
    let a := pgRoundUp oldsz
    allocuvmLoop oldsz newsz ((newsz - a + PGSIZE - 1) / PGSIZE) d a

def clearpteu (d : PgDir) (uva : Nat) : M PgDir := do
  match walkpgdir d uva with
  | none => throw (.panic "clearpteu")
  | some pte => return d.setPte uva (pte.clear PTE_U)

/-- The loop of `copyuvm` from page address `i`, with the number of pages left. -/
def copyuvmLoop (pgdir : PgDir) : Nat → PgDir → Nat → M (Option PgDir)
  | 0, d, _ => return some d
  | n + 1, d, i => do
    match walkpgdir pgdir i with
    | none => throw (.panic "p4Debug: inside copyuvm, pte should exist")
    | some pte =>
      if pte.mapped then
        match ← kalloc with
        | none =>
          freevm d
          return none
        | some mem =>
          modify fun m => m.write mem (m.bytes pte.ppn)
          match ← mappages d i PGSIZE (mem * PGSIZE) pte.flags with
          | (false, d) =>
            kfree mem
            freevm d
            return none
          | (true, d) => copyuvmLoop pgdir n d (uint (i + PGSIZE))
      else throw (.panic "p4Debug: inside copyuvm, page not present")

def copyuvm (pgdir : PgDir) (sz : Nat) : M (Option PgDir) := do
  match ← setupkvm with
  | none => return none
  | some d => copyuvmLoop pgdir ((sz + PGSIZE - 1) / PGSIZE) d 0

end Xv6
