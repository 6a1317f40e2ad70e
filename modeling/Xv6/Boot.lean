import Xv6.System

/-! The first process: `inituvm` and `userinit`, on a machine whose tables are as
they are when the kernel has been loaded. -/
namespace Xv6
open PteBit

/-- The page of `initcode`. The results of `kalloc` and `mappages` are not tested. -/
def inituvm (d : PgDir) (init : List UInt8) : M PgDir := do
  if init.length ≥ PGSIZE then
    throw (.panic "inituvm: more than a page")
  else
    match ← kalloc with
    | none => throw .fault
    | some mem =>
      memset mem 0
      let (_, d) ← mappages d 0 PGSIZE (mem * PGSIZE) (PTE_W.mask ||| PTE_U.mask)
      modify fun m => m.blit mem init
      return d

def userinit (initcode : List UInt8) : S Unit := do
  match ← allocproc with
  | none => throw .fault
  | some p =>
    modify fun s => { s with initproc := p }
    match ← sysPhys setupkvm with
    | none => throw (.panic "userinit: out of memory?")
    | some d =>
      let d ← sysPhys (inituvm d initcode)
      modifySlot p fun slot => { slot with
        state := .RUNNABLE
        proc := { slot.proc with
          pgdir := d, sz := PGSIZE, esp := PGSIZE, eip := 0, name := "initcode".toUTF8.toList } }

/-- The machine before `userinit`: every table is zero. -/
def Sys.boot (m : Phys) : Sys where
  phys := m
  slots _ := ⟨.UNUSED, 0, none, none,
    ⟨0, ⟨0, fun _ => none⟩, fun _ => 0, 0, fun _ => false, [], 0, 0⟩, fun _ => none⟩
  files _ := ⟨.FD_NONE, 0, false, 0⟩
  pipes _ := ⟨false, false⟩
  nextpid := 1
  initproc := 0

end Xv6
