import Xv6.Exec

/-! The process table, the open-file table and the pipes, with the system calls
that create and destroy processes and pipes: the memory side of `proc.c`,
`file.c`, `pipe.c` and `sysfile.c`. One step is one whole call; a call that can
block is a step only when it returns. Scheduling, inodes and the contents of
kernel stacks and pipe buffers are not part of this state. -/
namespace Xv6

abbrev NPROC : Nat := 64
abbrev NOFILE : Nat := 16
abbrev NFILE : Nat := 100

instance NPROC.neZero : NeZero NPROC := ⟨by decide⟩

inductive ProcState where
  | UNUSED | EMBRYO | SLEEPING | RUNNABLE | RUNNING | ZOMBIE
  deriving DecidableEq, Repr

structure Slot where
  state : ProcState
  pid : Nat
  parent : Option Nat
  kstack : Option Nat
  proc : Proc
  ofile : Nat → Option Nat

inductive FdType where
  | FD_NONE | FD_PIPE | FD_INODE
  deriving DecidableEq, Repr

structure File where
  type : FdType
  ref : Nat
  writable : Bool
  pipe : Nat

structure Pipe where
  readopen : Bool
  writeopen : Bool

/-- `pipes` gives the contents of each frame that is in use as a pipe. -/
structure Sys where
  phys : Phys
  slots : Nat → Slot
  files : Nat → File
  pipes : Nat → Pipe
  nextpid : Nat
  initproc : Nat

abbrev S := EStateM Stop Sys

def sysPhys {α : Type} (m : M α) : S α :=
  Control.zoom Sys.phys (fun s phys => { s with phys := phys }) m

def Sys.setSlot (s : Sys) (i : Nat) (slot : Slot) : Sys :=
  { s with slots := Function.update s.slots i slot }

def Sys.setFile (s : Sys) (k : Nat) (f : File) : Sys :=
  { s with files := Function.update s.files k f }

def Sys.setPipe (s : Sys) (frame : Nat) (p : Pipe) : Sys :=
  { s with pipes := Function.update s.pipes frame p }

def modifySlot (i : Nat) (f : Slot → Slot) : S Unit := modify fun s => s.setSlot i (f (s.slots i))
def modifyFile (k : Nat) (f : File → File) : S Unit := modify fun s => s.setFile k (f (s.files k))

/-- What process `i` sees of the machine, and the machine after it has changed it. -/
def Sys.view (s : Sys) (i : Nat) : St := ⟨s.phys, (s.slots i).proc⟩
def Sys.put (s : Sys) (i : Nat) (st : St) : Sys :=
  { s.setSlot i { s.slots i with proc := st.proc } with phys := st.phys }

/-- Run a routine of the memory system on behalf of process `i`. -/
def onProc {α : Type} (i : Nat) (m : K α) : S α :=
  Control.zoom (fun s => s.view i) (fun s st => s.put i st) m

def filealloc : S (Option Nat) := do
  let s ← get
  match (List.range NFILE).find? fun k => (s.files k).ref = 0 with
  | none => return none
  | some k =>
    modifyFile k fun f => { f with ref := 1 }
    return some k

def filedup (k : Nat) : S Unit := do
  if ((← get).files k).ref < 1 then
    throw (.panic "filedup")
  else modifyFile k fun f => { f with ref := f.ref + 1 }

/-- A pipe without one of its ends. -/
def Pipe.close (p : Pipe) (writable : Bool) : Pipe :=
  if writable then { p with writeopen := false } else { p with readopen := false }

def pipeclose (p : Nat) (writable : Bool) : S Unit := do
  let pipe := ((← get).pipes p).close writable
  modify fun s => s.setPipe p pipe
  if pipe.readopen = false ∧ pipe.writeopen = false then
    sysPhys (kfree p)
  else return ()

def fileclose (k : Nat) : S Unit := do
  let f := (← get).files k
  if f.ref < 1 then
    throw (.panic "fileclose")
  else if 0 < f.ref - 1 then
    modifyFile k fun f => { f with ref := f.ref - 1 }
  else
    modifyFile k fun f => { f with ref := 0, type := .FD_NONE }
    match f.type with
    | .FD_PIPE => pipeclose f.pipe f.writable
    | _ => return ()

def pipealloc : S (Option (Nat × Nat)) := do
  match ← filealloc with
  | none => return none
  | some f0 =>
    match ← filealloc with
    | none =>
      fileclose f0
      return none
    | some f1 =>
      match ← sysPhys kalloc with
      | none =>
        fileclose f0
        fileclose f1
        return none
      | some p =>
        modify fun s => s.setPipe p ⟨true, true⟩
        modifyFile f0 fun f => { f with type := .FD_PIPE, writable := false, pipe := p }
        modifyFile f1 fun f => { f with type := .FD_PIPE, writable := true, pipe := p }
        return some (f0, f1)

def setFd (i fd : Nat) (f : Option Nat) : S Unit :=
  modifySlot i fun slot => { slot with ofile := Function.update slot.ofile fd f }

def fdalloc (i f : Nat) : S (Option Nat) := do
  let s ← get
  match (List.range NOFILE).find? fun fd => (s.slots i).ofile fd = none with
  | none => return none
  | some fd =>
    setFd i fd (some f)
    return some fd

/-- `fd[k] = v` for the `int` array at user address `fd`. -/
def storeInt [NullPte] (fd v : Nat) : K Unit := do
  store false (uint fd) v.toUInt8
  store false (uint (fd + 1)) (v / 2 ^ 8).toUInt8
  store false (uint (fd + 2)) (v / 2 ^ 16).toUInt8
  store false (uint (fd + 3)) (v / 2 ^ 24).toUInt8

/-- The descriptors of `sys_pipe`, or nothing when there are none left. -/
def pipeFds (i rf wf : Nat) : S (Option (Nat × Nat)) := do
  match ← fdalloc i rf with
  | none =>
    fileclose rf
    fileclose wf
    return none
  | some fd0 =>
    match ← fdalloc i wf with
    | none =>
      setFd i fd0 none
      fileclose rf
      fileclose wf
      return none
    | some fd1 => return some (fd0, fd1)

def sysPipe [NullPte] (i fd : Nat) : S Int := do
  if argptr ((← get).slots i).proc fd 8 = false then
    return -1
  else
    match ← pipealloc with
    | none => return -1
    | some (rf, wf) =>
      match ← pipeFds i rf wf with
      | none => return -1
      | some (fd0, fd1) =>
        onProc i do
          storeInt fd fd0
          storeInt (fd + 4) fd1
        return 0

def sysClose (i fd : Nat) : S Int := do
  match ((← get).slots i).ofile fd with
  | none => return -1
  | some f =>
    if fd < NOFILE then
      setFd i fd none
      fileclose f
      return 0
    else return -1

def allocproc : S (Option Nat) := do
  let s ← get
  match (List.range NPROC).find? fun i => (s.slots i).state = .UNUSED with
  | none => return none
  | some i =>
    modifySlot i fun slot => { slot with state := .EMBRYO, pid := s.nextpid }
    modify fun s => { s with nextpid := s.nextpid + 1 }
    match ← sysPhys kalloc with
    | none =>
      modifySlot i fun slot => { slot with state := .UNUSED, kstack := none }
      return none
    | some kstack =>
      modifySlot i fun slot => { slot with kstack := some kstack }
      return some i

/-- `kfree(p->kstack)`; a null stack is below the end of the kernel. -/
def freeStack (kstack : Option Nat) : S Unit :=
  match kstack with
  | none => throw (.panic "kfree")
  | some frame => sysPhys (kfree frame)

/-- The clock of a child: the loops of `fork` over `np->clock`. -/
def forkClock (head : Nat) (clock : Nat → Nat) : Nat → Nat → Nat
  | 0 => fun _ => 0
  | n + 1 =>
    let i := (head + n) % CLOCKSIZE
    if clock i ≠ 0 then Function.update (forkClock head clock n) i (clock i)
    else forkClock head clock n

/-- What a child inherits; its translation buffer is empty. -/
def Proc.child (p : Proc) (d : PgDir) : Proc :=
  { p with pgdir := d, clock := forkClock p.head p.clock CLOCKSIZE, tlb := fun _ => false }

/-- `filedup` for every open descriptor, with the number of descriptors left. -/
def dupFiles (i np : Nat) : Nat → S Unit
  | 0 => return ()
  | n + 1 => do
    let fd := NOFILE - (n + 1)
    match ((← get).slots i).ofile fd with
    | none => dupFiles i np n
    | some f =>
      filedup f
      setFd np fd (some f)
      dupFiles i np n

/-- The first part of `fork`: a slot, a kernel stack and a copy of the memory. -/
def forkSpace (i : Nat) : S (Option Nat) := do
  match ← allocproc with
  | none => return none
  | some np =>
    let cur := ((← get).slots i).proc
    match ← sysPhys (copyuvm cur.pgdir cur.sz) with
    | none =>
      freeStack ((← get).slots np).kstack
      modifySlot np fun slot => { slot with kstack := none, state := .UNUSED }
      return none
    | some d =>
      modifySlot np fun slot => { slot with parent := some i, proc := cur.child d }
      return some np

def fork (i : Nat) : S Int := do
  match ← allocproc with
  | none => return -1
  | some np =>
    let cur := ((← get).slots i).proc
    match ← sysPhys (copyuvm cur.pgdir cur.sz) with
    | none =>
      freeStack ((← get).slots np).kstack
      modifySlot np fun slot => { slot with kstack := none, state := .UNUSED }
      return -1
    | some d =>
      modifySlot np fun slot => { slot with parent := some i, proc := cur.child d }
      dupFiles i np NOFILE
      modifySlot np fun slot => { slot with state := .RUNNABLE }
      return ((← get).slots np).pid

/-- `fileclose` for every open descriptor, with the number of descriptors left. -/
def closeFiles (i : Nat) : Nat → S Unit
  | 0 => return ()
  | n + 1 => do
    let fd := NOFILE - (n + 1)
    match ((← get).slots i).ofile fd with
    | none => closeFiles i n
    | some f =>
      fileclose f
      setFd i fd none
      closeFiles i n

/-- A child of process `i` passes to `initproc`. -/
def Slot.adopt (slot : Slot) (i initproc : Nat) : Slot :=
  if slot.parent = some i then { slot with parent := some initproc } else slot

/-- `exit`: the process becomes a zombie and its children pass to `initproc`. -/
def exit (i : Nat) : S Unit := do
  if i = (← get).initproc then
    throw (.panic "init exiting")
  else
    closeFiles i NOFILE
    modify fun s => { s with slots := fun j => (s.slots j).adopt i s.initproc }
    modifySlot i fun slot => { slot with state := .ZOMBIE }

/-- `wait`, when it does not have to sleep: a child whose state is `ZOMBIE` is
freed, and without children the call fails. -/
def wait (i : Nat) : S Int := do
  let s ← get
  match (List.range NPROC).find? fun j => (s.slots j).parent = some i ∧ (s.slots j).state = .ZOMBIE with
  | some j =>
    freeStack (s.slots j).kstack
    sysPhys (freevm (s.slots j).proc.pgdir)
    modifySlot j fun slot => { slot with kstack := none, pid := 0, parent := none, state := .UNUSED }
    return (s.slots j).pid
  | none =>
    if (List.range NPROC).any fun j => (s.slots j).parent = some i then
      throw .sleep
    else return -1

end Xv6
