import Xv6.System
import Xv6.Lib.Threads

/-! The system calls as programs of atomic sections. The open-file table has a lock
of its own, each process has its descriptors to itself, and between two sections the
other processes run. The part of `fork` that builds the child's memory is one section,
as it works on a slot nobody else uses; so is the closing of a file together with its
end of a pipe. -/
namespace Xv6
open Threads (Prog)
open Threads.Prog (atomic)

abbrev T := Prog Stop Sys

/-- What a process can do here: the calls of the machine, and those of the file
layer. Whether `sys_open` finds or creates an inode is decided by the file system. -/
inductive FileCall where
  | kernel (call : Call)
  | open (found writable : Bool)
  | dup (fd : BitVec 32)

/-- The result of a section, or nothing when the process is to exit. -/
def catchExit {α : Type} (m : S α) : S (Option α) :=
  tryCatch (do return some (← m)) fun stop =>
    match stop with
    | .exit => return none
    | stop => throw stop

def ofileOf (i fd : Nat) : S (Option Nat) := do return ((← get).slots i).ofile fd

/-- The loop of `exit` over the descriptors, with the number of descriptors left. -/
def closeAll (i : Nat) : Nat → T Unit
  | 0 => return ()
  | n + 1 => do
    let fd := NOFILE - (n + 1)
    match ← atomic (ofileOf i fd) with
    | none => closeAll i n
    | some f =>
      atomic (fileclose f)
      atomic (setFd i fd none)
      closeAll i n

/-- The end of `exit`: the children pass to `initproc` and the process is a zombie. -/
def abandon (i : Nat) : S Unit := do
  modify fun s => { s with slots := fun j => (s.slots j).adopt i s.initproc }
  modifySlot i fun slot => { slot with state := .ZOMBIE }

def exitCheck (i : Nat) : S Unit := do
  if i = (← get).initproc then
    throw (.panic "init exiting")
  else return ()

def exiting (i : Nat) : T Unit := do
  atomic (exitCheck i)
  closeAll i NOFILE
  atomic (abandon i)

/-- A call that works on the memory of the process alone. -/
def ownCall (i : Nat) (m : K Int) : T (Option Int) := do
  match ← atomic (catchExit (onProc i m)) with
  | some r => return some r
  | none =>
    exiting i
    return none

/-- The loop of `fork` over the descriptors, with the number of descriptors left. -/
def dupAll (i np : Nat) : Nat → T Unit
  | 0 => return ()
  | n + 1 => do
    let fd := NOFILE - (n + 1)
    match ← atomic (ofileOf i fd) with
    | none => dupAll i np n
    | some f =>
      atomic (filedup f)
      atomic (setFd np fd (some f))
      dupAll i np n

def setRunnable (np : Nat) : S Int := do
  modifySlot np fun slot => { slot with state := .RUNNABLE }
  return ((← get).slots np).pid

def forking (i : Nat) : T Int := do
  match ← atomic (forkSpace i) with
  | none => return -1
  | some np =>
    dupAll i np NOFILE
    atomic (setRunnable np)

/-- `pipealloc` once it has both files. -/
def pipeSetup (f0 f1 : Nat) : S Bool := do
  match ← sysPhys kalloc with
  | none => return false
  | some p =>
    modify fun s => s.setPipe p ⟨true, true⟩
    modifyFile f0 fun f => { f with type := .FD_PIPE, writable := false, pipe := p }
    modifyFile f1 fun f => { f with type := .FD_PIPE, writable := true, pipe := p }
    return true

def pipeFiles : T (Option (Nat × Nat)) := do
  match ← atomic filealloc with
  | none => return none
  | some f0 =>
    match ← atomic filealloc with
    | none =>
      atomic (fileclose f0)
      return none
    | some f1 =>
      match ← atomic (pipeSetup f0 f1) with
      | true => return some (f0, f1)
      | false =>
        atomic (fileclose f0)
        atomic (fileclose f1)
        return none

/-- The descriptors of `sys_pipe`, or nothing when there are none left. -/
def pipeSlots (i rf wf : Nat) : T (Option (Nat × Nat)) := do
  match ← atomic (fdalloc i rf) with
  | none =>
    atomic (fileclose rf)
    atomic (fileclose wf)
    return none
  | some fd0 =>
    match ← atomic (fdalloc i wf) with
    | none =>
      atomic (setFd i fd0 none)
      atomic (fileclose rf)
      atomic (fileclose wf)
      return none
    | some fd1 => return some (fd0, fd1)

def argCheck (i fd : Nat) : S Bool := do return argptr ((← get).slots i).proc fd 8

def piping (i fd : Nat) : T (Option Int) := do
  match ← atomic (argCheck i fd) with
  | false => return some (-1)
  | true =>
    match ← pipeFiles with
    | none => return some (-1)
    | some (rf, wf) =>
      match ← pipeSlots i rf wf with
      | none => return some (-1)
      | some (fd0, fd1) =>
        ownCall i do
          storeInt fd fd0
          storeInt (fd + 4) fd1
          return 0

/-- The file of a descriptor, as `argfd` finds it. -/
def argfd (i : Nat) (fd : BitVec 32) : S (Option Nat) := do
  if fd.toInt < 0 ∨ NOFILE ≤ fd.toInt then return none
  else return ((← get).slots i).ofile fd.toNat

def closing (i : Nat) (fd : BitVec 32) : T Int := do
  match ← atomic (argfd i fd) with
  | none => return -1
  | some f =>
    atomic (setFd i fd.toNat none)
    atomic (fileclose f)
    return 0

def sysDup (i : Nat) (fd : BitVec 32) : T Int := do
  match ← atomic (argfd i fd) with
  | none => return -1
  | some f =>
    match ← atomic (fdalloc i f) with
    | none => return -1
    | some fd =>
      atomic (filedup f)
      return fd

/-- `sys_open` from the point where it has the inode. -/
def openFile (i : Nat) (writable : Bool) : T Int := do
  match ← atomic filealloc with
  | none => return -1
  | some f =>
    match ← atomic (fdalloc i f) with
    | none =>
      atomic (fileclose f)
      return -1
    | some fd =>
      atomic (modifyFile f fun f => { f with type := .FD_INODE, writable := writable })
      return fd

def sysOpen (i : Nat) (found writable : Bool) : T Int :=
  if found then openFile i writable else return -1

/-- A call by process `i`. It has no result when the process ends in it. -/
def Call.program (i : Nat) : Call → T (Option Int)
  | .load va => ownCall i do return (← Xv6.load true va.toNat).toNat
  | .store va b => ownCall i do
      Xv6.store true va.toNat b
      return 0
  | .mencrypt va len => ownCall i (Xv6.mencrypt va.toNat len.toInt)
  | .growproc n => ownCall i (Xv6.growproc n.toInt)
  | .fork => do return some (← forking i)
  | .exec namei path uargv => ownCall i (sysExec namei path.toNat uargv.toNat)
  | .exit => do
    exiting i
    return none
  | .wait => do return some (← atomic (Xv6.wait i))
  | .pipe fd => piping i fd.toNat
  | .close fd => do return some (← closing i fd)

def FileCall.program (i : Nat) : FileCall → T (Option Int)
  | .kernel call => call.program i
  | .open found writable => do return some (← sysOpen i found writable)
  | .dup fd => do return some (← sysDup i fd)

/-- A process makes calls while it is alive. -/
def admits (s : Sys) (i : Nat) (_ : FileCall) : Prop :=
  i < NPROC ∧ (s.slots i).state.live = true

def FileCall.body (i : Nat) (call : FileCall) : T Unit := do
  let _ ← call.program i
  return ()

/-- The machine, its processes between two calls. -/
def Sys.pool (s : Sys) : Threads.Pool Nat Stop Sys := ⟨s, fun _ => .done (), fun _ => false⟩

abbrev SectionStep := Threads.Pool.Step admits FileCall.body

end Xv6
