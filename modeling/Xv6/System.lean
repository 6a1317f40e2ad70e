import Xv6.Kernel
import Xv6.Lib.Run

/-! The kernel as a machine: the processes take turns, and a step is one access
to memory by user code or one system call by some process, with its result. A
process that a page fault ends takes the exit path of the kernel. -/
namespace Xv6

/-- What a process can do. The file system of the moment is part of an `exec`. -/
inductive Call where
  | load (va : BitVec 32)
  | store (va : BitVec 32) (b : UInt8)
  | mencrypt (va len : BitVec 32)
  | growproc (n : BitVec 32)
  | fork
  | exec (namei : List UInt8 → Option Inode) (path uargv : BitVec 32)
  | exit
  | wait
  | pipe (fd : BitVec 32)
  | close (fd : BitVec 32)

def Call.body [NullPte] (i : Nat) : Call → S Int
  | .load va => do return (← onProc i (Xv6.load true va.toNat)).toNat
  | .store va b => do
    onProc i (Xv6.store true va.toNat b)
    return 0
  | .mencrypt va len => onProc i (Xv6.mencrypt va.toNat len.toInt)
  | .growproc n => onProc i (Xv6.growproc n.toInt)
  | .fork => Xv6.fork i
  | .exec namei path uargv => onProc i (sysExec namei path.toNat uargv.toNat)
  | .exit => throw .exit
  | .wait => Xv6.wait i
  | .pipe fd => sysPipe i fd.toNat
  | .close fd => sysClose i fd.toNat

/-- A call by process `i`. It has no result when the process ends in it. -/
def perform [NullPte] (i : Nat) (call : Call) : S (Option Int) :=
  tryCatch (do return some (← call.body i)) fun stop =>
    match stop with
    | .exit => do
      exit i
      return none
    | stop => throw stop

structure Event where
  proc : Nat
  call : Call
  result : Option Int

def ProcState.live : ProcState → Bool
  | .SLEEPING | .RUNNABLE | .RUNNING => true
  | .UNUSED | .EMBRYO | .ZOMBIE => false

/-- The event takes the machine from `s` to `t`. -/
def Step [NullPte] (s : Sys) (e : Event) (t : Sys) : Prop :=
  e.proc < NPROC ∧ (s.slots e.proc).state.live = true ∧
  (perform e.proc e.call).run s = .ok e.result t

end Xv6
