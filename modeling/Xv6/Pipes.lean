import Xv6.Lib.Circular
import Xv6.Lib.Monitor

/-! Pipes: `pipewrite`, `piperead` and `pipeclose` of `pipe.c`, run by any number of
processes. A pipe is shared behind its lock, and the processes wait for it with `sleep`
on `&p->nread` and `&p->nwrite`. The bytes of the caller's buffer are read as they are
copied, one at a time. -/
namespace Xv6.Pipes
open Monitor Circular

abbrev PIPESIZE : Nat := 512

/-- A pipe. The last two fields only record which bytes have been put into it and which
have been taken out. -/
structure Pipe where
  data : Fin PIPESIZE → UInt8
  nread : UInt32
  nwrite : UInt32
  readopen : Bool
  writeopen : Bool
  freed : Bool
  stored : List UInt8
  delivered : List UInt8

inductive Chan where
  | nread
  | nwrite
deriving DecidableEq

namespace Pipe

/-- A pipe as `pipealloc` leaves it. -/
def alloc (data : Fin PIPESIZE → UInt8) : Pipe := ⟨data, 0, 0, true, true, false, [], []⟩

def isOpen (p : Pipe) (writable : Bool) : Bool := if writable then p.writeopen else p.readopen

def Empty (p : Pipe) : Prop := p.nread = p.nwrite

def Full (p : Pipe) : Prop := p.nwrite = p.nread + UInt32.ofNat PIPESIZE

instance (p : Pipe) : Decidable p.Empty := inferInstanceAs (Decidable (p.nread = p.nwrite))

instance (p : Pipe) : Decidable p.Full :=
  inferInstanceAs (Decidable (p.nwrite = p.nread + UInt32.ofNat PIPESIZE))

/-- `p->data[p->nwrite++ % PIPESIZE] = c` -/
def store (p : Pipe) (c : UInt8) : Pipe :=
  { p with data := Function.update p.data (Circular.slot PIPESIZE p.nwrite) c, nwrite := p.nwrite + 1,
           stored := p.stored ++ [c] }

/-- `addr[i] = p->data[p->nread++ % PIPESIZE]` -/
def deliver (p : Pipe) : Pipe :=
  { p with nread := p.nread + 1, delivered := p.delivered ++ [p.data (Circular.slot PIPESIZE p.nread)] }

def close (p : Pipe) (writable : Bool) : Pipe :=
  if writable then { p with writeopen := false } else { p with readopen := false }

/-- The bytes that are in the pipe. -/
def content (p : Pipe) : List UInt8 := window p.data p.nread p.nwrite

end Pipe

inductive Call where
  | write (addr : Nat → UInt8) (n : Int)
  | read (n : Int)
  | close (writable : Bool)

namespace Call

/-- Whether the call is one on the write end. -/
def writable : Call → Bool
  | write .. => true
  | read _ => false
  | close writable => writable

def closes : Call → Bool
  | close _ => true
  | _ => false

/-- The last reference to an end is given up when nobody uses the end. -/
def Apart (a b : Call) : Prop := a.writable = b.writable → a.closes = false ∧ b.closes = false

instance (a b : Call) : Decidable (a.Apart b) := by
  unfold Apart
  infer_instance

end Call

/-- The points of the three routines: their start, the loop over the bytes, the test of
`killed` by a process that has to wait, the wakeup and the sleep that follow, the last
wakeup, the return with `-1` and the return. -/
inductive Pc where
  | start
  | loop (i : Nat)
  | blocked (i : Nat)
  | stir (i : Nat)
  | nap (i : Nat)
  | done (v : Int)
  | fail
  | ret (v : Int)

def pipewrite (addr : Nat → UInt8) (n : Int) : Pc → Instr Pipe Chan Pc
  | .start => .act fun p => (p, .loop 0)
  | .loop i => .act fun p =>
    if i < n then
      if p.Full then
        if p.readopen then (p, .blocked i) else (p, .fail)
      else (p.store (addr i), .loop (i + 1))
    else (p, .done n)
  | .blocked i => .killed fun killed => if killed then .fail else .stir i
  | .stir i => .wakeup .nread (.nap i)
  | .nap i => .sleep .nwrite (.loop i)
  | .done v => .wakeup .nread (.ret v)
  | .fail => .leave
  | .ret _ => .leave

def piperead (n : Int) : Pc → Instr Pipe Chan Pc
  | .start => .act fun p => if p.Empty ∧ p.writeopen = true then (p, .blocked 0) else (p, .loop 0)
  | .blocked i => .killed fun killed => if killed then .fail else .nap i
  | .nap _ => .sleep .nread .start
  | .loop i => .act fun p =>
    if i < n then
      if p.Empty then (p, .done i) else (p.deliver, .loop (i + 1))
    else (p, .done i)
  | .done v => .wakeup .nwrite (.ret v)
  | .fail => .leave
  | .ret _ => .leave
  | .stir _ => .halt

/-- The page goes back to the allocator right after the lock is released, when nobody
else has the pipe. -/
def pipeclose (writable : Bool) : Pc → Instr Pipe Chan Pc
  | .start => .act fun p => (p.close writable, .done 0)
  | .done _ => .wakeup (if writable then .nread else .nwrite) (.loop 0)
  | .loop _ => .act fun p =>
    if p.readopen = false ∧ p.writeopen = false then ({ p with freed := true }, .ret 0) else (p, .ret 0)
  | .ret _ => .leave
  | _ => .halt

def instr : Call → Pc → Instr Pipe Chan Pc
  | .write addr n => pipewrite addr n
  | .read n => piperead n
  | .close writable => pipeclose writable

variable {P : Type}

abbrev Pool (P : Type) := State P Pipe Chan Call Pc

/-- `file.c` counts the references to each end: a process uses an end that is open, and
the last one to let go of it closes it. -/
def admits (s : Pool P) (_ : P) (op : Call) : Prop :=
  s.shared.isOpen op.writable = true ∧ ∀ q, ∀ t ∈ s.thread q, op.Apart t.op

def code : Code P Pipe Chan Call Pc where
  first := fun _ => .start
  instr := fun _ => instr
  admits := admits

end Xv6.Pipes
