import Mathlib.Data.Fintype.Basic
import Mathlib.Data.List.FinRange
import Xv6.Kernel
import Xv6.Lib.Run

/-! The process table of `proc.c`: `fork`, `exit`, `wait`, `kill` and the scheduler, by any
number of processes on any number of processors. A step is what happens under one hold of
`ptable.lock`, or one of the writes that `allocproc` and `fork` make to a new slot
without the lock. Memory and files are left out: whether there is memory for a child is a
matter of chance. -/
namespace Xv6.ProcTable

/-- The address of a slot, on which its process waits for children, or any other. -/
inductive Chan where
  | proc (p : Fin NPROC)
  | other (c : Nat)
deriving DecidableEq

structure Entry where
  state : ProcState
  pid : UInt32
  parent : Option (Fin NPROC)
  chan : Option Chan
  killed : Bool

/-- Where a process is: in `fork` with a slot that it has not adopted yet, in `fork` with
one that it has, in the `sleep` of `wait`, or in none of these. -/
inductive Pc where
  | idle
  | embryo (np : Fin NPROC)
  | adopted (np : Fin NPROC)
  | waiting
deriving DecidableEq

/-- The table, and where each process is. The last three fields only record how many slots
have been allocated, which pids `wait` has returned to whom, and which processes were
named by a `kill` since they exist. -/
structure Table where
  entry : Fin NPROC → Entry
  pc : Fin NPROC → Pc
  nextpid : UInt32
  forks : Nat
  reaped : List (Fin NPROC × UInt32)
  named : Fin NPROC → Bool

/-- `userinit` takes the first slot. -/
def initproc : Fin NPROC := 0

namespace Table

/-- After `userinit`. -/
def boot : Table where
  entry := Function.update (fun _ => ⟨.UNUSED, 0, none, none, false⟩) initproc
    ⟨.RUNNABLE, 1, none, none, false⟩
  pc := fun _ => .idle
  nextpid := 2
  forks := 0
  reaped := []
  named := fun _ => false

def set (s : Table) (i : Fin NPROC) (f : Entry → Entry) : Table :=
  { s with entry := Function.update s.entry i (f (s.entry i)) }

def goto (s : Table) (i : Fin NPROC) (pc : Pc) : Table :=
  { s with pc := Function.update s.pc i pc }

@[simp] theorem set_apply (s : Table) (i j : Fin NPROC) (f : Entry → Entry) :
    (s.set i f).entry j = if j = i then f (s.entry i) else s.entry j := by
  by_cases same : j = i
  · subst same
    simp [set]
  · simp [set, same]

@[simp] theorem goto_pc (s : Table) (i j : Fin NPROC) (pc : Pc) :
    (s.goto i pc).pc j = if j = i then pc else s.pc j := Function.update_apply ..

def wakeup1 (s : Table) (c : Option Chan) : Table :=
  { s with entry := fun i =>
      let e := s.entry i
      if e.state = .SLEEPING ∧ e.chan = c then { e with state := .RUNNABLE } else e }

section Wakeup
variable (s : Table) (c : Option Chan) (j : Fin NPROC)

@[simp] theorem wakeup1_parent : ((s.wakeup1 c).entry j).parent = (s.entry j).parent := by
  dsimp only [wakeup1]
  split_ifs <;> rfl

@[simp] theorem wakeup1_chan : ((s.wakeup1 c).entry j).chan = (s.entry j).chan := by
  dsimp only [wakeup1]
  split_ifs <;> rfl

@[simp] theorem wakeup1_killed : ((s.wakeup1 c).entry j).killed = (s.entry j).killed := by
  dsimp only [wakeup1]
  split_ifs <;> rfl

@[simp] theorem wakeup1_pid : ((s.wakeup1 c).entry j).pid = (s.entry j).pid := by
  dsimp only [wakeup1]
  split_ifs <;> rfl

@[simp] theorem wakeup1_state : ((s.wakeup1 c).entry j).state =
    if (s.entry j).state = .SLEEPING ∧ (s.entry j).chan = c then .RUNNABLE else (s.entry j).state := by
  dsimp only [wakeup1]
  split_ifs <;> rfl

end Wakeup

/-- The locked part of `allocproc`: the slot it finds, and the table after it. -/
def allocproc (s : Table) : Option (Fin NPROC × Table) :=
  ((List.finRange NPROC).find? fun p => (s.entry p).state = .UNUSED).map fun p =>
    (p, { s.set p fun e => { e with state := .EMBRYO, pid := s.nextpid } with
      nextpid := s.nextpid + 1, forks := s.forks + 1, named := Function.update s.named p false })

/-- The loop of `exit` over the children. -/
def abandon (s : Table) (i : Fin NPROC) : Table :=
  { s with entry := fun p =>
      let e := s.entry p
      if e.parent = some i then { e with parent := some initproc } else e }

section Abandon
variable (s : Table) (i j : Fin NPROC)

@[simp] theorem abandon_parent : ((s.abandon i).entry j).parent =
    if (s.entry j).parent = some i then some initproc else (s.entry j).parent := by
  dsimp only [abandon]
  split_ifs <;> rfl

@[simp] theorem abandon_chan : ((s.abandon i).entry j).chan = (s.entry j).chan := by
  dsimp only [abandon]
  split_ifs <;> rfl

@[simp] theorem abandon_killed : ((s.abandon i).entry j).killed = (s.entry j).killed := by
  dsimp only [abandon]
  split_ifs <;> rfl

@[simp] theorem abandon_pid : ((s.abandon i).entry j).pid = (s.entry j).pid := by
  dsimp only [abandon]
  split_ifs <;> rfl

@[simp] theorem abandon_state : ((s.abandon i).entry j).state = (s.entry j).state := by
  dsimp only [abandon]
  split_ifs <;> rfl

end Abandon

def hasZombie (s : Table) (i : Fin NPROC) : Bool :=
  (List.finRange NPROC).any fun p => (s.entry p).parent = some i ∧ (s.entry p).state = .ZOMBIE

/-- `exit` under the lock. -/
def exit (s : Table) (i : Fin NPROC) : Table :=
  let woken := s.wakeup1 ((s.entry i).parent.map .proc)
  let passed := woken.abandon i
  let told := if s.hasZombie i then passed.wakeup1 (some (.proc initproc)) else passed
  told.set i fun e => { e with state := .ZOMBIE }

def haveKids (s : Table) (i : Fin NPROC) : Bool :=
  (List.finRange NPROC).any fun p => (s.entry p).parent = some i

/-- What `wait` does to the slot of an exited child. -/
def reap (s : Table) (i p : Fin NPROC) : Table :=
  { s.set p fun e => { e with state := .UNUSED, pid := 0, parent := none, killed := false } with
    reaped := s.reaped ++ [(i, (s.entry p).pid)] }

/-- One pass of the loop of `wait` over the table, up to the return or the sleep. -/
def scan (s : Table) (i : Fin NPROC) : Table :=
  match (List.finRange NPROC).find? fun p => (s.entry p).parent = some i ∧ (s.entry p).state = .ZOMBIE with
  | some p => (s.reap i p).goto i .idle
  | none =>
    if s.haveKids i = false ∨ (s.entry i).killed = true then s.goto i .idle
    else (s.set i fun e => { e with chan := some (.proc i), state := .SLEEPING }).goto i .waiting

/-- The scheduler gives the process a processor, and `sleep` tidies up. -/
def run (s : Table) (i : Fin NPROC) : Table := s.set i fun e => { e with state := .RUNNING, chan := none }

/-- The slot that `kill` finds. It returns `0` if there is one, and `-1` otherwise. -/
def target (s : Table) (pid : UInt32) : Option (Fin NPROC) :=
  (List.finRange NPROC).find? fun p => (s.entry p).pid = pid

def kill (s : Table) (pid : UInt32) : Table :=
  match s.target pid with
  | none => s
  | some p =>
    { s.set p fun e => { e with killed := true, state := if e.state = .SLEEPING then .RUNNABLE else e.state } with
      named := if (s.entry p).state = .UNUSED then s.named else Function.update s.named p true }

end Table

/-- What happens next, and to which process. -/
inductive Event where
  | fork (i : Fin NPROC)
  | fail (i : Fin NPROC)
  | adopt (i : Fin NPROC)
  | ready (i : Fin NPROC)
  | exit (i : Fin NPROC)
  | wait (i : Fin NPROC)
  | resume (i : Fin NPROC)
  | kill (i : Fin NPROC) (pid : UInt32)
  | schedule (i : Fin NPROC)
  | yield (i : Fin NPROC)
  | sleep (i : Fin NPROC) (c : Nat)
  | wakeup (c : Nat)

namespace Table

def Running (s : Table) (i : Fin NPROC) (pc : Pc) : Prop := (s.entry i).state = .RUNNING ∧ s.pc i = pc

instance (s : Table) (i : Fin NPROC) (pc : Pc) : Decidable (s.Running i pc) :=
  inferInstanceAs (Decidable ((s.entry i).state = .RUNNING ∧ s.pc i = pc))

/-- The table after an event, if it can happen. `kalloc` and `copyuvm` fail in the same
way. A process that slept in `wait` goes on with its loop as soon as it is scheduled,
with `ptable.lock` still held. -/
def next (s : Table) : Event → Option Table
  | .fork i =>
    if s.Running i .idle then
      match s.allocproc with
      | none => some s
      | some (np, t) => some (t.goto i (.embryo np))
    else none
  | .fail i =>
    match s.pc i with
    | .embryo np =>
      if s.Running i (.embryo np) then
        some ((s.set np fun e => { e with state := .UNUSED }).goto i .idle) else none
    | _ => none
  | .adopt i =>
    match s.pc i with
    | .embryo np =>
      if s.Running i (.embryo np) then
        some ((s.set np fun e => { e with parent := some i }).goto i (.adopted np)) else none
    | _ => none
  | .ready i =>
    match s.pc i with
    | .adopted np =>
      if s.Running i (.adopted np) then
        some ((s.set np fun e => { e with state := .RUNNABLE }).goto i .idle) else none
    | _ => none
  | .exit i => if s.Running i .idle ∧ i ≠ initproc then some (s.exit i) else none
  | .wait i => if s.Running i .idle then some (s.scan i) else none
  | .resume i =>
    if (s.entry i).state = .RUNNABLE ∧ s.pc i = .waiting then some ((s.run i).scan i) else none
  | .kill i pid => if s.Running i .idle then some (s.kill pid) else none
  | .schedule i => if (s.entry i).state = .RUNNABLE ∧ s.pc i ≠ .waiting then some (s.run i) else none
  | .yield i => if (s.entry i).state = .RUNNING then some (s.set i fun e => { e with state := .RUNNABLE }) else none
  | .sleep i c =>
    if s.Running i .idle then
      some (s.set i fun e => { e with chan := some (.other c), state := .SLEEPING }) else none
  | .wakeup c => some (s.wakeup1 (some (.other c)))

def Step (s : Table) (e : Event) (t : Table) : Prop := s.next e = some t

end Table
end Xv6.ProcTable
