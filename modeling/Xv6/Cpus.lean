import Xv6.ProcTable

/-! The processors under the process table: `scheduler`, `sched`, `yield`, `sleep`, `exit`
and `wait` statement by statement, with the stack that each processor runs on and the
page directory that it has loaded. `ptable.lock` belongs to a processor, so it passes
from the scheduler to a process and back in `swtch`. The code that a stack will run next
is kept with the stack. `exec` is here because it loads a directory and frees another. -/
namespace Xv6.Cpus
open ProcTable (Chan Table initproc)
open Function (update)

abbrev Page := Nat

/-- What a page was allocated for. -/
inductive Use where
  | stack
  | dir
  | old

/-- What a process does when it does not have `ptable.lock`: it may be in `exec`, with a
new directory in its slot that is not loaded yet, or with the old one still to free. -/
inductive Task where
  | run
  | swapped (old : Page)
  | loaded (old : Page)
deriving DecidableEq

/-- Where a process goes on when the scheduler returns to it. -/
inductive After where
  | yield (task : Task)
  | sleep
  | wait (p : Fin NPROC)
  | exit
  | forkret
deriving DecidableEq

/-- The next statement of a process. All but the first are run with `ptable.lock`. -/
inductive Pc where
  | free (task : Task)
  | yielding (task : Task)
  | sleeping (p : Fin NPROC) (chan : Nat)
  | waiting (p : Fin NPROC)
  | reaping (p z : Fin NPROC)
  | exiting (p : Fin NPROC)
  | leaving
  | sched (p : Fin NPROC) (after : After)
  | resumed (after : After)
deriving DecidableEq

/-- The next statement of a scheduler: before `acquire`, in its loop, before `switchuvm`,
before the process is marked as running, before `swtch`, in the process, before
`switchkvm`, and before `c->proc = 0`. -/
inductive Loop where
  | idle
  | scan (n : Nat)
  | picked (p : Fin NPROC)
  | loaded (p : Fin NPROC)
  | started (p : Fin NPROC)
  | away (p : Fin NPROC)
  | back (p : Fin NPROC)
  | tidy (p : Fin NPROC)

/-- A processor. Without a stack it is on that of its scheduler, and without a directory
it has loaded `kpgdir`. -/
structure Cpu where
  proc : Option (Fin NPROC)
  loop : Loop
  stack : Option Page
  cr3 : Option Page

/-- The rest of a slot: its pages, and the stack on which its context is saved. -/
structure Res where
  kstack : Option Page
  pgdir : Option Page
  context : Option Page

/-- The machine. A page without an owner is free; whose it is otherwise is a record. -/
structure Machine (C : Type) where
  cpu : C → Cpu
  lock : Option C
  table : Table
  res : Fin NPROC → Res
  frame : Page → Pc
  owner : Page → Option (Fin NPROC × Use)

namespace Machine
variable {C : Type}

/-- After `userinit`: the first process has pages 0 and 1. -/
def boot : Machine C where
  cpu := fun _ => ⟨none, .idle, none, none⟩
  lock := none
  table := .boot
  res := update (fun _ => ⟨none, none, none⟩) initproc ⟨some 0, some 1, some 0⟩
  frame := fun _ => .resumed .forkret
  owner := update (update (fun _ => none) 0 (some (initproc, .stack))) 1
    (some (initproc, .dir))

variable [DecidableEq C]

def setCpu (s : Machine C) (c : C) (x : Cpu) : Machine C := { s with cpu := update s.cpu c x }

def setRes (s : Machine C) (p : Fin NPROC) (r : Res) : Machine C :=
  { s with res := update s.res p r }

def setFrame (s : Machine C) (k : Page) (pc : Pc) : Machine C :=
  { s with frame := update s.frame k pc }

def own (s : Machine C) (x : Page) (o : Option (Fin NPROC × Use)) : Machine C :=
  { s with owner := update s.owner x o }

/-- One statement of `scheduler`. -/
def schedule (s : Machine C) (c : C) : Option (Machine C) :=
  let x := s.cpu c
  match x.loop with
  | .idle => if s.lock.isNone then some { s.setCpu c { x with loop := .scan 0 } with lock := some c } else none
  | .scan n =>
    if h : n < NPROC then
      if (s.table.entry ⟨n, h⟩).state = .RUNNABLE then
        some (s.setCpu c { x with proc := some ⟨n, h⟩, loop := .picked ⟨n, h⟩ })
      else some (s.setCpu c { x with loop := .scan (n + 1) })
    else some { s.setCpu c { x with loop := .idle } with lock := none }
  | .picked p => some (s.setCpu c { x with cr3 := (s.res p).pgdir, loop := .loaded p })
  | .loaded p => some { s.setCpu c { x with loop := .started p } with table := s.table.run p }
  | .started p => some (s.setCpu c { x with stack := (s.res p).context, loop := .away p })
  | .away _ => none
  | .back p => some (s.setCpu c { x with cr3 := none, loop := .tidy p })
  | .tidy p => some (s.setCpu c { x with proc := none, loop := .scan (p + 1) })

/-- `sched` has two checks that matter here, and panics if they fail. -/
def schedOk (s : Machine C) (c : C) (p : Fin NPROC) : Bool :=
  s.lock = some c ∧ (s.table.entry p).state ≠ .RUNNING

/-- `swtch` to the scheduler, in `sched`. -/
def swtch (s : Machine C) (c : C) (k : Page) (p : Fin NPROC) (after : After) : Option (Machine C) :=
  match (s.cpu c).loop with
  | .away q => some (((s.setRes p { s.res p with context := some k }).setFrame k (.resumed after)).setCpu c
      { s.cpu c with stack := none, loop := .back q })
  | _ => none

/-- What follows `swtch` when the process runs again. -/
def goOn (s : Machine C) (k : Page) : After → Option (Machine C)
  | .yield task => some { s.setFrame k (.free task) with lock := none }
  | .sleep | .forkret => some { s.setFrame k (.free .run) with lock := none }
  | .wait p => some (s.setFrame k (.waiting p))
  | .exit => none

/-- The body of the loop of `wait`: an exited child is looked for, and if there is none the
process returns or sleeps. -/
def look (s : Machine C) (k : Page) (p : Fin NPROC) : Machine C :=
  match (List.finRange NPROC).find? fun z =>
    (s.table.entry z).parent = some p ∧ (s.table.entry z).state = .ZOMBIE with
  | some z => s.setFrame k (.reaping p z)
  | none =>
    if s.table.haveKids p = false ∨ (s.table.entry p).killed = true then
      { s.setFrame k .leaving with table := s.table.goto p .idle }
    else
      { s.setFrame k (.sched p (.wait p)) with
        table := (s.table.set p fun e => { e with chan := some (.proc p), state := .SLEEPING }).goto p .waiting }

/-- `kfree` and `freevm`: the page has no owner. -/
def release (s : Machine C) (x : Option Page) : Machine C :=
  match x with
  | none => s
  | some x => s.own x none

/-- `wait` frees the pages of an exited child and its slot. -/
def bury (s : Machine C) (k : Page) (p z : Fin NPROC) : Machine C :=
  let freed := (s.release (s.res z).kstack).release (s.res z).pgdir
  { (freed.setRes z { s.res z with kstack := none }).setFrame k .leaving with
    table := (s.table.reap p z).goto p .idle }

/-- One statement of the process that runs on stack `k`. -/
def resume (s : Machine C) (c : C) (k : Page) : Option (Machine C) :=
  match s.frame k with
  | .free .run => none
  | .free (.swapped old) =>
    -- `switchuvm(curproc)`
    (s.cpu c).proc.map fun p =>
      (s.setFrame k (.free (.loaded old))).setCpu c { s.cpu c with cr3 := (s.res p).pgdir }
  | .free (.loaded old) => some ((s.own old none).setFrame k (.free .run))
  | .yielding task =>
    (s.cpu c).proc.map fun p =>
      { s.setFrame k (.sched p (.yield task)) with table := s.table.set p fun e => { e with state := .RUNNABLE } }
  | .sleeping p chan => some { s.setFrame k (.sched p .sleep) with
      table := s.table.set p fun e => { e with chan := some (.other chan), state := .SLEEPING } }
  | .waiting p => some (s.look k p)
  | .reaping p z => some (s.bury k p z)
  | .exiting p => some { s.setFrame k (.sched p .exit) with table := s.table.exit p }
  | .leaving => some { s.setFrame k (.free .run) with lock := none }
  | .sched p after => if s.schedOk c p then s.swtch c k p after else none
  | .resumed after => s.goOn k after

/-- One statement on processor `c`. -/
def move (s : Machine C) (c : C) : Option (Machine C) :=
  match (s.cpu c).stack with
  | none => s.schedule c
  | some k => s.resume c k

end Machine

/-- What a process may do next when it has no lock. -/
inductive Op where
  | yield
  | sleep (chan : Nat)
  | wait
  | exit
  | exec (d : Page)
  | switchuvm
  | fork
  | fail
  | adopt (k d : Page)
  | ready
deriving DecidableEq

inductive Event (C : Type) where
  | move (c : C)
  | call (c : C) (op : Op)
  | wakeup (chan : Nat)
  | kill (pid : UInt32)

namespace Machine
variable {C : Type} [DecidableEq C]

/-- Take `ptable.lock`. -/
def enter (s : Machine C) (c : C) (k : Page) (pc : Pc) : Option (Machine C) :=
  if s.lock.isNone then some { s.setFrame k pc with lock := some c } else none

/-- Process `p` on stack `k`, with nothing going on but perhaps a `fork`. The locked parts
of `fork` are done in one step, and so is the rest of `allocproc` with `copyuvm`, which
work on a slot that nobody else looks at. -/
def perform (s : Machine C) (c : C) (p : Fin NPROC) (k : Page) : Op → Option (Machine C)
  | .yield => s.enter c k (.yielding .run)
  | .sleep chan => if s.table.pc p = .idle then s.enter c k (.sleeping p chan) else none
  | .wait => if s.table.pc p = .idle then s.enter c k (.waiting p) else none
  | .exit => if s.table.pc p = .idle ∧ p ≠ initproc then s.enter c k (.exiting p) else none
  | .exec d =>
    match (s.res p).pgdir with
    | none => none
    | some old =>
      if s.owner d = none ∧ s.table.pc p = .idle then
        some (((s.own old (some (p, .old))).own d (some (p, .dir))).setRes p { s.res p with pgdir := some d }
          |>.setFrame k (.free (.swapped old)))
      else none
  | .switchuvm => some (s.setCpu c { s.cpu c with cr3 := (s.res p).pgdir })
  | .fork =>
    if s.lock.isNone ∧ s.table.Running p .idle then
      (s.table.next (.fork p)).map fun t => { s with table := t }
    else none
  | .fail => (s.table.next (.fail p)).map fun t => { s with table := t }
  | .adopt k' d =>
    match s.table.pc p with
    | .embryo np =>
      if s.owner k' = none ∧ s.owner d = none ∧ k' ≠ d then
        (s.table.next (.adopt p)).map fun t =>
          { ((s.own k' (some (np, .stack))).own d (some (np, .dir))).setRes np ⟨some k', some d, some k'⟩
              |>.setFrame k' (.resumed .forkret) with table := t }
      else none
    | _ => none
  | .ready => if s.lock.isNone then (s.table.next (.ready p)).map fun t => { s with table := t } else none

/-- A process calls the kernel or is interrupted. Inside `exec` it can only be
interrupted. -/
def call (s : Machine C) (c : C) (op : Op) : Option (Machine C) :=
  match (s.cpu c).stack, (s.cpu c).proc with
  | some k, some p =>
    match s.frame k with
    | .free .run => s.perform c p k op
    | .free task => if op = .yield then s.enter c k (.yielding task) else none
    | _ => none
  | _, _ => none

/-- The machine after an event, if it can happen. `wakeup` and `kill` are done in one step,
by any processor that finds the lock free. -/
def next (s : Machine C) : Event C → Option (Machine C)
  | .move c => s.move c
  | .call c op => s.call c op
  | .wakeup chan => if s.lock.isNone then some { s with table := s.table.wakeup1 (some (.other chan)) } else none
  | .kill pid => if s.lock.isNone then some { s with table := s.table.kill pid } else none

def Step (s : Machine C) (e : Event C) (t : Machine C) : Prop := s.next e = some t

end Machine
end Xv6.Cpus
