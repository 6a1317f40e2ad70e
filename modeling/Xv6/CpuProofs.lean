import Xv6.Cpus
import Xv6.ProcTree

/-! A process runs on one processor at most, and whoever frees its stack or its directory
does so when no processor uses them. A processor that does not have `ptable.lock` is
idle or runs a process that is marked as such, so whoever has the lock knows where all
others are. -/
namespace Xv6.Cpus
open ProcTable (Table Tree initproc)
open Transition

section Invariant

def Task.old : Task → Option Page
  | .run => none
  | .swapped old | .loaded old => some old

/-- The directory that may still be loaded in place of the one in the slot. -/
def Task.stale : Task → Option Page
  | .swapped old => some old
  | _ => none

def After.state : After → ProcState
  | .yield _ | .forkret => .RUNNABLE
  | .sleep | .wait _ => .SLEEPING
  | .exit => .ZOMBIE

namespace Pc

def locked : Pc → Bool
  | .free _ => false
  | _ => true

/-- The state of the process that has this statement next. -/
def state : Pc → ProcState
  | .sched _ after => after.state
  | _ => .RUNNING

def old : Pc → Option Page
  | .free task | .yielding task | .sched _ (.yield task) | .resumed (.yield task) => task.old
  | _ => none

def stale : Pc → Option Page
  | .free task | .yielding task | .sched _ (.yield task) => task.stale
  | _ => none

end Pc

def After.Fits (t : Table) (p : Fin NPROC) : After → Prop
  | .wait q => q = p ∧ (t.pc p).child = none
  | _ => True

/-- The statement is one of process `p`, and `p` is not in the middle of a `fork`. -/
def Pc.Fits (t : Table) (p : Fin NPROC) : Pc → Prop
  | .free _ | .yielding _ | .leaving => True
  | .sleeping q _ => q = p
  | .waiting q | .reaping q _ => q = p ∧ (t.pc p).child = none
  | .exiting q => q = p ∧ t.pc p = .idle ∧ p ≠ initproc
  | .sched q after => q = p ∧ after.Fits t p
  | .resumed after => after.Fits t p

variable {C : Type}

def Grown (t : Table) (p : Fin NPROC) : Prop := (t.entry p).state ≠ .UNUSED ∧ (t.entry p).state ≠ .EMBRYO

/-- The process has its pages: it has been let go, or waits for that in `fork`. -/
def Settled (t : Table) (p : Fin NPROC) : Prop := Grown t p ∨ ∃ i, t.pc i = .adopted p

/-- Process `p` owns the stack `k`, the directory `d` and what `exec` has yet to free. If no
processor is on its stack then the scheduler can switch to it. -/
structure Body (s : Machine C) (p : Fin NPROC) (k d : Page) : Prop where
  kstack : (s.res p).kstack = some k
  pgdir : (s.res p).pgdir = some d
  stack : s.owner k = some (p, .stack)
  dir : s.owner d = some (p, .dir)
  old : ∀ o, (s.frame k).old = some o → s.owner o = some (p, .old)
  fits : (s.frame k).Fits s.table p
  parked : (∀ c, (s.cpu c).stack ≠ some k) → (s.res p).context = some k ∧
    ∃ after, s.frame k = .resumed after ∧ ((s.table.entry p).state = .ZOMBIE ∨ after ≠ .exit)

/-- Processor `c` is in process `p`, with `pc` as the next statement. -/
structure Runs (s : Machine C) (c : C) (p : Fin NPROC) (cr3 : Option Page) (pc : Pc) : Prop where
  lock : s.lock = some c ↔ pc.locked = true
  state : (s.table.entry p).state = pc.state
  cr3 : cr3 = (s.res p).pgdir ∨ ∃ o, pc.stale = some o ∧ cr3 = some o
  target : ∀ q z, pc = .reaping q z →
    (s.table.entry z).state = .ZOMBIE ∧ (s.table.entry z).parent = some q
  live : pc ≠ .resumed .exit

/-- Where processor `c` is. -/
inductive At (s : Machine C) (c : C) : Cpu → Prop where
  | idle : s.lock ≠ some c → At s c ⟨none, .idle, none, none⟩
  | scan (n : Nat) : s.lock = some c → At s c ⟨none, .scan n, none, none⟩
  | picked (p : Fin NPROC) : s.lock = some c → (s.table.entry p).state = .RUNNABLE →
      At s c ⟨some p, .picked p, none, none⟩
  | loaded (p : Fin NPROC) : s.lock = some c → (s.table.entry p).state = .RUNNABLE →
      At s c ⟨some p, .loaded p, none, (s.res p).pgdir⟩
  | started (p : Fin NPROC) : s.lock = some c → (s.table.entry p).state = .RUNNING →
      At s c ⟨some p, .started p, none, (s.res p).pgdir⟩
  | away (p : Fin NPROC) (k : Page) (cr3 : Option Page) : (s.res p).kstack = some k →
      Runs s c p cr3 (s.frame k) → At s c ⟨some p, .away p, some k, cr3⟩
  | back (p : Fin NPROC) (cr3 : Option Page) : s.lock = some c → Grown s.table p →
      (s.table.entry p).state ≠ .RUNNING → (∀ x, cr3 = some x → ∃ u, s.owner x = some (p, u)) →
      At s c ⟨some p, .back p, none, cr3⟩
  | tidy (p : Fin NPROC) : s.lock = some c → Grown s.table p → (s.table.entry p).state ≠ .RUNNING →
      At s c ⟨some p, .tidy p, none, none⟩

structure Inv (s : Machine C) : Prop where
  tree : Tree s.table
  at_ : ∀ c, At s c (s.cpu c)
  single : ∀ c c' p, (s.cpu c).proc = some p → (s.cpu c').proc = some p → c = c'
  running : ∀ p, (s.table.entry p).state = .RUNNING → ∃ c, (s.cpu c).proc = some p
  body : ∀ p, Settled s.table p → ∃ k d, Body s p k d

variable {s t : Machine C} {c c' : C} {p q : Fin NPROC} {r : Option (Fin NPROC)} {k k' d : Page} {x : Cpu}

/-- Whoever does not have the lock is idle or runs a process. -/
theorem At.running (at_ : At s c x) (unlocked : s.lock ≠ some c) (current : x.proc = some p) :
    (s.table.entry p).state = .RUNNING := by
  cases at_ with
  | idle => exact nomatch current
  | away q k cr3 _ runs =>
    cases current
    cases pc : s.frame k with
    | free task =>
      rw [pc] at runs
      exact runs.state
    | _ =>
      rw [pc] at runs
      exact absurd (runs.lock.mpr rfl) unlocked
  | scan _ locked | picked _ locked | loaded _ locked | started _ locked | back _ _ locked | tidy _ locked =>
    exact absurd locked unlocked

theorem Pc.state_grown (pc : Pc) : pc.state ≠ .UNUSED ∧ pc.state ≠ .EMBRYO := by
  cases pc with
  | sched q after => cases after <;> exact ⟨nofun, nofun⟩
  | _ => exact ⟨nofun, nofun⟩

theorem At.grown (at_ : At s c x) (current : x.proc = some p) : Grown s.table p := by
  unfold Grown
  cases at_ with
  | idle => exact nomatch current
  | scan => exact nomatch current
  | picked q _ state | loaded q _ state | started q _ state =>
    cases current
    rw [state]
    exact ⟨nofun, nofun⟩
  | away q k cr3 _ runs =>
    cases current
    rw [runs.state]
    exact Pc.state_grown _
  | back _ _ _ grown | tidy _ _ grown =>
    cases current
    exact grown

/-- A processor on a stack runs the process that owns it. -/
theorem At.stack (at_ : At s c x) (on : x.stack = some k) :
    ∃ p, x.proc = some p ∧ (s.res p).kstack = some k := by
  cases at_ with
  | away p k cr3 kstack =>
    cases on
    exact ⟨p, rfl, kstack⟩
  | _ => exact nomatch on

theorem Inv.owner (inv : Inv s) (on : (s.cpu c).stack = some k) :
    ∃ p, (s.cpu c).proc = some p ∧ s.owner k = some (p, .stack) := by
  obtain ⟨p, current, kstack⟩ := (inv.at_ c).stack on
  obtain ⟨k', d, body⟩ := inv.body p (.inl ((inv.at_ c).grown current))
  cases kstack.symm.trans body.kstack
  exact ⟨p, current, body.stack⟩

/-- What a step of processor `c` for process `p`, if any, leaves to the others. -/
structure Calm (s t : Machine C) (c : C) (p : Option (Fin NPROC)) : Prop where
  tree : Tree t.table
  cpu : ∀ c', c' ≠ c → t.cpu c' = s.cpu c'
  lock : ∀ c', c' ≠ c → (t.lock = some c' ↔ s.lock = some c')
  pc : ∀ q, some q ≠ p → t.table.pc q = s.table.pc q
  state : ∀ c' q, c' ≠ c → (s.cpu c').proc = some q →
    (t.table.entry q).state = (s.table.entry q).state
  running : ∀ q, some q ≠ p → (t.table.entry q).state = .RUNNING → (s.table.entry q).state = .RUNNING
  zombie : ∀ q, some q ≠ p → (s.table.entry q).state = .ZOMBIE → Settled t.table q →
    (t.table.entry q).state = .ZOMBIE
  target : ∀ c' q z, c' ≠ c → s.lock = some c' → (s.table.entry z).state = .ZOMBIE →
    (s.table.entry z).parent = some q →
      (t.table.entry z).state = .ZOMBIE ∧ (t.table.entry z).parent = some q
  res : ∀ q, some q ≠ p → Settled t.table q → Settled s.table q → t.res q = s.res q
  frame : ∀ q k, some q ≠ p → s.owner k = some (q, .stack) → Settled t.table q → t.frame k = s.frame k
  owner : ∀ q x u, some q ≠ p → Settled t.table q → s.owner x = some (q, u) → t.owner x = some (q, u)
  settled : ∀ q, some q ≠ p → Settled t.table q → Settled s.table q ∨ ∃ k d, Body t q k d

theorem After.Fits.congr {t t' : Table} {after : After} (same : t'.pc p = t.pc p) (fits : after.Fits t p) :
    after.Fits t' p := by
  cases after with
  | wait q => exact ⟨fits.1, same ▸ fits.2⟩
  | _ => trivial

theorem Pc.Fits.congr {t t' : Table} {pc : Pc} (same : t'.pc p = t.pc p) (fits : pc.Fits t p) :
    pc.Fits t' p := by
  cases pc with
  | waiting q | reaping q z => exact ⟨fits.1, same ▸ fits.2⟩
  | exiting q => exact ⟨fits.1, same ▸ fits.2.1, fits.2.2⟩
  | sched q after => exact ⟨fits.1, fits.2.congr same⟩
  | resumed after => exact After.Fits.congr same fits
  | sleeping q chan => exact fits
  | _ => trivial

/-- The other processors stay where they are. -/
theorem Calm.at_ (calm : Calm s t c r) (inv : Inv s)
    (mine : ∀ c' q, c' ≠ c → (s.cpu c').proc = some q → some q ≠ r) (other : c' ≠ c) : At t c' (t.cpu c') := by
  have was := inv.at_ c'
  have state := calm.state c'
  have grown := fun {q} => was.grown (p := q)
  have settled : ∀ q, (s.cpu c').proc = some q → some q ≠ r ∧ Settled t.table q ∧ Settled s.table q := by
    intro q current
    refine ⟨mine c' q other current, .inl ?_, .inl (grown current)⟩
    unfold Grown
    rw [state q other current]
    exact grown current
  have owns := fun {k} => inv.owner (c := c') (k := k)
  rw [calm.cpu c' other]
  have lock := calm.lock c' other
  generalize s.cpu c' = x at *
  cases was with
  | idle free => exact .idle fun held => free (lock.mp held)
  | scan n held => exact .scan n (lock.mpr held)
  | picked q held runnable => exact .picked q (lock.mpr held) ((state q other rfl).trans runnable)
  | loaded q held runnable =>
    obtain ⟨differ, after, before⟩ := settled q rfl
    rw [← calm.res q differ after before]
    exact .loaded q (lock.mpr held) ((state q other rfl).trans runnable)
  | started q held running =>
    obtain ⟨differ, after, before⟩ := settled q rfl
    rw [← calm.res q differ after before]
    exact .started q (lock.mpr held) ((state q other rfl).trans running)
  | away q k cr3 kstack runs =>
    obtain ⟨differ, after, before⟩ := settled q rfl
    obtain ⟨_, same, owner⟩ := owns rfl
    cases same
    have res := calm.res q differ after before
    refine .away q k cr3 (by rw [res, kstack]) ?_
    rw [calm.frame q k differ owner after]
    exact {
      lock := lock.trans runs.lock
      state := (state q other rfl).trans runs.state
      cr3 := by rw [res]; exact runs.cr3
      target := by
        intro r z reaping
        obtain ⟨zombie, child⟩ := runs.target r z reaping
        exact calm.target c' r z other (runs.lock.mpr (by rw [reaping]; rfl)) zombie child
      live := runs.live }
  | back q cr3 held _ idle owned =>
    obtain ⟨differ, after, before⟩ := settled q rfl
    refine .back q cr3 (lock.mpr held) (by unfold Grown; rw [state q other rfl]; exact grown rfl)
      (by rw [state q other rfl]; exact idle) fun x loaded => ?_
    obtain ⟨u, owner⟩ := owned x loaded
    exact ⟨u, calm.owner q x u differ after owner⟩
  | tidy q held _ idle =>
    exact .tidy q (lock.mpr held) (by unfold Grown; rw [state q other rfl]; exact grown rfl)
      (by rw [state q other rfl]; exact idle)

theorem Calm.body (calm : Calm s t c r) (inv : Inv s) (before : ∀ q, (s.cpu c).proc = some q → some q = r)
    (differ : some q ≠ r) (settled : Settled t.table q) : ∃ k d, Body t q k d := by
  rcases calm.settled q differ settled with before | body
  · obtain ⟨k, d, body⟩ := inv.body q before
    have res := calm.res q differ settled before
    have frame := calm.frame q k differ body.stack settled
    refine ⟨k, d, ?_⟩
    exact {
      kstack := by rw [res, body.kstack]
      pgdir := by rw [res, body.pgdir]
      stack := calm.owner q k _ differ settled body.stack
      dir := calm.owner q d _ differ settled body.dir
      old := by
        intro o holds
        rw [frame] at holds
        exact calm.owner q o _ differ settled (body.old o holds)
      fits := by
        rw [frame]
        exact body.fits.congr (calm.pc q differ)
      parked := by
        intro away
        have was : ∀ c', (s.cpu c').stack ≠ some k := by
          intro c' on
          by_cases here : c' = c
          · subst here
            obtain ⟨p, current, owner⟩ := inv.owner on
            have same : q = p := congrArg Prod.fst (Option.some.inj (body.stack.symm.trans owner))
            exact differ (same ▸ before p current)
          · exact away c' (by rw [calm.cpu c' here, on])
        obtain ⟨context, after, next, alive⟩ := body.parked was
        refine ⟨by rw [res, context], after, by rw [frame, next], ?_⟩
        rcases alive with zombie | alive
        · exact .inl (calm.zombie q differ zombie settled)
        · exact .inr alive }
  · exact body

/-- A step keeps the invariant if it does so for its own processor and process. -/
theorem Inv.calm (inv : Inv s) (calm : Calm s t c r) (here : At t c (t.cpu c))
    (mine : ∀ c' q, c' ≠ c → (s.cpu c').proc = some q → some q ≠ r)
    (before : ∀ q, (s.cpu c).proc = some q → some q = r) (after : ∀ q, (t.cpu c).proc = some q → some q = r)
    (running : ∀ p, r = some p → (t.table.entry p).state = .RUNNING → (t.cpu c).proc = some p)
    (body : ∀ p, r = some p → Settled t.table p → ∃ k d, Body t p k d) : Inv t where
  tree := calm.tree
  at_ := by
    intro c'
    by_cases same : c' = c
    · rw [same]
      exact here
    · exact calm.at_ inv mine same
  single := by
    intro c₁ c₂ q first second
    by_cases left : c₁ = c <;> by_cases right : c₂ = c
    · rw [left, right]
    · rw [left] at first
      rw [calm.cpu c₂ right] at second
      exact absurd (after q first) (mine c₂ q right second)
    · rw [right] at second
      rw [calm.cpu c₁ left] at first
      exact absurd (after q second) (mine c₁ q left first)
    · rw [calm.cpu c₁ left] at first
      rw [calm.cpu c₂ right] at second
      exact inv.single c₁ c₂ q first second
  running := by
    intro q runs
    by_cases own : some q = r
    · exact ⟨c, running q own.symm runs⟩
    · obtain ⟨c', current⟩ := inv.running q (calm.running q own runs)
      refine ⟨c', ?_⟩
      rw [calm.cpu c']
      · exact current
      · rintro rfl
        exact own (before q current)
  body := by
    intro q settled
    by_cases own : some q = r
    · exact body q own.symm settled
    · exact calm.body inv before own settled

end Invariant

section Scheduler
variable {C : Type} {s t : Machine C} {c c' : C} {p q : Fin NPROC} {r : Option (Fin NPROC)}
  {k k' d : Page} {x : Cpu} {l : Option C}

/-- The lock passes between nobody and processor `c`. -/
theorem lock_turn (before : s.lock = none ∨ s.lock = some c) (after : l = none ∨ l = some c) :
    ∀ c', c' ≠ c → (l = some c' ↔ s.lock = some c') := by
  intro c' other
  rcases before with before | before <;> rcases after with after | after <;>
    simp [before, after, other.symm]

/-- Nobody else has the process of processor `c`. -/
theorem Inv.alone (inv : Inv s) (current : (s.cpu c).proc = some p) :
    ∀ c' q, c' ≠ c → (s.cpu c').proc = some q → some q ≠ some p := by
  intro c' q other theirs same
  cases same
  exact other (inv.single c' c p theirs current)

/-- A process that is not on a processor is ready to be switched to. -/
theorem Inv.switch (inv : Inv s) (current : (s.cpu c).proc = some p) (idle : (s.cpu c).stack = none)
    (running : (s.table.entry p).state = .RUNNING) : ∃ k after, (s.res p).kstack = some k ∧
      (s.res p).context = some k ∧ s.frame k = .resumed after ∧ after ≠ .exit := by
  obtain ⟨k, d, body⟩ := inv.body p (.inl ((inv.at_ c).grown current))
  have away : ∀ c', (s.cpu c').stack ≠ some k := by
    intro c' on
    obtain ⟨q, theirs, owner⟩ := inv.owner on
    obtain rfl : p = q := congrArg Prod.fst (Option.some.inj (body.stack.symm.trans owner))
    obtain rfl := inv.single c' c p theirs current
    exact nomatch idle.symm.trans on
  obtain ⟨context, after, next, alive⟩ := body.parked away
  refine ⟨k, after, body.kstack, context, next, alive.resolve_left ?_⟩
  rw [running]
  nofun

/-- A step that changes nothing but its own processor and process, apart from pages that
belong to nobody else. -/
structure Local (s t : Machine C) (c : C) (p : Fin NPROC) : Prop where
  tree : Tree t.table
  cpu : ∀ c', c' ≠ c → t.cpu c' = s.cpu c'
  lock : ∀ c', c' ≠ c → (t.lock = some c' ↔ s.lock = some c')
  entry : ∀ q, q ≠ p → t.table.entry q = s.table.entry q
  pc : ∀ q, q ≠ p → t.table.pc q = s.table.pc q
  adopted : ∀ q, t.table.pc p = .adopted q → s.table.pc p = .adopted q
  res : ∀ q, q ≠ p → t.res q = s.res q
  frame : ∀ q k, q ≠ p → s.owner k = some (q, .stack) → t.frame k = s.frame k
  owner : ∀ q x u, q ≠ p → s.owner x = some (q, u) → t.owner x = some (q, u)

theorem Local.calm (own : Local s t c p) (inv : Inv s) (current : (s.cpu c).proc = some p) :
    Calm s t c (some p) := by
  have differ : ∀ {q}, some q ≠ some p → q ≠ p := fun other same => other (congrArg some same)
  exact {
    tree := own.tree
    cpu := own.cpu
    lock := own.lock
    pc := fun q other => own.pc q (differ other)
    state := by
      intro c' q other theirs
      rw [own.entry q (differ (inv.alone current c' q other theirs))]
    running := by
      intro q other
      rw [own.entry q (differ other)]
      exact id
    zombie := by
      intro q other zombie _
      rwa [own.entry q (differ other)]
    target := by
      intro c' q z other theirs zombie child
      -- Without the lock, the process of `c` is running.
      have elsewhere : z ≠ p := by
        rintro rfl
        have unlocked : s.lock ≠ some c := fun held => other (Option.some.inj (theirs.symm.trans held))
        exact nomatch ((inv.at_ c).running unlocked current).symm.trans zombie
      rw [own.entry z elsewhere]
      exact ⟨zombie, child⟩
    res := fun q other _ _ => own.res q (differ other)
    frame := fun q k other owner _ => own.frame q k (differ other) owner
    owner := fun q x u other _ => own.owner q x u (differ other)
    settled := by
      rintro q other (grown | ⟨i, adopted⟩)
      · rw [Grown, own.entry q (differ other)] at grown
        exact .inl (.inl grown)
      · refine .inl (.inr ⟨i, ?_⟩)
        by_cases same : i = p
        · subst same
          exact own.adopted q adopted
        · rwa [own.pc i same] at adopted }

theorem Inv.calm_current (inv : Inv s) (calm : Calm s t c (some p)) (current : (s.cpu c).proc = some p)
    (here : At t c (t.cpu c)) (proc : (t.cpu c).proc = some p) (body : ∃ k d, Body t p k d) : Inv t := by
  refine inv.calm calm here (inv.alone current) ?_ ?_ ?_ ?_
  · intro q same
    exact same.symm.trans current
  · intro q same
    exact same.symm.trans proc
  · intro q same _
    cases same
    exact proc
  · intro q same _
    cases same
    exact body

variable [DecidableEq C]

theorem Body.turn (body : Body s p k d) (idle : (s.cpu c).stack = none) :
    Body { s with cpu := Function.update s.cpu c x, lock := l } p k d where
  kstack := body.kstack
  pgdir := body.pgdir
  stack := body.stack
  dir := body.dir
  old := body.old
  fits := body.fits
  parked := by
    intro away
    apply body.parked
    intro c' on
    by_cases here : c' = c
    · subst here
      exact nomatch idle.symm.trans on
    · exact away c' (by simpa [here] using on)

/-- The scheduler moves on, and nothing changes but its processor and the lock. -/
theorem Inv.turn (inv : Inv s) (idle : (s.cpu c).stack = none) (r : Option (Fin NPROC))
    (lock : ∀ c', c' ≠ c → (l = some c' ↔ s.lock = some c'))
    (here : At { s with cpu := Function.update s.cpu c x, lock := l } c x)
    (mine : ∀ c' q, c' ≠ c → (s.cpu c').proc = some q → some q ≠ r)
    (before : ∀ q, (s.cpu c).proc = some q → some q = r) (after : ∀ q, x.proc = some q → some q = r)
    (running : ∀ p, r = some p → (s.table.entry p).state = .RUNNING → x.proc = some p) :
    Inv { s with cpu := Function.update s.cpu c x, lock := l } := by
  refine inv.calm (c := c) (r := r) ?_ (by simpa using here) mine before (by simpa using after)
    (by simpa using running) ?_
  · exact {
      tree := inv.tree
      cpu := fun c' other => Function.update_of_ne other _ _
      lock := lock
      pc := fun _ _ => rfl
      state := fun _ _ _ _ => rfl
      running := fun _ _ => id
      zombie := fun _ _ zombie _ => zombie
      target := fun _ _ _ _ _ zombie child => ⟨zombie, child⟩
      res := fun _ _ _ _ => rfl
      frame := fun _ _ _ _ _ => rfl
      owner := fun _ _ _ _ _ => id
      settled := fun _ _ => .inl }
  · intro p _ settled
    obtain ⟨k, d, body⟩ := inv.body p settled
    exact ⟨k, d, body.turn idle⟩

/-- The scheduler marks its process as running. -/
theorem Inv.start (inv : Inv s) (at_ : s.cpu c = ⟨some p, .loaded p, none, (s.res p).pgdir⟩)
    (locked : s.lock = some c) (runnable : (s.table.entry p).state = .RUNNABLE) :
    Inv { s.setCpu c { s.cpu c with loop := .started p } with table := s.table.run p } := by
  have current : (s.cpu c).proc = some p := by rw [at_]
  have own : Local s { s.setCpu c { s.cpu c with loop := .started p } with table := s.table.run p } c p := {
    tree := inv.tree.shuffle (ProcTable.run_shuffled runnable)
    cpu := fun c' other => Function.update_of_ne other _ _
    lock := fun _ _ => .rfl
    entry := fun q other => Function.update_of_ne other _ _
    pc := fun _ _ => rfl
    adopted := fun _ => id
    res := fun _ _ => rfl
    frame := fun _ _ _ _ => rfl
    owner := fun _ _ _ _ => id }
  refine inv.calm_current (own.calm inv current) current ?_ ?_ ?_
  · simp only [Machine.setCpu, Function.update_self, at_]
    exact .started p locked (by simp [Table.run])
  · simp [Machine.setCpu, at_]
  · obtain ⟨k, d, body⟩ := inv.body p (.inl ((inv.at_ c).grown current))
    have turned := body.turn (l := s.lock) (x := { s.cpu c with loop := .started p }) (c := c) (by rw [at_])
    refine ⟨k, d, turned.kstack, turned.pgdir, turned.stack, turned.dir, turned.old,
      turned.fits.congr rfl, fun away => ?_⟩
    obtain ⟨context, after, next, alive⟩ := turned.parked away
    refine ⟨context, after, next, .inr (alive.resolve_left ?_)⟩
    change (s.table.entry p).state ≠ _
    rw [runnable]
    rintro ⟨⟩

theorem Inv.schedule (inv : Inv s) (idle : (s.cpu c).stack = none) (step : s.schedule c = some t) : Inv t := by
  have at_ := inv.at_ c
  have others : s.lock = some c → ∀ c' q, c' ≠ c → (s.cpu c').proc = some q →
      (s.table.entry q).state = .RUNNING := by
    intro locked c' q other theirs
    exact (inv.at_ c').running (fun held => other (Option.some.inj (held.symm.trans locked))) theirs
  unfold Machine.schedule at step
  generalize was : s.cpu c = x at at_ step idle
  cases at_ with
  | idle free =>
    obtain ⟨unlocked, same⟩ := Option.ite_none_right_eq_some.mp step
    cases same
    have unlocked := Option.isNone_iff_eq_none.mp unlocked
    refine inv.turn (by rw [was]) none (lock_turn (.inl unlocked) (.inr rfl)) (.scan 0 rfl) ?_ ?_ nofun nofun
    · exact fun _ _ _ _ => nofun
    · rw [was]
      nofun
  | scan n locked =>
    dsimp only at step
    split_ifs at step with inside runnable
    · cases step
      refine inv.turn (by rw [was]) (some ⟨n, inside⟩) (fun _ _ => .rfl) (.picked _ locked runnable) ?_ ?_ ?_ ?_
      · intro c' q other theirs same
        cases same
        exact nomatch (others locked c' _ other theirs).symm.trans runnable
      · rw [was]
        nofun
      · exact fun _ same => same.symm
      · intro p same _
        exact same
    · cases step
      refine inv.turn (by rw [was]) none (fun _ _ => .rfl) (.scan (n + 1) locked) ?_ ?_ nofun nofun
      · exact fun _ _ _ _ => nofun
      · rw [was]
        nofun
    · cases step
      refine inv.turn (by rw [was]) none (lock_turn (.inr locked) (.inl rfl)) (.idle nofun) ?_ ?_ nofun nofun
      · exact fun _ _ _ _ => nofun
      · rw [was]
        nofun
  | picked p locked runnable =>
    cases step
    have current : (s.cpu c).proc = some p := by rw [was]
    refine inv.turn (by rw [was]) (some p) (fun _ _ => .rfl) (.loaded p locked runnable) (inv.alone current) ?_ ?_ ?_
    · exact fun _ same => same.symm.trans current
    · exact fun _ same => same.symm
    · exact fun _ same _ => same
  | loaded p locked runnable =>
    cases step
    have started := inv.start was locked runnable
    rwa [was] at started
  | started p locked running =>
    cases step
    have current : (s.cpu c).proc = some p := by rw [was]
    obtain ⟨k, after, kstack, context, next, alive⟩ := inv.switch current (by rw [was]) running
    rw [context]
    refine inv.turn (by rw [was]) (some p) (fun _ _ => .rfl) (.away p k _ kstack ?_) (inv.alone current) ?_ ?_ ?_
    · change Runs _ c p _ (s.frame k)
      rw [next]
      exact ⟨by simp [locked, Pc.locked], running, .inl rfl, nofun, fun same => alive (Pc.resumed.inj same)⟩
    · exact fun _ same => same.symm.trans current
    · exact fun _ same => same.symm
    · exact fun _ same _ => same
  | away => exact nomatch idle
  | back p cr3 locked grown stopped =>
    cases step
    have current : (s.cpu c).proc = some p := by rw [was]
    refine inv.turn (by rw [was]) (some p) (fun _ _ => .rfl) (.tidy p locked grown stopped) (inv.alone current) ?_ ?_ ?_
    · exact fun _ same => same.symm.trans current
    · exact fun _ same => same.symm
    · exact fun _ same _ => same
  | tidy p locked grown stopped =>
    cases step
    have current : (s.cpu c).proc = some p := by rw [was]
    refine inv.turn (by rw [was]) (some p) (fun _ _ => .rfl) (.scan _ locked) (inv.alone current) ?_ nofun ?_
    · exact fun _ same => same.symm.trans current
    · intro q same running
      cases same
      exact absurd running stopped

end Scheduler
end Xv6.Cpus
