import Xv6.CpuProofs

/-! The steps of a process on a processor, and what follows for all runs: who is marked as
running is on one processor, and `wait` frees what no processor uses. -/
namespace Xv6.Cpus
open ProcTable (Table Tree initproc)
open Transition
open Function (update update_eq_self update_of_ne update_self)

section Process
variable {C : Type} {s t : Machine C} {c c' : C} {p q z : Fin NPROC} {k d : Page} {x : Cpu}
  {l : Option C} {cr3 : Option Page} {T : Table} {pc : Pc}

theorem Task.old_of_stale {task : Task} {o : Page} (may : task.stale = some o) : task.old = some o := by
  cases task with
  | swapped old => exact may
  | _ => exact nomatch may

theorem Pc.old_of_stale {o : Page} (may : pc.stale = some o) : pc.old = some o := by
  cases pc with
  | free task | yielding task => exact Task.old_of_stale may
  | sched q after =>
    cases after with
    | yield task => exact Task.old_of_stale may
    | _ => exact nomatch may
  | _ => exact nomatch may

/-- Processor `c` runs process `p` on its stack. -/
structure Thread (s : Machine C) (c : C) (p : Fin NPROC) (k d : Page) (cr3 : Option Page) : Prop where
  here : s.cpu c = ⟨some p, .away p, some k, cr3⟩
  runs : Runs s c p cr3 (s.frame k)
  body : Body s p k d

theorem Inv.thread (inv : Inv s) (on : (s.cpu c).stack = some k) : ∃ p d cr3, Thread s c p k d cr3 := by
  have at_ := inv.at_ c
  generalize was : s.cpu c = x at at_ on
  cases at_ with
  | away p k' cr3 kstack runs =>
    cases on
    obtain ⟨k', d, body⟩ := inv.body p (.inl ((inv.at_ c).grown (by rw [was])))
    cases kstack.symm.trans body.kstack
    exact ⟨p, d, cr3, was, runs, body⟩
  | _ => exact nomatch on

/-- The other processors run their processes while processor `c` has the lock or nobody. -/
theorem Inv.others (inv : Inv s) (held : s.lock = none ∨ s.lock = some c) (other : c' ≠ c)
    (theirs : (s.cpu c').proc = some q) : (s.table.entry q).state = .RUNNING := by
  refine (inv.at_ c').running (fun locked => ?_) theirs
  rcases held with free | held
  · exact nomatch free.symm.trans locked
  · exact other (Option.some.inj (locked.symm.trans held))

namespace Thread

theorem current (thread : Thread s c p k d cr3) : (s.cpu c).proc = some p := by rw [thread.here]

/-- The directory that is loaded belongs to the process. -/
theorem loaded {x : Page} (thread : Thread s c p k d cr3) (loaded : cr3 = some x) :
    ∃ u, s.owner x = some (p, u) := by
  rcases thread.runs.cr3 with same | ⟨o, may, same⟩
  · cases loaded.symm.trans (same.trans thread.body.pgdir)
    exact ⟨_, thread.body.dir⟩
  · cases loaded.symm.trans same
    exact ⟨_, thread.body.old x (Pc.old_of_stale may)⟩

/-- The same process goes on. -/
theorem stays {cr3' : Option Page} {d' : Page} (thread : Thread s c p k d cr3) (inv : Inv s)
    (calm : Calm s t c (some p)) (now : t.cpu c = ⟨some p, .away p, some k, cr3'⟩)
    (next : t.frame k = pc) (runs : Runs t c p cr3' pc) (kstack : (t.res p).kstack = some k)
    (pgdir : (t.res p).pgdir = some d') (stack : t.owner k = some (p, .stack))
    (dir : t.owner d' = some (p, .dir)) (old : ∀ o, pc.old = some o → t.owner o = some (p, .old))
    (fits : pc.Fits t.table p) : Inv t := by
  subst next
  refine inv.calm_current calm thread.current ?_ (by rw [now]) ⟨k, d', kstack, pgdir, stack, dir, old, fits, ?_⟩
  · rw [now]
    exact .away p k cr3' kstack runs
  · intro away
    exact absurd (by rw [now]) (away c)

end Thread

/-- The machine with another next statement on stack `k`, and with another lock and table. -/
def Machine.goto (s : Machine C) (k : Page) (pc : Pc) (l : Option C) (T : Table) : Machine C :=
  ⟨s.cpu, l, T, s.res, update s.frame k pc, s.owner⟩

theorem exit_state (s : Table) (other : q ≠ p) : ((s.exit p).entry q).state = (s.entry q).state ∨
    (s.entry q).state = .SLEEPING ∧ ((s.exit p).entry q).state = .RUNNABLE := by
  by_cases woken : ProcTable.WokenBy s p q
  · exact .inr ⟨woken.1, (ProcTable.exit_entry s p q).woken other woken⟩
  · exact .inl ((ProcTable.exit_entry s p q).still other woken)

/-- An exited process is nobody's to start. -/
theorem unsettled (tree : Tree s.table) (zombie : (s.table.entry z).state = .ZOMBIE) :
    ¬ Settled ((s.table.reap p z).goto p .idle) z := by
  rintro (grown | ⟨i, adopted⟩)
  · exact grown.1 (by simp [Table.goto, Table.reap])
  · rw [Table.goto_pc] at adopted
    split_ifs at adopted
    cases zombie.symm.trans (tree.child i z (by rw [show s.table.pc i = _ from adopted]; rfl))

theorem embryo_young {t : Table} {i np : Fin NPROC} (tree : Tree t) (filling : (t.pc i).child = some np) :
    ¬ Grown t np := fun grown => grown.2 (tree.child i np filling)

namespace Thread

/-- Other stacks belong to other processes. -/
theorem frame_other (thread : Thread s c p k d cr3) {k' : Page} (other : q ≠ p)
    (owner : s.owner k' = some (q, .stack)) : update s.frame k pc k' = s.frame k' := by
  apply update_of_ne
  rintro rfl
  exact other (congrArg Prod.fst (Option.some.inj (owner.symm.trans thread.body.stack)))

theorem locked (thread : Thread s c p k d cr3) (next : s.frame k = pc) (holds : pc.locked = true) :
    s.lock = some c := thread.runs.lock.mpr (by rw [next, holds])

theorem state (thread : Thread s c p k d cr3) (next : s.frame k = pc) :
    (s.table.entry p).state = pc.state := by rw [thread.runs.state, next]

theorem active (thread : Thread s c p k d cr3) (next : s.frame k = pc) (running : pc.state = .RUNNING) :
    ProcTable.active (s.table.entry p).state = true := by
  rw [thread.state next, running]
  rfl

variable (thread : Thread s c p k d cr3) (inv : Inv s)
include thread inv

theorem moves (calm : Calm s (s.goto k pc l T) c (some p))
    (lock : l = some c ↔ pc.locked = true) (state : (T.entry p).state = pc.state)
    (stale : ∀ o, (s.frame k).stale = some o → pc.stale = some o)
    (old : ∀ o, pc.old = some o → (s.frame k).old = some o)
    (target : ∀ q z, pc = .reaping q z → (T.entry z).state = .ZOMBIE ∧ (T.entry z).parent = some q)
    (live : pc ≠ .resumed .exit) (fits : pc.Fits T p) : Inv (s.goto k pc l T) := by
  refine thread.stays inv calm thread.here (update_self ..) ⟨lock, state, ?_, target, live⟩
    thread.body.kstack thread.body.pgdir thread.body.stack thread.body.dir ?_ fits
  · rcases thread.runs.cr3 with loaded | ⟨o, may, loaded⟩
    · exact .inl loaded
    · exact .inr ⟨o, stale o may, loaded⟩
  · exact fun o holds => thread.body.old o (old o holds)

/-- Nothing changes in the table but the slot of the process. -/
theorem calm_own (tree : Tree T)
    (lock : ∀ c', c' ≠ c → (l = some c' ↔ s.lock = some c'))
    (entry : ∀ q, q ≠ p → T.entry q = s.table.entry q) (pcs : ∀ q, q ≠ p → T.pc q = s.table.pc q)
    (adopted : ∀ q, T.pc p = .adopted q → s.table.pc p = .adopted q) :
    Calm s (s.goto k pc l T) c (some p) := by
  refine Local.calm (p := p) ?_ inv thread.current
  exact {
    tree := tree
    cpu := fun _ _ => rfl
    lock := lock
    entry := entry
    pc := pcs
    adopted := adopted
    res := fun _ _ => rfl
    frame := fun _ _ other owner => thread.frame_other other owner
    owner := fun _ _ _ _ => id }

theorem calm_same
    (lock : ∀ c', c' ≠ c → (l = some c' ↔ s.lock = some c')) :
    Calm s (s.goto k pc l s.table) c (some p) :=
  thread.calm_own inv inv.tree lock (fun _ _ => rfl) (fun _ _ => rfl) fun _ => id

/-- `ptable.lock` is free, and the process takes it. -/
theorem enters {task : Task} (next : s.frame k = .free task)
    (free : s.lock = none) (holds : pc.locked = true) (running : pc.state = .RUNNING)
    (stale : ∀ o, task.stale = some o → pc.stale = some o) (old : ∀ o, pc.old = some o → task.old = some o)
    (target : ∀ q z, pc ≠ .reaping q z) (live : pc ≠ .resumed .exit) (fits : pc.Fits s.table p) :
    Inv (s.goto k pc (some c) s.table) := by
  refine thread.moves inv (thread.calm_same inv (lock_turn (.inl free) (.inr rfl))) ?_ ?_ ?_ ?_ ?_ live fits
  · simp [holds]
  · rw [thread.state next, running]
    rfl
  · rw [next]
    exact stale
  · rw [next]
    exact old
  · exact fun q z same => absurd same (target q z)

/-- The process gives `ptable.lock` back. -/
theorem leaves {task : Task} (next : s.frame k = pc)
    (holds : pc.locked = true) (running : pc.state = .RUNNING) (fresh : pc.stale = none)
    (old : ∀ o, task.old = some o → pc.old = some o) : Inv (s.goto k (.free task) none s.table) := by
  have held := thread.locked next holds
  refine thread.moves inv (thread.calm_same inv (lock_turn (.inr held) (.inl rfl))) ?_ ?_ ?_ ?_ nofun
    nofun trivial
  · simp [Pc.locked]
  · rw [thread.state next, running]
    rfl
  · rw [next, fresh]
    rintro _ ⟨⟩
  · rw [next]
    exact old

theorem yielding {task : Task} (next : s.frame k = .yielding task) :
    Inv { s.setFrame k (.sched p (.yield task)) with table := s.table.set p fun e => { e with state := .RUNNABLE } } := by
  refine thread.moves inv (thread.calm_own inv ?_ (fun _ _ => .rfl) ?_ ?_ ?_) ?_ ?_ ?_ ?_ nofun nofun ⟨rfl, trivial⟩
  · exact inv.tree.shuffle (.of_set rfl (.inr ⟨thread.active next rfl, rfl⟩) nofun)
  · exact fun q other => update_of_ne other _ _
  · exact fun _ _ => rfl
  · exact fun _ => id
  · exact iff_of_true (thread.locked next rfl) rfl
  · simp [Pc.state, After.state]
  · rw [next]
    exact fun _ => id
  · rw [next]
    exact fun _ => id

theorem sleeping {chan : Nat} (next : s.frame k = .sleeping q chan) :
    Inv { s.setFrame k (.sched q .sleep) with
      table := s.table.set q fun e => { e with chan := some (.other chan), state := .SLEEPING } } := by
  have fits := thread.body.fits
  rw [next] at fits
  obtain rfl : q = p := fits
  refine thread.moves inv (thread.calm_own inv ?_ (fun _ _ => .rfl) ?_ ?_ ?_) ?_ ?_ ?_ nofun nofun nofun ⟨rfl, trivial⟩
  · exact inv.tree.shuffle (.of_set rfl (.inr ⟨thread.active next rfl, rfl⟩) (fun _ => nofun))
  · exact fun q other => update_of_ne other _ _
  · exact fun _ _ => rfl
  · exact fun _ => id
  · exact iff_of_true (thread.locked next rfl) rfl
  · simp [Pc.state, After.state]
  · rw [next]
    nofun

theorem waiting (next : s.frame k = .waiting q) :
    Inv (s.look k q) := by
  have fits := thread.body.fits
  rw [next] at fits
  obtain ⟨rfl, free⟩ := fits
  have held := thread.locked next rfl
  have running := thread.state next
  have fresh : ∀ o, (s.frame k).stale = some o → none = some o := by
    rw [next]
    exact fun _ => id
  have tree := inv.tree.scan running free (ProcTable.scan_cases s.table q)
  unfold Machine.look
  unfold Table.scan at tree
  cases found : (List.finRange NPROC).find? fun z =>
      (s.table.entry z).parent = some q ∧ (s.table.entry z).state = .ZOMBIE with
  | some z =>
    have zombie : (s.table.entry z).parent = some q ∧ (s.table.entry z).state = .ZOMBIE := by
      simpa using List.find?_some found
    refine thread.moves inv (thread.calm_same inv fun _ _ => .rfl) (iff_of_true held rfl) running fresh nofun ?_
      nofun ⟨rfl, free⟩
    rintro _ _ same
    cases same
    exact ⟨zombie.2, zombie.1⟩
  | none =>
    simp only [found] at tree
    dsimp only
    split_ifs at tree ⊢ with done
    · refine thread.moves inv (thread.calm_own inv tree (fun _ _ => .rfl) (fun _ _ => rfl) ?_ ?_)
        (iff_of_true held rfl) running fresh nofun nofun nofun trivial
      · exact fun q other => update_of_ne other _ _
      · intro r adopted
        simp at adopted
    · refine thread.moves inv (thread.calm_own inv tree (fun _ _ => .rfl) ?_ ?_ ?_)
        (iff_of_true held rfl) ?_ fresh nofun nofun nofun ⟨rfl, rfl, ?_⟩
      · exact fun q other => update_of_ne other _ _
      · exact fun q other => update_of_ne other _ _
      · intro r adopted
        simp at adopted
      · simp [Table.goto, Pc.state, After.state]
      · simp [ProcTable.Pc.child]

theorem resumes {after : After} (next : s.frame k = .resumed after)
    (step : s.goOn k after = some t) : Inv t := by
  have fits := thread.body.fits
  rw [next] at fits
  cases after with
  | yield task =>
    cases step
    exact thread.leaves inv next rfl rfl rfl fun _ => id
  | sleep | forkret =>
    cases step
    exact thread.leaves inv next rfl rfl rfl nofun
  | wait q =>
    cases step
    obtain ⟨rfl, free⟩ := fits
    have running : (s.table.entry q).state = .RUNNING := thread.state next
    refine thread.moves inv (thread.calm_same inv fun _ _ => .rfl) (iff_of_true (thread.locked next rfl) rfl)
      running ?_ nofun nofun nofun ⟨rfl, free⟩
    rw [next]
    nofun
  | exit => exact nomatch step

theorem exiting (next : s.frame k = .exiting q) :
    Inv { s.setFrame k (.sched q .exit) with table := s.table.exit q } := by
  have fits := thread.body.fits
  rw [next] at fits
  obtain ⟨rfl, idle, notInit⟩ := fits
  have held := thread.locked next rfl
  have running : (s.table.entry q).state = .RUNNING := thread.state next
  have differ : ∀ {r}, some r ≠ some q → r ≠ q := fun other same => other (congrArg some same)
  refine thread.moves inv ?_ (iff_of_true held rfl) ((ProcTable.exit_entry s.table q q).self rfl) ?_ nofun nofun nofun
    ⟨rfl, trivial⟩
  · exact {
      tree := inv.tree.exit ⟨running, idle⟩ notInit
      cpu := fun _ _ => rfl
      lock := fun _ _ => .rfl
      pc := fun r _ => congrFun (ProcTable.exit_pc s.table q) r
      state := by
        intro c' r other theirs
        have runs := inv.others (.inr held) other theirs
        rcases exit_state s.table (differ (inv.alone thread.current c' r other theirs)) with same | ⟨sleeps, _⟩
        · exact same
        · exact nomatch runs.symm.trans sleeps
      running := by
        intro r other runs
        rcases exit_state s.table (differ other) with same | ⟨_, ready⟩
        · exact same.symm.trans runs
        · exact nomatch ready.symm.trans runs
      zombie := by
        intro r other zombie _
        rcases exit_state s.table (differ other) with same | ⟨sleeps, _⟩
        · exact same.trans zombie
        · exact nomatch sleeps.symm.trans zombie
      target := fun c' _ _ other theirs => absurd (Option.some.inj (theirs.symm.trans held)) other
      res := fun _ _ _ _ => rfl
      frame := fun _ _ other owner _ => thread.frame_other (differ other) owner
      owner := fun _ _ _ _ _ => id
      settled := by
        rintro r other (grown | ⟨i, adopted⟩)
        · refine .inl (.inl ?_)
          rcases exit_state s.table (differ other) with same | ⟨sleeps, _⟩
          · unfold Grown
            rw [← same]
            exact grown
          · unfold Grown
            rw [sleeps]
            exact ⟨nofun, nofun⟩
        · exact .inl (.inr ⟨i, (congrFun (ProcTable.exit_pc s.table q) i).symm.trans adopted⟩) }
  · rw [next]
    nofun

theorem reaping (next : s.frame k = .reaping q z) :
    Inv (s.bury k q z) := by
  have fits := thread.body.fits
  rw [next] at fits
  obtain ⟨rfl, free⟩ := fits
  obtain ⟨zombie, child⟩ := thread.runs.target q z next
  have held := thread.locked next rfl
  have running : (s.table.entry q).state = .RUNNING := thread.state next
  obtain ⟨kz, dz, corpse⟩ := inv.body z (.inl (by unfold Grown; rw [zombie]; exact ⟨nofun, nofun⟩))
  have apart : q ≠ z := by
    rintro rfl
    cases running.symm.trans zombie
  have differ : ∀ {r}, some r ≠ some q → r ≠ q := fun other same => other (congrArg some same)
  have gone : ∀ r, Settled ((s.table.reap q z).goto q .idle) r → r ≠ z := by
    rintro r settled rfl
    exact unsettled inv.tree zombie settled
  have entry : ∀ r, r ≠ z → ((s.table.reap q z).goto q .idle).entry r = s.table.entry r :=
    fun r other => ProcTable.reap_entry s.table q other
  have owner : ∀ r x u, r ≠ z → s.owner x = some (r, u) →
      update (update s.owner kz none) dz none x = some (r, u) := by
    intro r x u other owns
    rw [update_of_ne, update_of_ne, owns]
    · rintro rfl
      exact other (congrArg Prod.fst (Option.some.inj (owns.symm.trans corpse.stack)))
    · rintro rfl
      exact other (congrArg Prod.fst (Option.some.inj (owns.symm.trans corpse.dir)))
  have res : ∀ r, r ≠ z → update s.res z { s.res z with kstack := none } r = s.res r :=
    fun r other => update_of_ne other _ _
  have buried : s.bury k q z = ⟨s.cpu, s.lock, (s.table.reap q z).goto q .idle,
      update s.res z { s.res z with kstack := none }, update s.frame k .leaving,
      update (update s.owner kz none) dz none⟩ := by
    unfold Machine.bury
    rw [corpse.kstack, corpse.pgdir]
    rfl
  rw [buried]
  refine thread.stays inv ?_ thread.here (update_self ..) ⟨iff_of_true held rfl, ?_, ?_, nofun, nofun⟩
    ((congrArg Res.kstack (res q apart)).trans thread.body.kstack)
    ((congrArg Res.pgdir (res q apart)).trans thread.body.pgdir) (owner q k _ apart thread.body.stack)
    (owner q d _ apart thread.body.dir) nofun trivial
  · exact {
      tree := inv.tree.scan running free (.reap child zombie)
      cpu := fun _ _ => rfl
      lock := fun _ _ => .rfl
      pc := fun r other => update_of_ne (differ other) _ _
      state := by
        intro c' r other theirs
        have runs := inv.others (.inr held) other theirs
        rw [entry r]
        rintro rfl
        cases runs.symm.trans zombie
      running := by
        intro r other runs
        rwa [entry r] at runs
        rintro rfl
        simp [Table.goto, Table.reap] at runs
      zombie := by
        intro r _ dead settled
        rwa [entry r (gone r settled)]
      target := fun c' _ _ other theirs => absurd (Option.some.inj (theirs.symm.trans held)) other
      res := fun r _ settled _ => res r (gone r settled)
      frame := fun _ _ other owner _ => thread.frame_other (differ other) owner
      owner := fun r x u _ settled => owner r x u (gone r settled)
      settled := by
        intro r other settled
        have alive := gone r settled
        rcases settled with grown | ⟨i, adopted⟩
        · rw [Grown, entry r alive] at grown
          exact .inl (.inl grown)
        · rw [Table.goto_pc] at adopted
          split_ifs at adopted
          exact .inl (.inr ⟨i, adopted⟩) }
  · rw [entry q apart, running]
    rfl
  · rcases thread.runs.cr3 with loaded | ⟨o, may, _⟩
    · exact .inl (loaded.trans (congrArg Res.pgdir (res q apart)).symm)
    · rw [next] at may
      cases may

/-- A process in `fork` works on the slot `np`, in which nobody runs yet. -/
theorem slot (np : Fin NPROC) (next : s.frame k = .free .run)
    (young : ¬ Grown s.table np) (tree : Tree t.table) (cpu : t.cpu = s.cpu) (lock : t.lock = s.lock)
    (entry : ∀ q, q ≠ np → t.table.entry q = s.table.entry q) (still : (t.table.entry np).state ≠ .RUNNING)
    (pcs : ∀ q, q ≠ p → t.table.pc q = s.table.pc q) (adopted : ∀ q, t.table.pc p = .adopted q → q = np)
    (res : ∀ q, Settled s.table q → t.res q = s.res q)
    (frame : ∀ k o, s.owner k = some o → t.frame k = s.frame k)
    (owner : ∀ x o, s.owner x = some o → t.owner x = some o)
    (new : Settled t.table np → Settled s.table np ∨ ∃ k d, Body t np k d) : Inv t := by
  have differ : ∀ {q}, Grown s.table q → q ≠ np := by
    rintro q grown rfl
    exact young grown
  have dead : ∀ {z}, (s.table.entry z).state = .ZOMBIE → z ≠ np := by
    intro z zombie
    apply differ
    unfold Grown
    rw [zombie]
    exact ⟨nofun, nofun⟩
  have grown := (inv.at_ c).grown thread.current
  have running : (s.table.entry p).state = .RUNNING := thread.state next
  have unlocked := thread.runs.lock
  rw [next] at unlocked
  have same := res p (.inl grown)
  refine thread.stays inv ?_ (by rw [cpu, thread.here]) ((frame k _ thread.body.stack).trans next)
    ⟨by rw [lock]; exact unlocked, by rw [entry p (differ grown), running]; rfl, ?_, nofun, nofun⟩
    (by rw [same, thread.body.kstack]) (by rw [same, thread.body.pgdir]) (owner k _ thread.body.stack)
    (owner d _ thread.body.dir) nofun trivial
  · exact {
      tree := tree
      cpu := fun c' _ => congrFun cpu c'
      lock := fun _ _ => by rw [lock]
      pc := fun q other => pcs q fun same => other (congrArg some same)
      state := by
        intro c' q _ theirs
        rw [entry q (differ ((inv.at_ c').grown theirs))]
      running := by
        intro q _ runs
        by_cases slot : q = np
        · subst slot
          exact absurd runs still
        · rwa [entry q slot] at runs
      zombie := by
        intro q _ zombie _
        rwa [entry q (dead zombie)]
      target := by
        intro c' q z _ _ zombie child
        rw [entry z (dead zombie)]
        exact ⟨zombie, child⟩
      res := fun q _ _ settled => res q settled
      frame := fun q k _ owner _ => frame k _ owner
      owner := fun q x u _ _ => owner x (q, u)
      settled := by
        intro q other settled
        by_cases slot : q = np
        · subst slot
          exact new settled
        · rcases settled with grown | ⟨i, adopts⟩
          · rw [Grown, entry q slot] at grown
            exact .inl (.inl grown)
          · by_cases mover : i = p
            · subst mover
              exact absurd (adopted q adopts) slot
            · rw [pcs i mover] at adopts
              exact .inl (.inr ⟨i, adopts⟩) }
  · rcases thread.runs.cr3 with loaded | ⟨o, may, _⟩
    · exact .inl (by rw [loaded, same])
    · rw [next] at may
      cases may

/-- `fork`, up to the end of the locked part of `allocproc`. -/
theorem forks (next : s.frame k = .free .run)
    (step : s.table.Step (.fork p) T) : Inv { s with table := T } := by
  have tree := inv.tree.step step
  cases ProcTable.happens_of_step step with
  | full => exact inv
  | @fork _ np u running found =>
    obtain ⟨unused, rfl⟩ := ProcTable.allocproc_some found
    refine thread.slot inv np next (fun grown => grown.1 unused) tree rfl rfl ?_ ?_ ?_ ?_ (fun _ _ => rfl)
      (fun _ _ _ => rfl) (fun _ _ => id) ?_
    · exact fun q other => update_of_ne other _ _
    · simp [Table.goto]
    · exact fun q other => update_of_ne other _ _
    · intro q adopts
      simp at adopts
    · rintro (grown | ⟨i, adopts⟩)
      · exact absurd (by simp [Table.goto]) grown.2
      · rw [Table.goto_pc] at adopts
        split_ifs at adopts
        cases unused.symm.trans (inv.tree.child i np (by rw [show s.table.pc i = _ from adopts]; rfl))

/-- `fork` finds no memory for the child. -/
theorem fails (next : s.frame k = .free .run)
    (step : s.table.Step (.fail p) T) : Inv { s with table := T } := by
  have tree := inv.tree.step step
  cases ProcTable.happens_of_step step with
  | @fail _ np running =>
    have filling : (s.table.pc p).child = some np := by rw [running.2]; rfl
    refine thread.slot inv np next (embryo_young inv.tree filling) tree rfl rfl ?_ ?_ ?_ ?_ (fun _ _ => rfl)
      (fun _ _ _ => rfl) (fun _ _ => id) ?_
    · exact fun q other => update_of_ne other _ _
    · simp [Table.goto]
    · exact fun q other => update_of_ne other _ _
    · intro q adopts
      simp at adopts
    · rintro (grown | ⟨i, adopts⟩)
      · exact absurd (by simp [Table.goto]) grown.1
      · rw [Table.goto_pc] at adopts
        split_ifs at adopts with mover
        have also : (s.table.pc i).child = some np := by rw [show s.table.pc i = _ from adopts]; rfl
        exact absurd (inv.tree.single i p np also filling) mover

/-- `fork` lets the child go. -/
theorem readies (next : s.frame k = .free .run)
    (step : s.table.Step (.ready p) T) : Inv { s with table := T } := by
  have tree := inv.tree.step step
  cases ProcTable.happens_of_step step with
  | @ready _ np running =>
    have filling : (s.table.pc p).child = some np := by rw [running.2]; rfl
    refine thread.slot inv np next (embryo_young inv.tree filling) tree rfl rfl ?_ ?_ ?_ ?_ (fun _ _ => rfl)
      (fun _ _ _ => rfl) (fun _ _ => id) ?_
    · exact fun q other => update_of_ne other _ _
    · simp [Table.goto]
    · exact fun q other => update_of_ne other _ _
    · intro q adopts
      simp at adopts
    · exact fun _ => .inl (.inr ⟨p, running.2⟩)

/-- `fork` gives the child a stack, a directory and a parent. -/
theorem adopts {np : Fin NPROC} {k' d' : Page}
    (next : s.frame k = .free .run) (filling : s.table.pc p = .embryo np) (freeStack : s.owner k' = none)
    (freeDir : s.owner d' = none) (apart : k' ≠ d') (step : s.table.Step (.adopt p) T) :
    Inv { (((s.own k' (some (np, .stack))).own d' (some (np, .dir))).setRes np ⟨some k', some d', some k'⟩).setFrame k'
      (.resumed .forkret) with table := T } := by
  have tree := inv.tree.step step
  have child : (s.table.pc p).child = some np := by rw [filling]; rfl
  cases ProcTable.happens_of_step step with
  | @adopt _ np' running =>
    cases filling.symm.trans running.2
    have young := embryo_young inv.tree child
    have owner : ∀ x o, s.owner x = some o → update (update s.owner k' (some (np, .stack))) d'
        (some (np, .dir)) x = some o := by
      intro x o owns
      rw [update_of_ne, update_of_ne, owns]
      · rintro rfl
        cases freeStack.symm.trans owns
      · rintro rfl
        cases freeDir.symm.trans owns
    have res : update s.res np ⟨some k', some d', some k'⟩ np = ⟨some k', some d', some k'⟩ :=
      update_self ..
    have frame : update s.frame k' (.resumed .forkret) k' = .resumed .forkret := update_self ..
    refine thread.slot inv np next young tree rfl rfl ?_ ?_ ?_ ?_ ?_ ?_ owner ?_
    · exact fun q other => update_of_ne other _ _
    · have embryo := inv.tree.child p np child
      simp [Table.goto, embryo]
    · exact fun q other => update_of_ne other _ _
    · intro q adopts
      simpa [eq_comm] using adopts
    · intro q settled
      apply update_of_ne
      rintro rfl
      rcases settled with grown | ⟨i, adopts⟩
      · exact young grown
      · have also : (s.table.pc i).child = some q := by rw [adopts]; rfl
        obtain rfl := inv.tree.single i p q also child
        cases filling.symm.trans adopts
    · intro x o owns
      apply update_of_ne
      rintro rfl
      cases freeStack.symm.trans owns
    · intro _
      refine .inr ⟨k', d', ?_⟩
      exact {
        kstack := congrArg Res.kstack res
        pgdir := congrArg Res.pgdir res
        stack := (update_of_ne apart _ _).trans (update_self ..)
        dir := update_self ..
        old := by
          intro o
          change (update s.frame k' (.resumed .forkret) k').old = _ → _
          rw [frame]
          rintro ⟨⟩
        fits := by
          change (update s.frame k' (.resumed .forkret) k').Fits _ _
          rw [frame]
          trivial
        parked := fun _ => ⟨congrArg Res.context res, .forkret, frame, .inr (by simp)⟩ }

theorem enter {task : Task} (next : s.frame k = .free task)
    (step : s.enter c k pc = some t) (holds : pc.locked = true) (running : pc.state = .RUNNING)
    (stale : ∀ o, task.stale = some o → pc.stale = some o) (old : ∀ o, pc.old = some o → task.old = some o)
    (target : ∀ q z, pc ≠ .reaping q z) (live : pc ≠ .resumed .exit) (fits : pc.Fits s.table p) : Inv t := by
  obtain ⟨free, same⟩ := Option.ite_none_right_eq_some.mp step
  cases same
  exact thread.enters inv next (Option.isNone_iff_eq_none.mp free) holds running stale old target live fits

section Pages
variable [DecidableEq C]

theorem switches {after : After} (next : s.frame k = .sched q after)
    (step : s.swtch c k q after = some t) : Inv t := by
  have fits := thread.body.fits
  rw [next] at fits
  obtain ⟨rfl, fits⟩ := fits
  have held := thread.locked next rfl
  have state : (s.table.entry q).state = after.state := thread.state next
  unfold Machine.swtch at step
  rw [thread.here] at step
  cases step
  refine inv.calm_current (c := c) (p := q) (Local.calm ?_ inv thread.current) thread.current ?_ ?_ ?_
  · exact {
      tree := inv.tree
      cpu := fun c' other => update_of_ne other _ _
      lock := fun _ _ => .rfl
      entry := fun _ _ => rfl
      pc := fun _ _ => rfl
      adopted := fun _ => id
      res := fun r other => update_of_ne other _ _
      frame := fun _ _ other owner => thread.frame_other other owner
      owner := fun _ _ _ _ => id }
  · simp only [Machine.setCpu, update_self]
    refine .back q cr3 held ((inv.at_ c).grown thread.current) ?_ fun x loaded => thread.loaded loaded
    change (s.table.entry q).state ≠ _
    rw [state]
    cases after <;> rintro ⟨⟩
  · simp [Machine.setCpu]
  · refine ⟨k, d, ?_⟩
    have frame : update s.frame k (.resumed after) k = .resumed after := update_self ..
    exact {
      kstack := by simpa [Machine.setCpu, Machine.setFrame, Machine.setRes] using thread.body.kstack
      pgdir := by simpa [Machine.setCpu, Machine.setFrame, Machine.setRes] using thread.body.pgdir
      stack := thread.body.stack
      dir := thread.body.dir
      old := by
        intro o
        change (update s.frame k (.resumed after) k).old = _ → _
        rw [frame]
        intro holds
        refine thread.body.old o ?_
        rw [next]
        cases after <;> exact holds
      fits := by
        change (update s.frame k (.resumed after) k).Fits _ _
        rw [frame]
        exact fits
      parked := by
        intro _
        refine ⟨by simp [Machine.setCpu, Machine.setFrame, Machine.setRes], after, frame, ?_⟩
        by_cases exits : after = .exit
        · refine .inl ?_
          change (s.table.entry q).state = _
          rw [state, exits]
          rfl
        · exact .inr exits }

/-- The process changes its own pages, and nothing else. -/
theorem own_calm (x : Cpu) (pc : Pc) {f : Fin NPROC → Res} {g : Page → Option (Fin NPROC × Use)}
    (res : ∀ q, q ≠ p → f q = s.res q)
    (owner : ∀ q x u, q ≠ p → s.owner x = some (q, u) → g x = some (q, u)) :
    Calm s ⟨update s.cpu c x, s.lock, s.table, f, update s.frame k pc, g⟩ c (some p) := by
  refine Local.calm ?_ inv thread.current
  exact {
    tree := inv.tree
    cpu := fun c' other => update_of_ne other _ _
    lock := fun _ _ => .rfl
    entry := fun _ _ => rfl
    pc := fun _ _ => rfl
    adopted := fun _ => id
    res := res
    frame := fun _ _ other owner => thread.frame_other other owner
    owner := owner }

/-- `switchuvm` of the current process. -/
theorem loads {task : Task} (task' : Task)
    (next : s.frame k = .free task)
    (old : ∀ o, task'.old = some o → task.old = some o) :
    Inv ((s.setFrame k (.free task')).setCpu c { s.cpu c with cr3 := (s.res p).pgdir }) := by
  have now : update s.cpu c { s.cpu c with cr3 := (s.res p).pgdir } c =
      ⟨some p, .away p, some k, (s.res p).pgdir⟩ := by rw [update_self, thread.here]
  have unlocked := thread.runs.lock
  rw [next] at unlocked
  have running : (s.table.entry p).state = .RUNNING := thread.state next
  refine thread.stays inv (thread.own_calm inv _ _ (fun _ _ => rfl) fun _ _ _ _ => id) now (update_self ..)
    ⟨unlocked, running, .inl rfl, nofun, nofun⟩ thread.body.kstack thread.body.pgdir thread.body.stack
    thread.body.dir ?_ trivial
  intro o holds
  exact thread.body.old o (by rw [next]; exact old o holds)

/-- The end of `exec`. -/
theorem frees {old : Page} (next : s.frame k = .free (.loaded old)) :
    Inv ((s.own old none).setFrame k (.free .run)) := by
  have owns : s.owner old = some (p, .old) := thread.body.old old (by rw [next]; rfl)
  have unlocked := thread.runs.lock
  rw [next] at unlocked
  have running : (s.table.entry p).state = .RUNNING := thread.state next
  have owner : ∀ x o, o ≠ (p, .old) → s.owner x = some o → update s.owner old none x = some o := by
    intro x o other theirs
    rw [update_of_ne, theirs]
    rintro rfl
    exact other (Option.some.inj (theirs.symm.trans owns))
  have calm : Calm s ((s.own old none).setFrame k (.free .run)) c (some p) := by
    have calm := thread.own_calm inv (s.cpu c) (.free .run) (f := s.res)
      (g := update s.owner old none) (fun _ _ => rfl) ?_
    · rwa [update_eq_self] at calm
    · exact fun q x u other => owner x _ fun same => other (congrArg Prod.fst same)
  refine thread.stays inv calm thread.here (update_self ..) ⟨unlocked, running, ?_, nofun, nofun⟩
    thread.body.kstack thread.body.pgdir (owner _ _ nofun thread.body.stack)
    (owner _ _ nofun thread.body.dir) nofun trivial
  rcases thread.runs.cr3 with loaded | ⟨o, may, _⟩
  · exact .inl loaded
  · rw [next] at may
    exact nomatch may

/-- `exec` puts a new directory into the slot, and the old one is still loaded. -/
theorem execs {d' : Page} (next : s.frame k = .free .run)
    (fresh : s.owner d' = none) :
    Inv ((((s.own d (some (p, .old))).own d' (some (p, .dir))).setRes p { s.res p with pgdir := some d' }).setFrame k
      (.free (.swapped d))) := by
  have unlocked := thread.runs.lock
  rw [next] at unlocked
  have running : (s.table.entry p).state = .RUNNING := thread.state next
  have owner : ∀ x o, o ≠ (p, .dir) → s.owner x = some o →
      update (update s.owner d (some (p, .old))) d' (some (p, .dir)) x = some o := by
    intro x o other theirs
    rw [update_of_ne, update_of_ne, theirs]
    · rintro rfl
      exact other (Option.some.inj (theirs.symm.trans thread.body.dir))
    · rintro rfl
      exact nomatch theirs.symm.trans fresh
  have calm : Calm s ((((s.own d (some (p, .old))).own d' (some (p, .dir))).setRes p
      { s.res p with pgdir := some d' }).setFrame k (.free (.swapped d))) c (some p) := by
    have calm := thread.own_calm inv (s.cpu c) (.free (.swapped d))
      (f := update s.res p { s.res p with pgdir := some d' })
      (g := update (update s.owner d (some (p, .old))) d' (some (p, .dir))) ?_ ?_
    · rwa [update_eq_self] at calm
    · exact fun q other => update_of_ne other _ _
    · exact fun q x u other => owner x _ fun same => other (congrArg Prod.fst same)
  have res : update s.res p { s.res p with pgdir := some d' } p = { s.res p with pgdir := some d' } :=
    update_self ..
  have apart : d ≠ d' := by
    rintro rfl
    exact nomatch thread.body.dir.symm.trans fresh
  refine thread.stays inv calm thread.here (update_self ..) ⟨unlocked, running, ?_, nofun, nofun⟩
    ((congrArg Res.kstack res).trans thread.body.kstack) (congrArg Res.pgdir res)
    (owner _ _ nofun thread.body.stack) (update_self ..) ?_ trivial
  · rcases thread.runs.cr3 with loaded | ⟨o, may, _⟩
    · exact .inr ⟨d, rfl, loaded.trans thread.body.pgdir⟩
    · rw [next] at may
      exact nomatch may
  · intro o holds
    cases holds
    exact (update_of_ne apart _ _).trans (update_self ..)

theorem resume (step : s.resume c k = some t) : Inv t := by
  unfold Machine.resume at step
  cases next : s.frame k with
  | free task =>
    rw [next] at step
    cases task with
    | run => exact nomatch step
    | swapped old =>
      obtain ⟨q, current, rfl⟩ := Option.map_eq_some_iff.mp step
      cases current.symm.trans thread.current
      exact thread.loads inv (.loaded old) next fun _ => id
    | loaded old =>
      cases step
      exact thread.frees inv next
  | yielding task =>
    simp only [next, thread.current] at step
    cases step
    exact thread.yielding inv next
  | sleeping q chan =>
    rw [next] at step
    cases step
    exact thread.sleeping inv next
  | waiting q =>
    rw [next] at step
    cases step
    exact thread.waiting inv next
  | reaping q z =>
    rw [next] at step
    cases step
    exact thread.reaping inv next
  | exiting q =>
    rw [next] at step
    cases step
    exact thread.exiting inv next
  | leaving =>
    rw [next] at step
    cases step
    exact thread.leaves inv next rfl rfl rfl nofun
  | sched q after =>
    rw [next] at step
    exact thread.switches inv next (Option.ite_none_right_eq_some.mp step).2
  | resumed after =>
    rw [next] at step
    exact thread.resumes inv next step

theorem perform {op : Op} (next : s.frame k = .free .run)
    (step : s.perform c p k op = some t) : Inv t := by
  cases op with
  | yield => exact thread.enter inv next step rfl rfl nofun nofun nofun nofun trivial
  | sleep chan =>
    obtain ⟨idle, step⟩ := Option.ite_none_right_eq_some.mp step
    exact thread.enter inv next step rfl rfl nofun nofun nofun nofun rfl
  | wait =>
    obtain ⟨idle, step⟩ := Option.ite_none_right_eq_some.mp step
    exact thread.enter inv next step rfl rfl nofun nofun nofun nofun ⟨rfl, by rw [idle]; rfl⟩
  | exit =>
    obtain ⟨⟨idle, notInit⟩, step⟩ := Option.ite_none_right_eq_some.mp step
    exact thread.enter inv next step rfl rfl nofun nofun nofun nofun ⟨rfl, idle, notInit⟩
  | exec d' =>
    simp only [Machine.perform, thread.body.pgdir] at step
    obtain ⟨⟨fresh, _⟩, same⟩ := Option.ite_none_right_eq_some.mp step
    cases same
    exact thread.execs inv next fresh
  | switchuvm =>
    cases step
    have loaded := thread.loads inv .run next nofun
    have same : s.setFrame k (.free .run) = s := by
      rw [Machine.setFrame, ← next, update_eq_self]
    rwa [same] at loaded
  | fork =>
    obtain ⟨_, step⟩ := Option.ite_none_right_eq_some.mp step
    obtain ⟨T, happens, rfl⟩ := Option.map_eq_some_iff.mp step
    exact thread.forks inv next happens
  | fail =>
    obtain ⟨T, happens, rfl⟩ := Option.map_eq_some_iff.mp step
    exact thread.fails inv next happens
  | adopt k' d' =>
    simp only [Machine.perform] at step
    split at step
    · rename_i np filling
      obtain ⟨⟨freeStack, freeDir, apart⟩, step⟩ := Option.ite_none_right_eq_some.mp step
      obtain ⟨T, happens, rfl⟩ := Option.map_eq_some_iff.mp step
      exact thread.adopts inv next filling freeStack freeDir apart happens
    · exact nomatch step
  | ready =>
    obtain ⟨_, step⟩ := Option.ite_none_right_eq_some.mp step
    obtain ⟨T, happens, rfl⟩ := Option.map_eq_some_iff.mp step
    exact thread.readies inv next happens

end Pages
end Thread

/-- Some sleeping processes are woken, while nobody has the lock. -/
theorem Inv.wake (inv : Inv s) (free : s.lock = none) (tree : Tree T) (pcs : T.pc = s.table.pc)
    (states : ∀ q, (T.entry q).state = (s.table.entry q).state ∨
      (s.table.entry q).state = .SLEEPING ∧ (T.entry q).state = .RUNNABLE) : Inv { s with table := T } := by
  have grown : ∀ q, Grown T q ↔ Grown s.table q := by
    intro q
    unfold Grown
    rcases states q with same | ⟨before, after⟩
    · rw [same]
    · simp [before, after]
  have settled : ∀ q, Settled T q ↔ Settled s.table q := by
    intro q
    unfold Settled
    rw [grown, pcs]
  have running : ∀ q, (T.entry q).state = .RUNNING ↔ (s.table.entry q).state = .RUNNING := by
    intro q
    rcases states q with same | ⟨before, after⟩
    · rw [same]
    · simp [before, after]
  exact {
    tree := tree
    at_ := by
      intro c
      have at_ := inv.at_ c
      change At _ c (s.cpu c)
      generalize s.cpu c = x at at_
      cases at_ with
      | idle => exact .idle (by rw [free]; nofun)
      | away p k cr3 kstack runs =>
        cases next : s.frame k with
        | free task =>
          rw [next] at runs
          refine .away p k cr3 kstack ?_
          change Runs _ c p cr3 (s.frame k)
          rw [next]
          exact ⟨runs.lock, (running p).mpr runs.state, runs.cr3, nofun, nofun⟩
        | _ =>
          rw [next] at runs
          exact nomatch free.symm.trans (runs.lock.mpr rfl)
      | scan _ locked | picked _ locked | loaded _ locked | started _ locked | back _ _ locked | tidy _ locked =>
        exact nomatch free.symm.trans locked
    single := inv.single
    running := fun p runs => inv.running p ((running p).mp runs)
    body := by
      intro p after
      obtain ⟨k, d, body⟩ := inv.body p ((settled p).mp after)
      refine ⟨k, d, body.kstack, body.pgdir, body.stack, body.dir, body.old, body.fits.congr (congrFun pcs p), ?_⟩
      intro away
      obtain ⟨context, after, next, alive⟩ := body.parked away
      refine ⟨context, after, next, alive.imp_left fun zombie => ?_⟩
      rcases states p with same | ⟨before, _⟩
      · exact same.trans zombie
      · exact nomatch before.symm.trans zombie }

theorem Inv.step [DecidableEq C] {e : Event C} (inv : Inv s) (step : s.Step e t) : Inv t := by
  have happens : s.next e = some t := step
  cases e with
  | move c =>
    dsimp only [Machine.next, Machine.move] at happens
    cases on : (s.cpu c).stack with
    | none =>
      rw [on] at happens
      exact inv.schedule on happens
    | some k =>
      rw [on] at happens
      obtain ⟨p, d, cr3, thread⟩ := inv.thread on
      exact thread.resume inv happens
  | call c op =>
    dsimp only [Machine.next, Machine.call] at happens
    cases on : (s.cpu c).stack with
    | none => simp [on] at happens
    | some k =>
      obtain ⟨p, d, cr3, thread⟩ := inv.thread on
      simp only [on, thread.current] at happens
      cases next : s.frame k with
      | free task =>
        rw [next] at happens
        cases task with
        | run => exact thread.perform inv next happens
        | swapped old | loaded old =>
          obtain ⟨_, step⟩ := Option.ite_none_right_eq_some.mp happens
          exact thread.enter inv next step rfl rfl (fun _ => id) (fun _ => id) nofun nofun trivial
      | _ =>
        rw [next] at happens
        exact nomatch happens
  | wakeup chan =>
    obtain ⟨free, same⟩ := Option.ite_none_right_eq_some.mp happens
    cases same
    refine inv.wake (Option.isNone_iff_eq_none.mp free) (inv.tree.shuffle (ProcTable.wakeup1_shuffled _ _)) rfl ?_
    intro q
    rw [Table.wakeup1_state]
    split_ifs with woken
    · exact .inr ⟨woken.1, rfl⟩
    · exact .inl rfl
  | kill pid =>
    obtain ⟨free, same⟩ := Option.ite_none_right_eq_some.mp happens
    cases same
    refine inv.wake (Option.isNone_iff_eq_none.mp free) (inv.tree.shuffle (ProcTable.kill_shuffled _ _)) ?_ ?_
    · unfold Table.kill
      cases s.table.target pid <;> rfl
    · intro q
      unfold Table.kill
      cases s.table.target pid with
      | none => exact .inl rfl
      | some p =>
        by_cases same : q = p
        · subst same
          by_cases sleeping : (s.table.entry q).state = .SLEEPING <;> simp [sleeping]
        · simp [same]

theorem inv_boot : Inv (Machine.boot : Machine C) where
  tree := ProcTable.tree_boot
  at_ := fun _ => .idle nofun
  single := nofun
  running := by
    intro p running
    rcases (ProcTable.boot_entry p).2.1 with unused | rfl
    · exact nomatch unused.symm.trans running
    · exact nomatch running
  body := by
    rintro p (grown | ⟨_, adopts⟩)
    · rcases (ProcTable.boot_entry p).2.1 with unused | rfl
      · exact absurd unused grown.1
      · exact ⟨0, 1, rfl, rfl, rfl, rfl, nofun, trivial, fun _ => ⟨rfl, .forkret, rfl, .inr nofun⟩⟩
    · exact nomatch adopts

theorem inv_run [DecidableEq C] {es : List (Event C)} (run : Run Machine.Step .boot es s) : Inv s :=
  run.kept (fun _ _ _ step inv => inv.step step) inv_boot

/-- A page that a processor is on or has loaded belongs to its process. -/
theorem Inv.in_use (inv : Inv s) {y : Page} (used : (s.cpu c).stack = some y ∨ (s.cpu c).cr3 = some y) :
    ∃ p u, (s.cpu c).proc = some p ∧ s.owner y = some (p, u) := by
  have loads : ∀ p, (s.cpu c).proc = some p → (s.res p).pgdir = some y → s.owner y = some (p, .dir) := by
    intro p current pgdir
    obtain ⟨k, d, body⟩ := inv.body p (.inl ((inv.at_ c).grown current))
    cases pgdir.symm.trans body.pgdir
    exact body.dir
  rcases used with on | loaded
  · obtain ⟨p, current, owner⟩ := inv.owner on
    exact ⟨p, .stack, current, owner⟩
  · cases on : (s.cpu c).stack with
    | some k =>
      obtain ⟨p, d, cr3, thread⟩ := inv.thread on
      rw [thread.here] at loaded ⊢
      obtain ⟨u, owner⟩ := thread.loaded loaded
      exact ⟨p, u, rfl, owner⟩
    | none =>
      have at_ := inv.at_ c
      generalize s.cpu c = x at at_ on loaded loads
      cases at_ with
      | loaded p | started p => exact ⟨p, .dir, rfl, loads p rfl loaded⟩
      | back p cr3 _ _ _ owned =>
        obtain ⟨u, owner⟩ := owned y loaded
        exact ⟨p, u, rfl, owner⟩
      | away => exact nomatch on
      | idle | scan | picked | tidy => exact nomatch loaded

/-- The pages of an exited process are not in use when its parent has found it. -/
theorem Inv.reaping (inv : Inv s) {y : Page} {u : Use} (on : (s.cpu c).stack = some k)
    (next : s.frame k = .reaping p z) (owner : s.owner y = some (z, u)) :
    (s.cpu c').stack ≠ some y ∧ (s.cpu c').cr3 ≠ some y := by
  rw [← not_or]
  intro used
  obtain ⟨q, d, cr3, thread⟩ := inv.thread on
  have zombie := (thread.runs.target p z next).1
  obtain ⟨r, v, current, theirs⟩ := inv.in_use used
  obtain rfl : z = r := congrArg Prod.fst (Option.some.inj (owner.symm.trans theirs))
  have running : (s.table.entry z).state = .RUNNING := by
    by_cases here : c' = c
    · subst here
      cases current.symm.trans thread.current
      exact thread.state next
    · exact inv.others (.inr (thread.locked next rfl)) here current
  exact nomatch running.symm.trans zombie

/-- A page that is about to be freed on stack `k`: by `wait`, or at the end of `exec`. -/
def Machine.Frees (s : Machine C) (k y : Page) : Prop :=
  (∃ p z, s.frame k = .reaping p z ∧ ((s.res z).kstack = some y ∨ (s.res z).pgdir = some y)) ∨
    s.frame k = .free (.loaded y)

theorem bury_owner {y : Page} (owned : s.owner y ≠ none) (freed : (s.bury k p z).owner y = none) :
    (s.res z).kstack = some y ∨ (s.res z).pgdir = some y := by
  by_contra other
  rw [not_or] at other
  have kept : ∀ (u : Machine C) x, x ≠ some y → (u.release x).owner y = u.owner y := by
    intro u x differ
    cases x with
    | none => rfl
    | some x => exact update_of_ne (fun same => differ (congrArg some same.symm)) _ _
  apply owned
  rw [← freed]
  exact ((kept _ _ other.2).trans (kept _ _ other.1)).symm

theorem look_owner : (s.look k p).owner = s.owner := by
  unfold Machine.look
  split
  · rfl
  · split_ifs <;> rfl

section Freed
variable [DecidableEq C] {y : Page}

theorem schedule_owner (step : s.schedule c = some t) : t.owner = s.owner := by
  unfold Machine.schedule at step
  dsimp only at step
  split at step
  · obtain ⟨_, same⟩ := Option.ite_none_right_eq_some.mp step
    cases same
    rfl
  · split_ifs at step <;> (cases Option.some.inj step; rfl)
  · cases step
    rfl
  · cases step
    rfl
  · cases step
    rfl
  · exact nomatch step
  · cases step
    rfl
  · cases step
    rfl

theorem resume_frees (step : s.resume c k = some t) (owned : s.owner y ≠ none) (freed : t.owner y = none) :
    s.Frees k y := by
  unfold Machine.resume at step
  have kept : t.owner ≠ s.owner := by
    intro same
    rw [same] at freed
    exact owned freed
  cases next : s.frame k with
  | reaping p z =>
    rw [next] at step
    cases step
    exact .inl ⟨p, z, next, bury_owner owned freed⟩
  | free task =>
    rw [next] at step
    cases task with
    | run => exact nomatch step
    | swapped old =>
      obtain ⟨_, _, rfl⟩ := Option.map_eq_some_iff.mp step
      exact absurd rfl kept
    | loaded old =>
      cases step
      by_cases same : y = old
      · subst same
        exact .inr next
      · have freed : update s.owner old none y = none := freed
        rw [update_of_ne same] at freed
        exact absurd freed owned
  | yielding task =>
    rw [next] at step
    obtain ⟨_, _, rfl⟩ := Option.map_eq_some_iff.mp step
    exact absurd rfl kept
  | waiting p =>
    rw [next] at step
    cases step
    exact absurd look_owner kept
  | sleeping p chan | exiting p | leaving =>
    rw [next] at step
    cases step
    exact absurd rfl kept
  | sched p after =>
    rw [next] at step
    obtain ⟨_, step⟩ := Option.ite_none_right_eq_some.mp step
    unfold Machine.swtch at step
    split at step
    · cases step
      exact absurd rfl kept
    · exact nomatch step
  | resumed after =>
    rw [next] at step
    cases after with
    | exit => exact nomatch step
    | yield | sleep | wait | forkret =>
      cases step
      exact absurd rfl kept

theorem perform_owner {op : Op} (step : s.perform c p k op = some t) (owned : s.owner y ≠ none) :
    t.owner y ≠ none := by
  have enters : ∀ pc, s.enter c k pc = some t → t.owner y ≠ none := by
    intro pc step
    obtain ⟨_, same⟩ := Option.ite_none_right_eq_some.mp step
    cases same
    exact owned
  have given : ∀ (f : Page → Option (Fin NPROC × Use)) x o, f y ≠ none → update f x (some o) y ≠ none := by
    intro f x o before
    by_cases same : y = x
    · rw [same, update_self]
      nofun
    · rwa [update_of_ne same]
  cases op with
  | yield => exact enters _ step
  | sleep chan => exact enters _ (Option.ite_none_right_eq_some.mp step).2
  | wait => exact enters _ (Option.ite_none_right_eq_some.mp step).2
  | exit => exact enters _ (Option.ite_none_right_eq_some.mp step).2
  | exec d =>
    dsimp only [Machine.perform] at step
    split at step
    · exact nomatch step
    · obtain ⟨_, same⟩ := Option.ite_none_right_eq_some.mp step
      cases same
      exact given _ _ _ (given _ _ _ owned)
  | switchuvm =>
    cases step
    exact owned
  | fork =>
    obtain ⟨_, step⟩ := Option.ite_none_right_eq_some.mp step
    obtain ⟨T, _, rfl⟩ := Option.map_eq_some_iff.mp step
    exact owned
  | fail =>
    obtain ⟨T, _, rfl⟩ := Option.map_eq_some_iff.mp step
    exact owned
  | adopt k' d =>
    dsimp only [Machine.perform] at step
    split at step
    · obtain ⟨_, step⟩ := Option.ite_none_right_eq_some.mp step
      obtain ⟨T, _, rfl⟩ := Option.map_eq_some_iff.mp step
      exact given _ _ _ (given _ _ _ owned)
    · exact nomatch step
  | ready =>
    obtain ⟨_, step⟩ := Option.ite_none_right_eq_some.mp step
    obtain ⟨T, _, rfl⟩ := Option.map_eq_some_iff.mp step
    exact owned

/-- Nothing else frees a page. -/
theorem step_frees {e : Event C} (step : s.Step e t) (owned : s.owner y ≠ none) (freed : t.owner y = none) :
    ∃ c k, (s.cpu c).stack = some k ∧ s.Frees k y := by
  have happens : s.next e = some t := step
  cases e with
  | move c =>
    dsimp only [Machine.next, Machine.move] at happens
    split at happens
    · rw [schedule_owner happens] at freed
      exact absurd freed owned
    · rename_i k on
      exact ⟨c, k, on, resume_frees happens owned freed⟩
  | call c op =>
    dsimp only [Machine.next, Machine.call] at happens
    split at happens
    · split at happens
      · exact absurd freed (perform_owner happens owned)
      · obtain ⟨_, step⟩ := Option.ite_none_right_eq_some.mp happens
        obtain ⟨_, same⟩ := Option.ite_none_right_eq_some.mp step
        cases same
        exact absurd freed owned
      · exact nomatch happens
    · exact nomatch happens
  | wakeup chan =>
    obtain ⟨_, same⟩ := Option.ite_none_right_eq_some.mp happens
    cases same
    exact absurd freed owned
  | kill pid =>
    obtain ⟨_, same⟩ := Option.ite_none_right_eq_some.mp happens
    cases same
    exact absurd freed owned

end Freed

/-- A page that is about to be freed is not in use. -/
theorem Inv.frees {y : Page} (inv : Inv s) (on : (s.cpu c).stack = some k) (frees : s.Frees k y) :
    (s.cpu c').stack ≠ some y ∧ (s.cpu c').cr3 ≠ some y := by
  obtain ⟨p, d, cr3, thread⟩ := inv.thread on
  rcases frees with ⟨q, z, next, theirs⟩ | next
  · have zombie := (thread.runs.target q z next).1
    obtain ⟨kz, dz, corpse⟩ := inv.body z (.inl (by unfold Grown; rw [zombie]; exact ⟨nofun, nofun⟩))
    rcases theirs with stack | dir
    · cases stack.symm.trans corpse.kstack
      exact inv.reaping on next corpse.stack
    · cases dir.symm.trans corpse.pgdir
      exact inv.reaping on next corpse.dir
  · have owns : s.owner y = some (p, .old) := thread.body.old y (by rw [next]; rfl)
    rw [← not_or]
    intro used
    obtain ⟨q, u, current, owner⟩ := inv.in_use used
    cases owns.symm.trans owner
    obtain rfl := inv.single c' c p current thread.current
    -- `exec` has loaded the new directory on its own processor.
    rcases used with here | loaded
    · cases on.symm.trans here
      exact nomatch owns.symm.trans thread.body.stack
    · rw [thread.here] at loaded
      rcases thread.runs.cr3 with same | ⟨o, may, _⟩
      · cases loaded.symm.trans (same.trans thread.body.pgdir)
        exact nomatch owns.symm.trans thread.body.dir
      · rw [next] at may
        exact nomatch may

end Process

/-- Any number of processors run the scheduler and processes that yield, sleep, exit, wait,
fork and `exec`. Whenever `ptable.lock` is free, the running processes are those that one
processor has as its own. No process is on two processors, and a stack or a directory is
freed only when no processor is on it or has it loaded, by `wait` in particular. -/
theorem cpus_exclusive {C : Type} [DecidableEq C] {s : Machine C} {es : List (Event C)}
    (run : Run Machine.Step .boot es s) :
    (s.lock = none → ∀ p, (s.table.entry p).state = .RUNNING ↔ ∃! c, (s.cpu c).proc = some p) ∧
    (∀ c c' p, (s.cpu c).proc = some p → (s.cpu c').proc = some p → c = c') ∧
    (∀ c k p z, (s.cpu c).stack = some k → s.frame k = .reaping p z →
      (s.table.entry z).state = .ZOMBIE ∧ ∀ c' y, (s.res z).kstack = some y ∨ (s.res z).pgdir = some y →
        (s.cpu c').stack ≠ some y ∧ (s.cpu c').cr3 ≠ some y) ∧
    ∀ e t y, s.Step e t → s.owner y ≠ none → t.owner y = none →
      ∀ c, (s.cpu c).stack ≠ some y ∧ (s.cpu c).cr3 ≠ some y := by
  have inv := inv_run run
  refine ⟨fun free p => ⟨fun running => ?_, ?_⟩, inv.single, ?_, ?_⟩
  · obtain ⟨c, current⟩ := inv.running p running
    exact ⟨c, current, fun c' theirs => inv.single c' c p theirs current⟩
  · rintro ⟨c, current, _⟩
    exact (inv.at_ c).running (by rw [free]; nofun) current
  · intro c k p z on next
    obtain ⟨q, d, cr3, thread⟩ := inv.thread on
    exact ⟨(thread.runs.target p z next).1, fun c' y theirs => inv.frees on (.inl ⟨p, z, next, theirs⟩)⟩
  · intro e t y step owned freed c
    obtain ⟨c', k, on, frees⟩ := step_frees step owned freed
    exact inv.frees on frees

/-- The first process makes a child and waits for it, on one processor. The child exits on
the other one, whose scheduler then goes through the rest of the table. -/
def reapOnTwo : List (Event Bool) :=
  List.replicate 6 (.move false) ++ [.call false .fork, .call false (.adopt 2 3), .call false .ready] ++
    List.replicate 7 (.move true) ++ .call true .exit :: List.replicate 67 (.move true) ++
      [.call false .wait, .move false]

theorem stack_unused_when_freed : ∃ s, Run Machine.Step .boot reapOnTwo s ∧ (s.cpu false).stack = some 0 ∧
    s.frame 0 = .reaping 0 1 ∧ (s.res 1).kstack = some 2 ∧ ∀ c, (s.cpu c).stack ≠ some 2 := by
  obtain ⟨s, run, ended⟩ := Run.of_any (fun s e t (next : s.next e = some t) => (next : s.Step e t))
    (q := fun s : Machine Bool => decide ((s.cpu false).stack = some 0 ∧ s.frame 0 = .reaping 0 1 ∧
      (s.res 1).kstack = some 2))
    (show (reapOnTwo.foldlM Machine.next Machine.boot).any _ = true by decide +kernel)
  obtain ⟨on, next, kstack⟩ := of_decide_eq_true ended
  refine ⟨s, run, on, next, kstack, fun c => ?_⟩
  exact (((cpus_exclusive run).2.2.1 false 0 0 1 on next).2 c 2 (.inl kstack)).1

/-- The checks in `sched` and `switchuvm` never fail. -/
theorem no_panic {C : Type} [DecidableEq C] {s : Machine C} {es : List (Event C)}
    (run : Run Machine.Step .boot es s) (c : C) :
    (∀ k p after, (s.cpu c).stack = some k → s.frame k = .sched p after → s.schedOk c p = true) ∧
    ∀ p, (s.cpu c).proc = some p → (s.res p).kstack ≠ none ∧ (s.res p).pgdir ≠ none := by
  have inv := inv_run run
  constructor
  · intro k p after on next
    obtain ⟨q, d, cr3, thread⟩ := inv.thread on
    have fits := thread.body.fits
    rw [next] at fits
    obtain ⟨rfl, _⟩ := fits
    have state : (s.table.entry p).state = after.state := thread.state next
    have stopped : (s.table.entry p).state ≠ .RUNNING := by
      rw [state]
      cases after <;> nofun
    exact decide_eq_true ⟨thread.locked next rfl, stopped⟩
  · intro p current
    obtain ⟨k, d, body⟩ := inv.body p (.inl ((inv.at_ c).grown current))
    rw [body.kstack, body.pgdir]
    exact ⟨nofun, nofun⟩

/-- Whoever has `ptable.lock` can make the next step, and does not panic in `sched`. -/
theorem lock_holder_moves {C : Type} [DecidableEq C] {s : Machine C} {es : List (Event C)}
    (run : Run Machine.Step .boot es s) {c : C} (holds : s.lock = some c) : ∃ t, s.Step (.move c) t := by
  have safe := (no_panic run c).1
  have at_ := (inv_run run).at_ c
  simp only [Machine.Step, Machine.next, Machine.move, ← Option.isSome_iff_exists]
  generalize here : s.cpu c = x at at_ safe
  cases at_ with
  | idle free => exact absurd holds free
  | away p k cr3 _ runs =>
    have locked := runs.lock.mp holds
    have live := runs.live
    simp only [Machine.resume, here]
    cases next : s.frame k with
    | free => simp [next, Pc.locked] at locked
    | sched q after => simp [safe k q after rfl next, Machine.swtch, here]
    | resumed after => cases after <;> simp_all [Machine.goOn]
    | _ => rfl
  | _ => simp [Machine.schedule, here, apply_ite Option.isSome, apply_dite Option.isSome]

theorem reaper_moves : ∃ s, Run Machine.Step .boot reapOnTwo s ∧ ∃ t, s.Step (.move false) t := by
  obtain ⟨s, run, holds⟩ := Run.of_any (fun s e t (next : s.next e = some t) => (next : s.Step e t))
    (q := fun s : Machine Bool => decide (s.lock = some false))
    (show (reapOnTwo.foldlM Machine.next Machine.boot).any _ = true by decide +kernel)
  exact ⟨s, run, lock_holder_moves run (of_decide_eq_true holds)⟩

end Xv6.Cpus
