import Xv6.ProcTree

/-! The life of a process: it has a pid of its own from `allocproc` on, it stays in the
table after `exit` until its parent takes it out, and `wait` returns its pid once. Then
whom `kill` hits, which depends on what is left in the slots that are not in use. -/
namespace Xv6.ProcTable
open Transition
open Function (update_of_ne update_self)

variable {s t : Table} {i p z : Fin NPROC} {e : Event} {es : List Event}

section Pids

/-- Every step but those of `fork` and `wait` that make or bury a process. -/
structure Numbered (s t : Table) : Prop where
  nextpid : t.nextpid = s.nextpid
  forks : t.forks = s.forks
  reaped : t.reaped = s.reaped
  pid : ∀ i, (t.entry i).pid = (s.entry i).pid
  used : ∀ i, (t.entry i).state ≠ .UNUSED → (s.entry i).state ≠ .UNUSED

theorem Numbered.refl (s : Table) : Numbered s s := ⟨rfl, rfl, rfl, fun _ => rfl, fun _ => id⟩

theorem Numbered.trans {u : Table} (first : Numbered s t) (second : Numbered t u) : Numbered s u where
  nextpid := second.nextpid.trans first.nextpid
  forks := second.forks.trans first.forks
  reaped := second.reaped.trans first.reaped
  pid := fun i => (second.pid i).trans (first.pid i)
  used := fun i used => first.used i (second.used i used)

theorem Numbered.of_set {f : Entry → Entry} (pid : (f (s.entry i)).pid = (s.entry i).pid)
    (used : (f (s.entry i)).state ≠ .UNUSED → (s.entry i).state ≠ .UNUSED) : Numbered s (s.set i f) where
  nextpid := rfl
  forks := rfl
  reaped := rfl
  pid := by
    intro j
    by_cases same : j = i
    · subst same
      simpa using pid
    · simp [same]
  used := by
    intro j
    by_cases same : j = i
    · subst same
      simpa using used
    · simp [same]

theorem Numbered.goto (numbered : Numbered s t) (i : Fin NPROC) (pc : Pc) : Numbered s (t.goto i pc) :=
  ⟨numbered.nextpid, numbered.forks, numbered.reaped, numbered.pid, numbered.used⟩

theorem wakeup1_numbered (s : Table) (c : Option Chan) : Numbered s (s.wakeup1 c) where
  nextpid := rfl
  forks := rfl
  reaped := rfl
  pid := s.wakeup1_pid c
  used := by
    intro i
    rw [Table.wakeup1_state]
    split_ifs with woken
    · rw [woken.1]
      exact fun _ => nofun
    · exact id

theorem exit_numbered (running : (s.entry i).state = .RUNNING) : Numbered s (s.exit i) := by
  constructor
  iterate 3
    unfold Table.exit
    cases s.hasZombie i <;> rfl
  · exact fun j => (exit_entry s i j).pid
  · intro j
    by_cases self : j = i
    · subst self
      rw [running]
      exact fun _ => nofun
    · by_cases woken : WokenBy s i j
      · rw [woken.1]
        exact fun _ => nofun
      · rw [(exit_entry s i j).still self woken]
        exact id

theorem kill_numbered (s : Table) (pid : UInt32) : Numbered s (s.kill pid) := by
  unfold Table.kill
  cases s.target pid with
  | none => exact .refl s
  | some p =>
    have marked := Numbered.of_set (s := s) (i := p)
      (f := fun e => { e with killed := true, state := if e.state = .SLEEPING then .RUNNABLE else e.state })
      rfl ?_
    · exact ⟨marked.nextpid, marked.forks, marked.reaped, marked.pid, marked.used⟩
    · by_cases sleeping : (s.entry p).state = .SLEEPING <;> simp [sleeping]

theorem run_numbered (ready : (s.entry i).state = .RUNNABLE) : Numbered s (s.run i) :=
  .of_set rfl (fun _ => by rw [ready]; nofun)

/-- A step keeps everyone's pid, makes a process or buries one. -/
inductive Counts (s : Table) : Event → Table → Prop where
  | keep {e : Event} {t : Table} : Numbered s t → Counts s e t
  | fork {i np : Fin NPROC} {t : Table} : s.allocproc = some (np, t) →
      Counts s (.fork i) (t.goto i (.embryo np))
  | reap {e : Event} {i p : Fin NPROC} {t : Table} : (e = .wait i ∨ e = .resume i) → Numbered s t →
      t.entry p = s.entry p → (s.entry p).parent = some i → (s.entry p).state = .ZOMBIE →
      Counts s e ((t.reap i p).goto i .idle)

theorem scan_counts {u : Table} (numbered : Numbered s u) (running : (u.entry i).state = .RUNNING)
    (others : ∀ j, j ≠ i → u.entry j = s.entry j) (call : e = .wait i ∨ e = .resume i)
    (scans : Scans u i t) : Counts s e t := by
  cases scans with
  | @reap p child zombie =>
    have same : u.entry p = s.entry p := by
      apply others
      rintro rfl
      exact nomatch running.symm.trans zombie
    exact .reap call numbered same (same ▸ child) (same ▸ zombie)
  | leave => exact .keep (numbered.goto i .idle)
  | doze =>
    have sleeps := Numbered.of_set (s := u) (i := i)
      (f := fun e => { e with chan := some (.proc i), state := .SLEEPING }) rfl fun _ => by rw [running]; nofun
    exact .keep ((numbered.trans sleeps).goto i .waiting)

theorem counts_step (tree : Tree s) (step : s.Step e t) : Counts s e t := by
  cases happens_of_step step with
  | full => exact .keep (.refl s)
  | fork running found => exact .fork found
  | fail => exact .keep (.goto (.of_set rfl fun used => absurd rfl used) _ _)
  | adopt => exact .keep (.goto (.of_set rfl id) _ _)
  | @ready i np running =>
    have embryo := tree.child i np (by rw [running.2]; rfl)
    exact .keep (.goto (.of_set rfl fun _ => by rw [embryo]; rintro ⟨⟩) _ _)
  | exit running => exact .keep (exit_numbered running.1)
  | @wait i running => exact scan_counts (.refl s) running.1 (fun _ _ => rfl) (.inl rfl) (scan_cases s i)
  | @resume i ready =>
    exact scan_counts (run_numbered ready) (by simp [Table.run])
      (fun j other => update_of_ne other _ _) (.inr rfl) (scan_cases _ i)
  | kill => exact .keep (kill_numbered s _)
  | schedule ready => exact .keep (run_numbered ready)
  | yield running => exact .keep (.of_set rfl fun _ => by rw [running]; rintro ⟨⟩)
  | sleep running => exact .keep (.of_set rfl fun _ => by rw [running]; rintro ⟨⟩)
  | wakeup => exact .keep (wakeup1_numbered s _)

theorem forks_step (counts : Counts s e t) : s.forks ≤ t.forks := by
  cases counts with
  | keep numbered => exact numbered.forks.ge
  | fork found =>
    obtain ⟨_, rfl⟩ := allocproc_some found
    exact Nat.le_succ _
  | reap _ numbered => exact numbered.forks.ge

/-- Pids come from the counter. Whoever is in the table has one of its own, and so had
whoever was reaped. -/
structure Pids (s : Table) : Prop where
  next : s.nextpid.toNat = s.forks + 2
  live : ∀ i, (s.entry i).state ≠ .UNUSED → (s.entry i).pid.toNat < s.forks + 2
  distinct : ∀ i j, (s.entry i).state ≠ .UNUSED → (s.entry j).state ≠ .UNUSED →
    (s.entry i).pid = (s.entry j).pid → i = j
  past : ∀ r ∈ s.reaped, r.2.toNat < s.forks + 2
  buried : ∀ r ∈ s.reaped, ∀ i, (s.entry i).state ≠ .UNUSED → (s.entry i).pid ≠ r.2
  once : (s.reaped.map Prod.snd).Nodup

theorem pids_boot : Pids .boot where
  next := rfl
  live := by
    intro i used
    rcases (boot_entry i).2.1 with unused | rfl
    · exact absurd unused used
    · decide
  distinct := by
    intro i j first second _
    have only := fun k used => (boot_entry k).2.1.resolve_left used
    rw [only i first, only j second]
  past := nofun
  buried := nofun
  once := .nil

theorem Pids.keep (pids : Pids s) (numbered : Numbered s t) : Pids t where
  next := by rw [numbered.nextpid, numbered.forks, pids.next]
  live := by
    intro i used
    rw [numbered.pid, numbered.forks]
    exact pids.live i (numbered.used i used)
  distinct := by
    intro i j first second
    rw [numbered.pid, numbered.pid]
    exact pids.distinct i j (numbered.used i first) (numbered.used j second)
  past := by
    rw [numbered.reaped, numbered.forks]
    exact pids.past
  buried := by
    intro r past i used
    rw [numbered.reaped] at past
    rw [numbered.pid]
    exact pids.buried r past i (numbered.used i used)
  once := by
    rw [numbered.reaped]
    exact pids.once

/-- The counter has not come round yet, so the new pid is above all others. -/
theorem Pids.fork (pids : Pids s) (bounded : s.forks + 1 < 2 ^ 31) (found : s.allocproc = some (p, t)) :
    Pids t := by
  obtain ⟨unused, rfl⟩ := allocproc_some found
  have next := pids.next
  have fresh : ∀ pid : UInt32, pid.toNat < s.forks + 2 → s.nextpid ≠ pid := by
    rintro pid below rfl
    omega
  constructor
  · have room : s.nextpid.toNat + 1 < 2 ^ 32 := by omega
    simp only [UInt32.toNat_add, UInt32.toNat_one, Nat.mod_eq_of_lt room]
    omega
  · intro j used
    by_cases same : j = p
    · subst same
      simp only [Table.set_apply, if_true]
      omega
    · simp only [Table.set_apply, same, if_false] at used ⊢
      have below := pids.live j used
      omega
  · intro j k first second alike
    by_cases left : j = p <;> by_cases right : k = p
    · rw [left, right]
    · simp only [Table.set_apply, left, right, if_true, if_false] at second alike
      exact absurd alike (fresh _ (pids.live k second))
    · simp only [Table.set_apply, left, right, if_true, if_false] at first alike
      exact absurd alike.symm (fresh _ (pids.live j first))
    · simp only [Table.set_apply, left, right, if_false] at first second alike
      exact pids.distinct j k first second alike
  · intro r past
    have below := pids.past r past
    exact below.trans (by simp)
  · intro r past j used
    by_cases same : j = p
    · subst same
      simp only [Table.set_apply, if_true]
      exact fresh _ (pids.past r past)
    · simp only [Table.set_apply, same, if_false] at used ⊢
      exact pids.buried r past j used
  · exact pids.once

theorem Pids.reap (pids : Pids s) (zombie : (s.entry p).state = .ZOMBIE) : Pids (s.reap i p) := by
  have exists_ : (s.entry p).state ≠ .UNUSED := by
    rw [zombie]
    nofun
  have other : ∀ j, ((s.reap i p).entry j).state ≠ .UNUSED → j ≠ p := by
    rintro j used rfl
    exact used (by simp [Table.reap])
  constructor
  · exact pids.next
  · intro j used
    have differ := other j used
    rw [reap_entry s i differ] at used ⊢
    exact pids.live j used
  · intro j k first second
    have left := other j first
    have right := other k second
    rw [reap_entry s i left] at first ⊢
    rw [reap_entry s i right] at second ⊢
    exact pids.distinct j k first second
  · intro r past
    rcases List.mem_append.mp past with old | new
    · exact pids.past r old
    · cases List.mem_singleton.mp new
      exact pids.live p exists_
  · intro r past j used
    have differ := other j used
    rw [reap_entry s i differ] at used ⊢
    rcases List.mem_append.mp past with old | new
    · exact pids.buried r old j used
    · cases List.mem_singleton.mp new
      exact fun same => differ (pids.distinct j p used exists_ same)
  · change ((s.reaped ++ [(i, (s.entry p).pid)]).map Prod.snd).Nodup
    rw [List.map_append, List.nodup_append]
    refine ⟨pids.once, List.nodup_singleton _, ?_⟩
    rintro pid old _ new rfl
    obtain ⟨r, past, rfl⟩ := List.mem_map.mp old
    exact pids.buried r past p exists_ (List.mem_singleton.mp new).symm

theorem Pids.step (pids : Pids s) (counts : Counts s e t) (bounded : t.forks < 2 ^ 31) : Pids t := by
  cases counts with
  | keep numbered => exact pids.keep numbered
  | @fork i np t found =>
    have next : t.forks = s.forks + 1 := by rw [(allocproc_some found).2]
    have made := pids.fork (next ▸ bounded) found
    exact made.keep ((Numbered.refl t).goto i _)
  | @reap _ i p _ _ numbered same _ zombie =>
    have gone := (pids.keep numbered).reap (i := i) (same ▸ zombie)
    exact gone.keep ((Numbered.refl _).goto i .idle)

theorem pids_run (run : Run Table.Step .boot es s) : s.forks < 2 ^ 31 → Pids s := by
  refine (run.kept (P := fun s => Tree s ∧ (s.forks < 2 ^ 31 → Pids s)) ?_ ⟨tree_boot, fun _ => pids_boot⟩).2
  rintro s e t step ⟨tree, counted⟩
  have counts := counts_step tree step
  refine ⟨tree.step step, fun bounded => ?_⟩
  exact (counted ((forks_step counts).trans_lt bounded)).step counts bounded

end Pids

section Zombies

/-- An exited process stays as it is, except that the first process inherits it when its
parent exits. -/
def Remains (s : Table) (e : Event) (t : Table) (z : Fin NPROC) : Prop :=
  (t.entry z).state = .ZOMBIE ∧ (t.entry z).pid = (s.entry z).pid ∧
    ((t.entry z).parent = (s.entry z).parent ∨
      ∃ p, e = .exit p ∧ (s.entry z).parent = some p ∧ (t.entry z).parent = some initproc)

/-- Its parent takes it out of the table: `wait` returns its pid. -/
def Reaps (s : Table) (t : Table) (i z : Fin NPROC) : Prop :=
  (s.entry z).parent = some i ∧ (t.entry z).state = .UNUSED ∧
    t.reaped = s.reaped ++ [(i, (s.entry z).pid)]

theorem Remains.of_same (same : t.entry z = s.entry z) (zombie : (s.entry z).state = .ZOMBIE) :
    Remains s e t z := by
  unfold Remains
  rw [same]
  exact ⟨zombie, rfl, .inl rfl⟩

theorem Remains.of_shuffled (shuffled : Shuffled s t) (numbered : Numbered s t)
    (zombie : (s.entry z).state = .ZOMBIE) : Remains s e t z :=
  ⟨(shuffled.still rfl z).mpr zombie, numbered.pid z, .inl (shuffled.parent z)⟩

/-- Another slot is changed. -/
theorem Remains.of_others (others : ∀ j, j ≠ p → t.entry j = s.entry j) (alive : (s.entry p).state ≠ .ZOMBIE)
    (zombie : (s.entry z).state = .ZOMBIE) : Remains s e t z := by
  refine .of_same (others z ?_) zombie
  rintro rfl
  exact alive zombie

theorem Remains.of_exit (running : (s.entry i).state = .RUNNING) (zombie : (s.entry z).state = .ZOMBIE) :
    Remains s (.exit i) (s.exit i) z := by
  have other : z ≠ i := by
    rintro rfl
    exact nomatch running.symm.trans zombie
  have left := exit_entry s i z
  have asleep : ¬ WokenBy s i z := fun woken => nomatch woken.1.symm.trans zombie
  refine ⟨(left.still other asleep).trans zombie, left.pid, ?_⟩
  rw [left.parent]
  split_ifs with mine
  · exact .inr ⟨i, rfl, mine, rfl⟩
  · exact .inl rfl

theorem scan_zombie (running : (s.entry i).state = .RUNNING) (scans : Scans s i t)
    (zombie : (s.entry z).state = .ZOMBIE) : t.entry z = s.entry z ∨ Reaps s t i z := by
  have other : z ≠ i := by
    rintro rfl
    exact nomatch running.symm.trans zombie
  cases scans with
  | @reap p child _ =>
    by_cases same : z = p
    · subst same
      exact .inr ⟨child, by simp [Table.goto, Table.reap], rfl⟩
    · exact .inl (reap_entry s i same)
  | leave => exact .inl rfl
  | doze => exact .inl (update_of_ne other _ _)

/-- What a step does to an exited process. -/
theorem zombie_step (tree : Tree s) (step : s.Step e t) (zombie : (s.entry z).state = .ZOMBIE) :
    Remains s e t z ∨ ∃ i, (e = .wait i ∨ e = .resume i) ∧ Reaps s t i z := by
  have embryo : ∀ i np, (s.pc i).child = some np → (s.entry np).state ≠ .ZOMBIE := by
    intro i np filling
    rw [tree.child i np filling]
    rintro ⟨⟩
  cases happens_of_step step with
  | full => exact .inl (.of_same rfl zombie)
  | fork running found =>
    obtain ⟨unused, rfl⟩ := allocproc_some found
    exact .inl (.of_others (fun _ other => update_of_ne other _ _) (by rw [unused]; rintro ⟨⟩) zombie)
  | fail running | adopt running | ready running =>
    exact .inl (.of_others (fun _ other => update_of_ne other _ _)
      (embryo _ _ (by rw [running.2]; rfl)) zombie)
  | exit running => exact .inl (.of_exit running.1 zombie)
  | @wait i running =>
    rcases scan_zombie running.1 (scan_cases s i) zombie with same | reaps
    · exact .inl (.of_same same zombie)
    · exact .inr ⟨i, .inl rfl, reaps⟩
  | @resume i ready =>
    have same : (s.run i).entry z = s.entry z := by
      apply update_of_ne
      rintro rfl
      cases ready.symm.trans zombie
    have ran := scan_zombie (z := z) (by simp [Table.run]) (scan_cases (s.run i) i) (same ▸ zombie)
    rw [Reaps, same] at ran
    rcases ran with kept | reaps
    · exact .inl (.of_same kept zombie)
    · exact .inr ⟨i, .inr rfl, reaps⟩
  | kill => exact .inl (.of_shuffled (kill_shuffled s _) (kill_numbered s _) zombie)
  | schedule ready => exact .inl (.of_shuffled (run_shuffled ready) (run_numbered ready) zombie)
  | yield running | sleep running =>
    exact .inl (.of_others (fun _ other => update_of_ne other _ _) (by rw [running]; rintro ⟨⟩) zombie)
  | wakeup => exact .inl (.of_shuffled (wakeup1_shuffled s _) (wakeup1_numbered s _) zombie)

/-- `wait` returns the pid of an exited child of the caller, and nothing else. -/
theorem reaped_step (counts : Counts s e t) : t.reaped = s.reaped ∨
    ∃ i z, (e = .wait i ∨ e = .resume i) ∧ (s.entry z).state = .ZOMBIE ∧ Reaps s t i z := by
  cases counts with
  | keep numbered => exact .inl numbered.reaped
  | fork found =>
    obtain ⟨_, rfl⟩ := allocproc_some found
    exact .inl rfl
  | @reap _ i p t call numbered same child zombie =>
    refine .inr ⟨i, p, call, zombie, child, by simp [Table.goto, Table.reap], ?_⟩
    change t.reaped ++ [(i, (t.entry p).pid)] = _
    rw [numbered.reaped, same]

end Zombies

/-- Any number of processes fork, exit, wait and kill each other, with fewer than `2 ^ 31`
forks. Then pids are unique, parents are alive, an exited process stays until its parent
of that time reaps it, and no pid is returned by `wait` twice. -/
theorem process_tree (run : Run Table.Step .boot es s) (bounded : s.forks < 2 ^ 31) :
    (∀ i j, (s.entry i).state ≠ .UNUSED → (s.entry j).state ≠ .UNUSED →
      (s.entry i).pid = (s.entry j).pid → i = j) ∧
    (∀ i p, (s.entry i).state ≠ .UNUSED → (s.entry i).parent = some p →
      (s.entry p).state ≠ .UNUSED ∧ (s.entry p).state ≠ .ZOMBIE) ∧
    (∀ i, (s.entry i).state ≠ .UNUSED → (s.entry i).state ≠ .EMBRYO → i ≠ initproc →
      ∃ p, (s.entry i).parent = some p) ∧
    (s.reaped.map Prod.snd).Nodup ∧
    ∀ e t, s.Step e t →
      (∀ z, e = .exit z → (t.entry z).state = .ZOMBIE) ∧
      (∀ z, (s.entry z).state = .ZOMBIE →
        Remains s e t z ∨ ∃ i, (e = .wait i ∨ e = .resume i) ∧ Reaps s t i z) ∧
      (t.reaped = s.reaped ∨
        ∃ i z, (e = .wait i ∨ e = .resume i) ∧ (s.entry z).state = .ZOMBIE ∧ Reaps s t i z) := by
  have tree := tree_run run
  have pids := pids_run run bounded
  refine ⟨pids.distinct, ?_, ?_, pids.once, fun e t step => ⟨?_, fun z => zombie_step tree step, reaped_step (counts_step tree step)⟩⟩
  · intro i p _ child
    have runs := (tree.parent i p child).1
    constructor <;> (intro dead; rw [dead] at runs; exact nomatch runs)
  · exact fun i used born other => Option.ne_none_iff_exists'.mp (tree.grown i used born other)
  · rintro z rfl
    cases happens_of_step step with
    | exit => exact (exit_entry s z z).self rfl

/-- The first process makes a child, which exits, and waits for it. -/
def forkAndReap : List Event :=
  [.schedule 0, .fork 0, .adopt 0, .ready 0, .wait 0, .schedule 1, .exit 1, .resume 0]

theorem child_reaped_once : ∃ s, Run Table.Step .boot forkAndReap s ∧ s.forks = 1 ∧ s.reaped = [(0, 2)] ∧
    (s.reaped.map Prod.snd).Nodup := by
  obtain ⟨s, run, ended⟩ := run_of_any (q := fun s => decide (s.forks = 1 ∧ s.reaped = [(0, 2)]))
    (show (forkAndReap.foldlM Table.next Table.boot).any _ = true by decide +kernel)
  obtain ⟨forks, reaped⟩ := of_decide_eq_true ended
  exact ⟨s, run, forks, reaped, (process_tree run (by rw [forks]; decide)).2.2.2.1⟩

section Kill

/-- Whoever is marked as killed was named by a `kill` since it exists, and no slot is
marked that is not in use. -/
def Clean (s : Table) : Prop :=
  ∀ i, (s.entry i).killed = true → (s.entry i).state ≠ .UNUSED ∧ s.named i = true

/-- A `kill` that finds its pid in a slot that is not in use, or a `fork` that fails and
gives back a slot that has been marked. -/
def misdirected (s : Table) : Event → Bool
  | .kill _ pid => (s.target pid).any fun p => (s.entry p).state = .UNUSED
  | .fail i =>
    match s.pc i with
    | .embryo np => (s.entry np).killed
    | _ => false
  | _ => false

/-- What a step promises about `kill`: marks only on processes that were named, none on a
new process, and a result of `0` only for the pid of a process. -/
structure KillsRight (s : Table) (e : Event) (t : Table) : Prop where
  clean : Clean t
  fork : ∀ i np, e = .fork i → t.pc i = .embryo np → (t.entry np).killed = false
  found : ∀ i pid, e = .kill i pid → s.target pid ≠ none →
    ∃ p, (s.entry p).state ≠ .UNUSED ∧ (s.entry p).pid = pid

/-- Marks and names stay, and marked slots stay in use. -/
structure Spared (s t : Table) : Prop where
  named : t.named = s.named
  killed : ∀ i, (t.entry i).killed = true → (s.entry i).killed = true
  used : ∀ i, (t.entry i).killed = true → (s.entry i).state ≠ .UNUSED → (t.entry i).state ≠ .UNUSED

theorem Clean.spare (clean : Clean s) (spared : Spared s t) : Clean t := by
  intro i killed
  obtain ⟨used, named⟩ := clean i (spared.killed i killed)
  exact ⟨spared.used i killed used, by rw [spared.named, named]⟩

theorem clean_boot : Clean .boot := by
  intro i killed
  by_cases first : i = initproc
  · subst first
    exact nomatch killed
  · simp [Table.boot, first] at killed

theorem Spared.of_set {f : Entry → Entry} (killed : (f (s.entry i)).killed = true → (s.entry i).killed = true)
    (used : (f (s.entry i)).killed = true → (s.entry i).state ≠ .UNUSED → (f (s.entry i)).state ≠ .UNUSED) :
    Spared s (s.set i f) where
  named := rfl
  killed := by
    intro j
    by_cases same : j = i
    · subst same
      simpa using killed
    · simp [same]
  used := by
    intro j
    by_cases same : j = i
    · subst same
      simpa using used
    · simp [same]

theorem Spared.goto (spared : Spared s t) (i : Fin NPROC) (pc : Pc) : Spared s (t.goto i pc) :=
  ⟨spared.named, spared.killed, spared.used⟩

theorem wakeup1_spared (s : Table) (c : Option Chan) : Spared s (s.wakeup1 c) where
  named := rfl
  killed := by
    intro i
    rw [Table.wakeup1_killed]
    exact id
  used := by
    intro i _ used
    rw [Table.wakeup1_state]
    split_ifs
    · nofun
    · exact used

theorem exit_spared (s : Table) (i : Fin NPROC) : Spared s (s.exit i) := by
  constructor
  · unfold Table.exit
    cases s.hasZombie i <;> rfl
  · intro j
    rw [(exit_entry s i j).killed]
    exact id
  · intro j _ used
    by_cases self : j = i
    · rw [(exit_entry s i j).self self]
      nofun
    · by_cases woken : WokenBy s i j
      · rw [(exit_entry s i j).woken self woken]
        nofun
      · rw [(exit_entry s i j).still self woken]
        exact used

theorem Clean.scan (clean : Clean s) (scans : Scans s i t) : Clean t := by
  cases scans with
  | @reap p =>
    have reaped := Spared.of_set (s := s) (i := p)
      (f := fun e => { e with state := .UNUSED, pid := 0, parent := none, killed := false }) nofun nofun
    exact clean.spare ⟨reaped.named, reaped.killed, reaped.used⟩
  | leave => exact clean
  | doze => exact clean.spare (.goto (.of_set id (by simp)) _ _)

theorem Clean.fork (clean : Clean s) (found : s.allocproc = some (p, t)) :
    Clean t ∧ (t.entry p).killed = false := by
  obtain ⟨unused, rfl⟩ := allocproc_some found
  have spared : (s.entry p).killed = false := Bool.eq_false_of_not_eq_true fun killed => (clean p killed).1 unused
  refine ⟨fun j killed => ?_, by simpa using spared⟩
  by_cases same : j = p
  · subst same
    rw [Table.set_apply, if_pos rfl] at killed
    exact nomatch killed.symm.trans spared
  · simp only [Table.set_apply, same, if_false, update_of_ne same] at killed ⊢
    exact clean j killed

theorem Clean.kill {pid : UInt32} (clean : Clean s) (found : s.target pid = some p)
    (used : (s.entry p).state ≠ .UNUSED) : Clean (s.kill pid) := by
  unfold Table.kill
  rw [found]
  intro j killed
  by_cases same : j = p
  · subst same
    simp only [Table.set_apply, if_true, used, if_false, update_self, and_true]
    split_ifs
    · nofun
    · exact used
  · simp only [Table.set_apply, same, used, if_false, update_of_ne same] at killed ⊢
    exact clean j killed

theorem clean_step (clean : Clean s) (step : s.Step e t) (fair : misdirected s e = false) : Clean t := by
  cases happens_of_step step with
  | full => exact clean
  | fork _ found => exact (clean.fork found).1
  | fail running =>
    simp only [misdirected, running.2] at fair
    exact clean.spare (.goto (.of_set id (by simp [fair])) _ _)
  | adopt => exact clean.spare (.goto (.of_set id fun _ => id) _ _)
  | ready => exact clean.spare (.goto (.of_set id (by simp)) _ _)
  | exit => exact clean.spare (exit_spared s _)
  | wait => exact clean.scan (scan_cases s _)
  | resume => exact (clean.spare (.of_set id (by simp))).scan (scan_cases _ _)
  | @kill _ pid =>
    cases found : s.target pid with
    | none =>
      unfold Table.kill
      rwa [found]
    | some p => exact clean.kill found (by simpa [misdirected, found] using fair)
  | schedule => exact clean.spare (.of_set id (by simp))
  | yield => exact clean.spare (.of_set id (by simp))
  | sleep => exact clean.spare (.of_set id (by simp))
  | wakeup => exact clean.spare (wakeup1_spared s _)

theorem misdirected_marks (step : s.Step e t) (unfair : misdirected s e = true) : ¬ Clean t := by
  intro clean
  cases happens_of_step step with
  | @fail i np running =>
    simp only [misdirected, running.2] at unfair
    exact (clean np (by simpa [Table.goto] using unfair)).1 (by simp [Table.goto])
  | @kill _ pid =>
    cases found : s.target pid with
    | none => simp [misdirected, found] at unfair
    | some p =>
      have unused : (s.entry p).state = .UNUSED := by simpa [misdirected, found] using unfair
      have marked := (clean p (by simp [Table.kill, found])).1
      simp [Table.kill, found, unused] at marked
  | full | fork | adopt | ready | exit | wait | resume | schedule | yield | sleep | wakeup => cases unfair

end Kill

/-- As long as no `kill` hits a slot that is not in use and no `fork` fails on a slot that
was marked, `kill` marks its target only. Any such event leaves a mark for a process that
does not exist yet. -/
theorem kill_hits_target (run : Run (restrict Table.Step fun s e => misdirected s e = false) .boot es s) :
    Clean s ∧ ∀ e t, s.Step e t → (KillsRight s e t ↔ misdirected s e = false) := by
  have clean : Clean s := run.kept (fun _ _ _ step clean => clean_step clean step.2 step.1) clean_boot
  refine ⟨clean, fun e t step => ⟨fun right => ?_, fun fair => ?_⟩⟩
  · exact Bool.eq_false_of_not_eq_true fun unfair => misdirected_marks step unfair right.clean
  · constructor
    · exact clean_step clean step fair
    · rintro i np rfl new
      cases happens_of_step step with
      | full running => exact nomatch running.2.symm.trans new
      | fork _ found =>
        rw [Table.goto_pc, if_pos rfl] at new
        cases new
        exact (clean.fork found).2
    · rintro i pid rfl hit
      obtain ⟨p, found⟩ := Option.ne_none_iff_exists'.mp hit
      refine ⟨p, by simpa [misdirected, found] using fair, by simpa using List.find?_some found⟩

/-- The first process makes a child and kills it. -/
def forkAndKill : List Event := [.schedule 0, .fork 0, .adopt 0, .ready 0, .kill 0 2]

theorem child_killed_by_name : ∃ s, Run (restrict Table.Step fun s e => misdirected s e = false) .boot forkAndKill s ∧
    (s.entry 1).killed = true ∧ s.named 1 = true := by
  obtain ⟨s, run, killed⟩ := Run.of_any (q := fun s : Table => (s.entry 1).killed)
    (fun s e t (next : (if misdirected s e then none else s.next e) = some t) =>
      (⟨by simpa using (Option.ite_none_left_eq_some.mp next).1, (Option.ite_none_left_eq_some.mp next).2⟩ :
        restrict Table.Step (fun s e => misdirected s e = false) s e t))
    (show (forkAndKill.foldlM (fun s e => if misdirected s e then none else s.next e) Table.boot).any _ = true by
      decide +kernel)
  exact ⟨s, run, killed, ((kill_hits_target run).1 1 killed).2⟩

/-- The pid of a slot that was never used is `0`. The next process gets the mark that
`kill(0)` leaves there. -/
def killNobody : List Event := [.schedule 0, .kill 0 0, .fork 0, .adopt 0, .ready 0]

theorem newborn_already_killed : ∃ s, Run Table.Step .boot killNobody s ∧ (s.entry 1).state = .RUNNABLE ∧
    (s.entry 1).pid = 2 ∧ (s.entry 1).killed = true ∧ s.named 1 = false := by
  obtain ⟨s, run, marked⟩ := run_of_any (q := fun s => decide ((s.entry 1).state = .RUNNABLE ∧
      (s.entry 1).pid = 2 ∧ (s.entry 1).killed = true ∧ s.named 1 = false))
    (show (killNobody.foldlM Table.next Table.boot).any _ = true by decide +kernel)
  exact ⟨s, run, of_decide_eq_true marked⟩

end Xv6.ProcTable
