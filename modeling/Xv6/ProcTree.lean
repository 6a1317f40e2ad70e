import Xv6.ProcTable

/-! The tree of processes: parents are alive, children are reaped by them, and no process
sleeps in `wait` without a living child. The events of the table fall into those that
only move processes between running and sleeping, and the few that make, pass on or
bury one. -/
namespace Xv6.ProcTable
open Transition

section Tree

/-- The process can run, now or later. -/
def active : ProcState → Bool
  | .SLEEPING | .RUNNABLE | .RUNNING => true
  | _ => false

/-- The slot that a process in `fork` is filling. -/
def Pc.child : Pc → Option (Fin NPROC)
  | .embryo np | .adopted np => some np
  | _ => none

/-- A process may sleep on slot `j`: it is its own, and a child of its own will wake it. -/
def Waits (s : Table) (i j : Fin NPROC) : Prop :=
  j = i ∧ (∃ c, (s.entry c).parent = some i) ∧
    (∀ c, (s.entry c).parent = some i → (s.entry c).state ≠ .ZOMBIE) ∧ (s.entry i).killed = false

structure Tree (s : Table) : Prop where
  init : active (s.entry initproc).state = true
  root : (s.entry initproc).parent = none
  parent : ∀ c p, (s.entry c).parent = some p →
    active (s.entry p).state = true ∧ (s.entry c).state ≠ .UNUSED ∧ c ≠ p
  grown : ∀ i, (s.entry i).state ≠ .UNUSED → (s.entry i).state ≠ .EMBRYO → i ≠ initproc →
    (s.entry i).parent ≠ none
  busy : ∀ i, s.pc i ≠ .idle → active (s.entry i).state = true
  child : ∀ i np, (s.pc i).child = some np → (s.entry np).state = .EMBRYO
  embryo : ∀ i np, s.pc i = .embryo np → (s.entry np).parent = none
  adopted : ∀ i np, s.pc i = .adopted np → (s.entry np).parent = some i
  single : ∀ i j np, (s.pc i).child = some np → (s.pc j).child = some np → i = j
  waits : ∀ i j, (s.entry i).state = .SLEEPING → (s.entry i).chan = some (.proc j) → Waits s i j

variable {s t : Table} {i p np : Fin NPROC}

theorem boot_entry (i : Fin NPROC) : (Table.boot.entry i).parent = none ∧
    ((Table.boot.entry i).state = .UNUSED ∨ i = initproc) ∧ (Table.boot.entry i).state ≠ .SLEEPING := by
  by_cases first : i = initproc
  · subst first
    exact ⟨rfl, .inr rfl, nofun⟩
  · simp [Table.boot, first]

theorem tree_boot : Tree Table.boot where
  init := rfl
  root := rfl
  parent := fun c p child => nomatch (boot_entry c).1.symm.trans child
  grown := by
    intro i used _ other
    rcases (boot_entry i).2.1 with unused | first
    · exact absurd unused used
    · exact absurd first other
  busy := fun i inside => absurd rfl inside
  child := nofun
  embryo := nofun
  adopted := nofun
  single := nofun
  waits := fun i j sleeping => absurd sleeping (boot_entry i).2.2

/-- Processes that can run change places, and enter or leave the sleep of `wait`. -/
structure Shuffled (s t : Table) : Prop where
  pc : ∀ i, t.pc i = s.pc i ∨
    (s.pc i).child = none ∧ (t.pc i).child = none ∧ active (s.entry i).state = true
  parent : ∀ i, (t.entry i).parent = (s.entry i).parent
  state : ∀ i, (t.entry i).state = (s.entry i).state ∨
    active (s.entry i).state = true ∧ active (t.entry i).state = true
  waits : ∀ i j, (t.entry i).state = .SLEEPING → (t.entry i).chan = some (.proc j) →
    ((s.entry i).state = .SLEEPING ∧ (s.entry i).chan = some (.proc j) ∨ Waits s i j) ∧
      (t.entry i).killed = (s.entry i).killed

theorem Shuffled.active (shuffled : Shuffled s t) (i : Fin NPROC) :
    active (t.entry i).state = active (s.entry i).state := by
  rcases shuffled.state i with same | ⟨before, after⟩
  · rw [same]
  · rw [before, after]

/-- Who cannot run stays as it is. -/
theorem Shuffled.still (shuffled : Shuffled s t) {state : ProcState} (passive : ProcTable.active state = false)
    (i : Fin NPROC) : (t.entry i).state = state ↔ (s.entry i).state = state := by
  rcases shuffled.state i with same | ⟨before, after⟩
  · rw [same]
  · constructor
    · intro now
      rw [now, passive] at after
      exact nomatch after
    · intro was
      rw [was, passive] at before
      exact nomatch before

theorem Shuffled.child (shuffled : Shuffled s t) {pc : Pc} (filling : pc.child ≠ none)
    (inside : t.pc i = pc) : s.pc i = pc := by
  rcases shuffled.pc i with same | ⟨_, none, _⟩
  · exact same.symm.trans inside
  · exact absurd (inside ▸ none) filling

theorem Tree.shuffle (tree : Tree s) (shuffled : Shuffled s t) : Tree t := by
  have still : ∀ i np, (t.pc i).child = some np → (s.pc i).child = some np := by
    intro i np filling
    rw [shuffled.child (by rw [filling]; nofun) rfl]
    exact filling
  constructor
  · rw [shuffled.active]
    exact tree.init
  · rw [shuffled.parent]
    exact tree.root
  · intro c p adopted
    rw [shuffled.parent] at adopted
    rw [shuffled.active, Ne, shuffled.still rfl]
    exact tree.parent c p adopted
  · intro i used born other
    rw [Ne, shuffled.still rfl] at used born
    rw [shuffled.parent]
    exact tree.grown i used born other
  · intro i inside
    rw [shuffled.active]
    rcases shuffled.pc i with same | ⟨_, _, runs⟩
    · exact tree.busy i (same ▸ inside)
    · exact runs
  · intro i np filling
    rw [shuffled.still rfl]
    exact tree.child i np (still i np filling)
  · intro i np filling
    rw [shuffled.parent]
    exact tree.embryo i np (shuffled.child nofun filling)
  · intro i np filling
    rw [shuffled.parent]
    exact tree.adopted i np (shuffled.child nofun filling)
  · exact fun i j np first second => tree.single i j np (still i np first) (still j np second)
  · intro i j sleeping chan
    obtain ⟨before, killed⟩ := shuffled.waits i j sleeping chan
    have waits : Waits s i j := by
      rcases before with ⟨slept, on⟩ | waits
      · exact tree.waits i j slept on
      · exact waits
    obtain ⟨same, ⟨c, child⟩, living, spared⟩ := waits
    refine ⟨same, ⟨c, by rw [shuffled.parent, child]⟩, ?_, by rw [killed, spared]⟩
    intro c child
    rw [shuffled.parent] at child
    rw [Ne, shuffled.still rfl]
    exact living c child

theorem Shuffled.of_set {f : Entry → Entry} (parent : (f (s.entry i)).parent = (s.entry i).parent)
    (state : (f (s.entry i)).state = (s.entry i).state ∨
      ProcTable.active (s.entry i).state = true ∧ ProcTable.active (f (s.entry i)).state = true)
    (awake : (f (s.entry i)).state = .SLEEPING → ∀ j, (f (s.entry i)).chan ≠ some (.proc j)) :
    Shuffled s (s.set i f) where
  pc := fun _ => .inl rfl
  parent := by
    intro j
    by_cases same : j = i
    · subst same
      simpa using parent
    · simp [same]
  state := by
    intro j
    by_cases same : j = i
    · subst same
      simpa using state
    · simp [same]
  waits := by
    intro j k sleeping chan
    by_cases same : j = i
    · subst same
      simp only [Table.set_apply, if_true] at sleeping chan
      exact absurd chan (awake sleeping k)
    · simp only [Table.set_apply, same, if_false] at sleeping chan ⊢
      exact ⟨.inl ⟨sleeping, chan⟩, trivial⟩

theorem wakeup1_shuffled (s : Table) (c : Option Chan) : Shuffled s (s.wakeup1 c) where
  pc := fun _ => .inl rfl
  parent := fun i => s.wakeup1_parent c i
  state := by
    intro i
    rw [Table.wakeup1_state]
    split_ifs with woken
    · exact .inr ⟨by rw [woken.1]; rfl, rfl⟩
    · exact .inl rfl
  waits := by
    intro i j
    rw [Table.wakeup1_state, Table.wakeup1_chan, Table.wakeup1_killed]
    split_ifs with woken
    · exact nofun
    · exact fun sleeping chan => ⟨.inl ⟨sleeping, chan⟩, rfl⟩

theorem run_shuffled (ready : (s.entry i).state = .RUNNABLE) : Shuffled s (s.run i) :=
  .of_set rfl (.inr ⟨by rw [ready]; rfl, rfl⟩) nofun

theorem kill_shuffled (s : Table) (pid : UInt32) : Shuffled s (s.kill pid) := by
  unfold Table.kill
  cases found : s.target pid with
  | none => exact ⟨fun _ => .inl rfl, fun _ => rfl, fun _ => .inl rfl, fun _ _ sleeping chan =>
      ⟨.inl ⟨sleeping, chan⟩, rfl⟩⟩
  | some p =>
    have moved := Shuffled.of_set (s := s) (i := p)
      (f := fun e => { e with killed := true, state := if e.state = .SLEEPING then .RUNNABLE else e.state })
      rfl ?_ ?_
    · exact ⟨moved.pc, moved.parent, moved.state, moved.waits⟩
    · by_cases sleeping : (s.entry p).state = .SLEEPING
      · exact .inr ⟨by rw [sleeping]; rfl, by simp [sleeping]; rfl⟩
      · exact .inl (by simp [sleeping])
    · intro asleep
      by_cases sleeping : (s.entry p).state = .SLEEPING
      · simp [sleeping] at asleep
      · simp [sleeping] at asleep

/-- A process in `fork` fills the slot `np`, in which nobody runs yet. -/
structure Fills (s t : Table) (i np : Fin NPROC) : Prop where
  entry : ∀ j, j ≠ np → t.entry j = s.entry j
  pc : ∀ j, j ≠ i → t.pc j = s.pc j
  free : ∀ j, j ≠ i → (s.pc j).child ≠ some np
  vacant : active (s.entry np).state = false
  state : (t.entry np).state ≠ .ZOMBIE ∧ (t.entry np).state ≠ .SLEEPING
  parent : (t.entry np).parent = (s.entry np).parent ∨
    (s.entry np).parent = none ∧ (t.entry np).parent = some i
  used : (t.entry np).parent ≠ none → (t.entry np).state ≠ .UNUSED
  grown : (t.entry np).state ≠ .UNUSED → (t.entry np).state ≠ .EMBRYO → (t.entry np).parent ≠ none
  child : ∀ m, (t.pc i).child = some m → m = np ∧ (t.entry np).state = .EMBRYO
  embryo : t.pc i = .embryo np → (t.entry np).parent = none
  adopted : t.pc i = .adopted np → (t.entry np).parent = some i

theorem Tree.fill (tree : Tree s) (running : (s.entry i).state = .RUNNING) (fills : Fills s t i np) :
    Tree t := by
  -- Whoever can run is in another slot.
  have other : ∀ j, active (s.entry j).state = true → t.entry j = s.entry j := by
    intro j runs
    apply fills.entry
    rintro rfl
    exact nomatch runs.symm.trans fills.vacant
  have here : active (s.entry i).state = true := by
    rw [running]
    rfl
  constructor
  · rw [other _ tree.init]
    exact tree.init
  · rw [other _ tree.init]
    exact tree.root
  · intro c p child
    by_cases same : c = np
    · subst same
      have runs : active (s.entry p).state = true := by
        rcases fills.parent with kept | ⟨_, now⟩
        · exact (tree.parent c p (kept ▸ child)).1
        · obtain rfl : i = p := Option.some.inj (now.symm.trans child)
          exact here
      refine ⟨by rwa [other p runs], fills.used (by rw [child]; nofun), ?_⟩
      rintro rfl
      exact nomatch runs.symm.trans fills.vacant
    · rw [fills.entry c same] at child ⊢
      obtain ⟨runs, used⟩ := tree.parent c p child
      exact ⟨by rwa [other p runs], used⟩
  · intro j used born notInit
    by_cases same : j = np
    · subst same
      exact fills.grown used born
    · rw [fills.entry j same] at used born ⊢
      exact tree.grown j used born notInit
  · intro j inside
    by_cases mover : j = i
    · subst mover
      rwa [other j here]
    · rw [fills.pc j mover] at inside
      have runs := tree.busy j inside
      rwa [other j runs]
  · intro j m filling
    by_cases mover : j = i
    · subst mover
      obtain ⟨rfl, embryo⟩ := fills.child m filling
      exact embryo
    · rw [fills.pc j mover] at filling
      have differ : m ≠ np := by
        rintro rfl
        exact fills.free j mover filling
      rw [fills.entry m differ]
      exact tree.child j m filling
  · intro j m filling
    by_cases mover : j = i
    · subst mover
      obtain ⟨rfl, _⟩ := fills.child m (by rw [filling]; rfl)
      exact fills.embryo filling
    · rw [fills.pc j mover] at filling
      have differ : m ≠ np := by
        rintro rfl
        exact fills.free j mover (by rw [filling]; rfl)
      rw [fills.entry m differ]
      exact tree.embryo j m filling
  · intro j m filling
    by_cases mover : j = i
    · subst mover
      obtain ⟨rfl, _⟩ := fills.child m (by rw [filling]; rfl)
      exact fills.adopted filling
    · rw [fills.pc j mover] at filling
      have differ : m ≠ np := by
        rintro rfl
        exact fills.free j mover (by rw [filling]; rfl)
      rw [fills.entry m differ]
      exact tree.adopted j m filling
  · intro j k m first second
    by_cases left : j = i
    · subst left
      by_cases right : k = j
      · exact right.symm
      · obtain ⟨rfl, _⟩ := fills.child m first
        rw [fills.pc k right] at second
        exact absurd second (fills.free k right)
    · rw [fills.pc j left] at first
      by_cases right : k = i
      · subst right
        obtain ⟨rfl, _⟩ := fills.child m second
        exact absurd first (fills.free j left)
      · rw [fills.pc k right] at second
        exact tree.single j k m first second
  · intro j k sleeping chan
    have differ : j ≠ np := by
      rintro rfl
      exact fills.state.2 sleeping
    rw [fills.entry j differ] at sleeping chan
    obtain ⟨same, ⟨c, child⟩, living, spared⟩ := tree.waits j k sleeping chan
    refine ⟨same, ⟨c, ?_⟩, ?_, by rw [fills.entry j differ, spared]⟩
    · by_cases filled : c = np
      · subst filled
        rcases fills.parent with kept | ⟨none, _⟩
        · rw [kept, child]
        · exact nomatch none.symm.trans child
      · rw [fills.entry c filled, child]
    · intro c child
      by_cases filled : c = np
      · subst filled
        exact fills.state.1
      · rw [fills.entry c filled] at child ⊢
        exact living c child

theorem allocproc_some (found : s.allocproc = some (np, t)) : (s.entry np).state = .UNUSED ∧
    t = { s.set np fun e => { e with state := .EMBRYO, pid := s.nextpid } with
      nextpid := s.nextpid + 1, forks := s.forks + 1, named := Function.update s.named np false } := by
  obtain ⟨p, first, same⟩ := Option.map_eq_some_iff.mp found
  cases same
  exact ⟨by simpa using List.find?_some first, rfl⟩

theorem Tree.unused (tree : Tree s) (unused : (s.entry p).state = .UNUSED) : (s.entry p).parent = none := by
  cases child : (s.entry p).parent with
  | none => rfl
  | some q => exact absurd unused (tree.parent p q child).2.1

/-- The fields of `Fills` for a write to the slot and a move of the process. -/
theorem Fills.of_set {f : Entry → Entry} {pc : Pc} (free : ∀ j, j ≠ i → (s.pc j).child ≠ some np)
    (vacant : active (s.entry np).state = false)
    (state : (f (s.entry np)).state ≠ .ZOMBIE ∧ (f (s.entry np)).state ≠ .SLEEPING)
    (parent : (f (s.entry np)).parent = (s.entry np).parent ∨
      (s.entry np).parent = none ∧ (f (s.entry np)).parent = some i)
    (used : (f (s.entry np)).parent ≠ none → (f (s.entry np)).state ≠ .UNUSED)
    (grown : (f (s.entry np)).state ≠ .UNUSED → (f (s.entry np)).state ≠ .EMBRYO →
      (f (s.entry np)).parent ≠ none)
    (child : ∀ m, pc.child = some m → m = np ∧ (f (s.entry np)).state = .EMBRYO)
    (embryo : pc = .embryo np → (f (s.entry np)).parent = none)
    (adopted : pc = .adopted np → (f (s.entry np)).parent = some i) :
    Fills s ((s.set np f).goto i pc) i np := by
  have here : ((s.set np f).goto i pc).entry np = f (s.entry np) := by
    simp [Table.goto]
  have there : ((s.set np f).goto i pc).pc i = pc := by simp
  constructor
  · exact fun j other => Function.update_of_ne other _ _
  · exact fun j other => Function.update_of_ne other _ _
  · exact free
  · exact vacant
  all_goals simpa only [here, there]

theorem Tree.fork (tree : Tree s) (running : s.Running i .idle) (found : s.allocproc = some (np, t)) :
    Tree (t.goto i (.embryo np)) := by
  obtain ⟨unused, rfl⟩ := allocproc_some found
  have orphan := tree.unused unused
  have fills : Fills s ((s.set np fun e => { e with state := .EMBRYO, pid := s.nextpid }).goto i (.embryo np)) i np := by
    refine .of_set ?_ (by rw [unused]; rfl) ⟨nofun, nofun⟩ (.inl rfl) (fun _ => nofun)
      (fun _ born => absurd rfl born) ?_ (fun _ => orphan) nofun
    · intro j _ filling
      exact nomatch unused.symm.trans (tree.child j np filling)
    · intro m filling
      exact ⟨(Option.some.inj filling).symm, rfl⟩
  exact tree.fill running.1 ⟨fills.1, fills.2, fills.3, fills.4, fills.5, fills.6, fills.7, fills.8,
    fills.9, fills.10, fills.11⟩

theorem Tree.alone (tree : Tree s) (filling : (s.pc i).child = some np) :
    (∀ j, j ≠ i → (s.pc j).child ≠ some np) ∧ active (s.entry np).state = false := by
  constructor
  · intro j other also
    exact other (tree.single j i np also filling)
  · rw [tree.child i np filling]
    rfl

theorem Tree.fail (tree : Tree s) (running : s.Running i (.embryo np)) :
    Tree ((s.set np fun e => { e with state := .UNUSED }).goto i .idle) := by
  have filling : (s.pc i).child = some np := by rw [running.2]; rfl
  obtain ⟨alone, vacant⟩ := tree.alone filling
  have orphan := tree.embryo i np running.2
  exact tree.fill running.1 (.of_set alone vacant ⟨nofun, nofun⟩ (.inl rfl)
    (fun child => absurd orphan child) (fun used => absurd rfl used) nofun nofun nofun)

theorem Tree.adopt (tree : Tree s) (running : s.Running i (.embryo np)) :
    Tree ((s.set np fun e => { e with parent := some i }).goto i (.adopted np)) := by
  have filling : (s.pc i).child = some np := by rw [running.2]; rfl
  have embryo := tree.child i np filling
  obtain ⟨alone, vacant⟩ := tree.alone filling
  refine tree.fill running.1 (.of_set alone vacant ?_ (.inr ⟨tree.embryo i np running.2, rfl⟩) ?_
    (fun _ _ => nofun) ?_ nofun fun _ => rfl)
  · rw [embryo]
    exact ⟨nofun, nofun⟩
  · rw [embryo]
    exact fun _ => nofun
  · intro m filling
    exact ⟨(Option.some.inj filling).symm, embryo⟩

theorem Tree.ready (tree : Tree s) (running : s.Running i (.adopted np)) :
    Tree ((s.set np fun e => { e with state := .RUNNABLE }).goto i .idle) := by
  have filling : (s.pc i).child = some np := by rw [running.2]; rfl
  obtain ⟨alone, vacant⟩ := tree.alone filling
  have child := tree.adopted i np running.2
  refine tree.fill running.1 (.of_set alone vacant ⟨nofun, nofun⟩ (.inl rfl) (fun _ => nofun) ?_ nofun
    nofun nofun)
  intro _ _
  rw [child]
  nofun

theorem reap_entry (s : Table) (i : Fin NPROC) {j p : Fin NPROC} (other : j ≠ p) :
    (s.reap i p).entry j = s.entry j := Function.update_of_ne other _ _

/-- A parent takes an exited child out of the table. -/
theorem Tree.reap (tree : Tree s) (running : (s.entry i).state = .RUNNING)
    (child : (s.entry p).parent = some i) (zombie : (s.entry p).state = .ZOMBIE) :
    Tree (s.reap i p) := by
  have gone : ((s.reap i p).entry p).state = .UNUSED ∧ ((s.reap i p).entry p).parent = none := by
    simp [Table.reap]
  have other : ∀ j, active (s.entry j).state = true → (s.reap i p).entry j = s.entry j := by
    intro j runs
    apply reap_entry
    rintro rfl
    rw [zombie] at runs
    exact nomatch runs
  have filled : ∀ j np, (s.pc j).child = some np → (s.reap i p).entry np = s.entry np := by
    intro j np filling
    apply reap_entry
    rintro rfl
    exact nomatch zombie.symm.trans (tree.child j np filling)
  constructor
  · rw [other _ tree.init]
    exact tree.init
  · rw [other _ tree.init]
    exact tree.root
  · intro c q adopted
    by_cases same : c = p
    · subst same
      exact nomatch gone.2.symm.trans adopted
    · rw [reap_entry s i same] at adopted ⊢
      obtain ⟨runs, used⟩ := tree.parent c q adopted
      exact ⟨by rwa [other q runs], used⟩
  · intro j used born notInit
    by_cases same : j = p
    · subst same
      exact absurd gone.1 used
    · rw [reap_entry s i same] at used born ⊢
      exact tree.grown j used born notInit
  · intro j inside
    have runs := tree.busy j inside
    rwa [other j runs]
  · intro j np filling
    rw [filled j np filling]
    exact tree.child j np filling
  · intro j np filling
    have inside : s.pc j = .embryo np := filling
    rw [filled j np (by rw [inside]; rfl)]
    exact tree.embryo j np filling
  · intro j np filling
    have inside : s.pc j = .adopted np := filling
    rw [filled j np (by rw [inside]; rfl)]
    exact tree.adopted j np filling
  · exact tree.single
  · intro j k sleeping chan
    have differ : j ≠ p := by
      rintro rfl
      exact nomatch gone.1.symm.trans sleeping
    rw [reap_entry s i differ] at sleeping chan
    obtain ⟨same, ⟨c, kid⟩, living, spared⟩ := tree.waits j k sleeping chan
    refine ⟨same, ⟨c, ?_⟩, ?_, by rw [reap_entry s i differ, spared]⟩
    · -- The one who reaps is awake, so the child was not `j`'s.
      have kept : c ≠ p := by
        rintro rfl
        cases kid.symm.trans child
        exact nomatch running.symm.trans sleeping
      rw [reap_entry s i kept, kid]
    · intro c kid
      by_cases same : c = p
      · subst same
        exact nomatch gone.2.symm.trans kid
      · rw [reap_entry s i same] at kid ⊢
        exact living c kid

/-- A process returns from `wait`. -/
theorem idle_shuffled (free : (s.pc i).child = none) (runs : active (s.entry i).state = true) :
    Shuffled s (s.goto i .idle) where
  pc := by
    intro j
    by_cases mover : j = i
    · subst mover
      exact .inr ⟨free, by simp [Pc.child], runs⟩
    · exact .inl (by simp [mover])
  parent := fun _ => rfl
  state := fun _ => .inl rfl
  waits := fun _ _ sleeping chan => ⟨.inl ⟨sleeping, chan⟩, rfl⟩

/-- A process falls asleep in `wait`. -/
theorem doze_shuffled (running : (s.entry i).state = .RUNNING) (free : (s.pc i).child = none)
    (waits : Waits s i i) :
    Shuffled s ((s.set i fun e => { e with chan := some (.proc i), state := .SLEEPING }).goto i .waiting) where
  pc := by
    intro j
    by_cases mover : j = i
    · subst mover
      exact .inr ⟨free, by simp [Pc.child], by rw [running]; rfl⟩
    · exact .inl (by simp [mover, Table.set])
  parent := by
    intro j
    by_cases mover : j = i
    · subst mover
      simp [Table.goto]
    · simp [Table.goto, mover]
  state := by
    intro j
    by_cases mover : j = i
    · subst mover
      exact .inr ⟨by rw [running]; rfl, by simp [Table.goto]; rfl⟩
    · exact .inl (by simp [Table.goto, mover])
  waits := by
    intro j k sleeping chan
    by_cases mover : j = i
    · subst mover
      simp only [Table.goto, Table.set_apply, if_true, Option.some.injEq, Chan.proc.injEq] at chan ⊢
      exact ⟨.inr (chan ▸ waits), trivial⟩
    · simp only [Table.goto, Table.set_apply, mover, if_false] at sleeping chan ⊢
      exact ⟨.inl ⟨sleeping, chan⟩, trivial⟩

/-- One pass of `wait`: it takes a child out, finds none to wait for, or falls asleep. -/
inductive Scans (s : Table) (i : Fin NPROC) : Table → Prop where
  | reap {p : Fin NPROC} : (s.entry p).parent = some i → (s.entry p).state = .ZOMBIE →
      Scans s i ((s.reap i p).goto i .idle)
  | leave : Scans s i (s.goto i .idle)
  | doze : Waits s i i →
      Scans s i ((s.set i fun e => { e with chan := some (.proc i), state := .SLEEPING }).goto i .waiting)

theorem scan_cases (s : Table) (i : Fin NPROC) : Scans s i (s.scan i) := by
  unfold Table.scan
  split
  · rename_i p found
    have zombie : (s.entry p).parent = some i ∧ (s.entry p).state = .ZOMBIE := by
      simpa using List.find?_some found
    exact .reap zombie.1 zombie.2
  · rename_i none
    split_ifs with done
    · exact .leave
    · rw [not_or] at done
      refine .doze ⟨rfl, ?_, ?_, by simpa using done.2⟩
      · simpa [Table.haveKids] using done.1
      · intro c child zombie
        have passed := List.find?_eq_none.mp none c (List.mem_finRange c)
        simp [child, zombie] at passed

theorem Tree.scan (tree : Tree s) (running : (s.entry i).state = .RUNNING) (free : (s.pc i).child = none)
    (scans : Scans s i t) : Tree t := by
  have runs : active (s.entry i).state = true := by
    rw [running]
    rfl
  cases scans with
  | @reap p child zombie =>
    refine (tree.reap running child zombie).shuffle (idle_shuffled free ?_)
    rw [reap_entry]
    · exact runs
    · rintro rfl
      exact nomatch running.symm.trans zombie
  | leave => exact tree.shuffle (idle_shuffled free runs)
  | doze waits => exact tree.shuffle (doze_shuffled running free waits)

/-- Whom `exit` wakes. -/
def WokenBy (s : Table) (i j : Fin NPROC) : Prop :=
  (s.entry j).state = .SLEEPING ∧ ((s.entry j).chan = (s.entry i).parent.map .proc ∨
    s.hasZombie i = true ∧ (s.entry j).chan = some (.proc initproc))

/-- What `exit` does to any slot. -/
structure Exits (s : Table) (i j : Fin NPROC) (e : Entry) : Prop where
  parent : e.parent = if (s.entry j).parent = some i then some initproc else (s.entry j).parent
  chan : e.chan = (s.entry j).chan
  killed : e.killed = (s.entry j).killed
  pid : e.pid = (s.entry j).pid
  self : j = i → e.state = .ZOMBIE
  still : j ≠ i → ¬ WokenBy s i j → e.state = (s.entry j).state
  woken : j ≠ i → WokenBy s i j → e.state = .RUNNABLE

theorem exit_entry (s : Table) (i j : Fin NPROC) : Exits s i j ((s.exit i).entry j) := by
  unfold Table.exit
  by_cases same : j = i
  · subst same
    cases told : s.hasZombie j <;> constructor <;> simp
  · cases told : s.hasZombie i with
    | false =>
      constructor <;> simp [same, WokenBy, told]
      · exact fun off sleeping on => absurd on (off sleeping)
      · exact fun sleeping on off => absurd on (off sleeping)
    | true =>
      by_cases first : (s.entry j).state = .SLEEPING ∧ (s.entry j).chan = (s.entry i).parent.map .proc
      · constructor <;> simp [same, WokenBy, told, first]
      · constructor <;> simp [same, WokenBy, told, first]
        · exact fun off sleeping second => absurd second (off sleeping).2
        · rw [not_and] at first
          exact fun sleeping on off => absurd (on.resolve_left (first sleeping)) (off sleeping)

theorem exit_pc (s : Table) (i : Fin NPROC) : (s.exit i).pc = s.pc := by
  unfold Table.exit
  cases s.hasZombie i <;> rfl

theorem Tree.exit (tree : Tree s) (running : s.Running i .idle) (notInit : i ≠ initproc) :
    Tree (s.exit i) := by
  have active_of : ∀ j, j ≠ i → active ((s.exit i).entry j).state = active (s.entry j).state := by
    intro j other
    by_cases woken : WokenBy s i j
    · rw [(exit_entry s i j).woken other woken, woken.1]
      rfl
    · rw [(exit_entry s i j).still other woken]
  have passive : ∀ state, active state = false → state ≠ .ZOMBIE →
      ∀ j, ((s.exit i).entry j).state = state ↔ (s.entry j).state = state := by
    intro state asleep alive j
    by_cases same : j = i
    · subst same
      rw [(exit_entry s j j).self rfl, running.1]
      constructor
      · rintro rfl
        exact absurd rfl alive
      · rintro rfl
        exact nomatch asleep
    · by_cases woken : WokenBy s i j
      · rw [(exit_entry s i j).woken same woken, woken.1]
        constructor <;> (rintro rfl; exact nomatch asleep)
      · rw [(exit_entry s i j).still same woken]
  constructor
  · rw [active_of _ notInit.symm]
    exact tree.init
  · rw [(exit_entry s i initproc).parent, tree.root]
    rfl
  · intro c p child
    rw [(exit_entry s i c).parent] at child
    split_ifs at child with mine
    · cases child
      rw [active_of _ notInit.symm, Ne, passive .UNUSED rfl nofun]
      refine ⟨tree.init, (tree.parent c i mine).2.1, ?_⟩
      rintro rfl
      exact nomatch tree.root.symm.trans mine
    · have other : p ≠ i := by
        rintro rfl
        exact mine child
      rw [active_of p other, Ne, passive .UNUSED rfl nofun]
      exact tree.parent c p child
  · intro j used born other
    rw [(exit_entry s i j).parent]
    split_ifs with mine
    · exact nofun
    · by_cases same : j = i
      · subst same
        exact tree.grown j (by rw [running.1]; nofun) (by rw [running.1]; nofun) other
      · rw [Ne, passive .UNUSED rfl nofun] at used
        rw [Ne, passive .EMBRYO rfl nofun] at born
        exact tree.grown j used born other
  all_goals try rw [exit_pc]
  · intro j inside
    have other : j ≠ i := by
      rintro rfl
      exact inside running.2
    rw [active_of j other]
    exact tree.busy j inside
  · intro j np filling
    rw [passive .EMBRYO rfl nofun]
    exact tree.child j np filling
  · intro j np filling
    rw [(exit_entry s i np).parent, tree.embryo j np filling]
    rfl
  · intro j np filling
    have child := tree.adopted j np filling
    have other : some j ≠ some i := by
      rintro same
      cases same
      exact nomatch running.2.symm.trans filling
    rw [(exit_entry s i np).parent, child, if_neg other]
  · exact tree.single
  · intro j k sleeping chan
    have other : j ≠ i := by
      rintro rfl
      exact nomatch ((exit_entry s j j).self rfl).symm.trans sleeping
    have asleep : ¬ WokenBy s i j := fun woken =>
      nomatch ((exit_entry s i j).woken other woken).symm.trans sleeping
    rw [(exit_entry s i j).still other asleep] at sleeping
    rw [(exit_entry s i j).chan] at chan
    obtain ⟨rfl, ⟨c, child⟩, living, spared⟩ := tree.waits j k sleeping chan
    have unheard : (s.entry i).parent ≠ some k := fun parent => asleep ⟨sleeping, .inl (by rw [chan, parent]; rfl)⟩
    refine ⟨rfl, ⟨c, ?_⟩, ?_, by rw [(exit_entry s i k).killed, spared]⟩
    · rw [(exit_entry s i c).parent, child, if_neg]
      exact fun same => other (Option.some.inj same)
    · intro c child zombie
      by_cases self : c = i
      · subst self
        rw [(exit_entry s c c).parent] at child
        split_ifs at child with mine
        · exact (tree.parent c c mine).2.2 rfl
        · exact unheard child
      · by_cases woken : WokenBy s i c
        · exact nomatch ((exit_entry s i c).woken self woken).symm.trans zombie
        · rw [(exit_entry s i c).still self woken] at zombie
          rw [(exit_entry s i c).parent] at child
          split_ifs at child with mine
          · cases child
            have told : s.hasZombie i = true := by
              simpa [Table.hasZombie] using ⟨c, mine, zombie⟩
            exact asleep ⟨sleeping, .inr ⟨told, chan⟩⟩
          · exact living c child zombie

/-- The events one by one, with what each of them needs. -/
inductive Happens (s : Table) : Event → Table → Prop where
  | full {i : Fin NPROC} : s.Running i .idle → s.allocproc = none → Happens s (.fork i) s
  | fork {i np : Fin NPROC} {t : Table} : s.Running i .idle → s.allocproc = some (np, t) →
      Happens s (.fork i) (t.goto i (.embryo np))
  | fail {i np : Fin NPROC} : s.Running i (.embryo np) →
      Happens s (.fail i) ((s.set np fun e => { e with state := .UNUSED }).goto i .idle)
  | adopt {i np : Fin NPROC} : s.Running i (.embryo np) →
      Happens s (.adopt i) ((s.set np fun e => { e with parent := some i }).goto i (.adopted np))
  | ready {i np : Fin NPROC} : s.Running i (.adopted np) →
      Happens s (.ready i) ((s.set np fun e => { e with state := .RUNNABLE }).goto i .idle)
  | exit {i : Fin NPROC} : s.Running i .idle → i ≠ initproc → Happens s (.exit i) (s.exit i)
  | wait {i : Fin NPROC} : s.Running i .idle → Happens s (.wait i) (s.scan i)
  | resume {i : Fin NPROC} : (s.entry i).state = .RUNNABLE → s.pc i = .waiting →
      Happens s (.resume i) ((s.run i).scan i)
  | kill {i : Fin NPROC} {pid : UInt32} : Happens s (.kill i pid) (s.kill pid)
  | schedule {i : Fin NPROC} : (s.entry i).state = .RUNNABLE → Happens s (.schedule i) (s.run i)
  | yield {i : Fin NPROC} : (s.entry i).state = .RUNNING →
      Happens s (.yield i) (s.set i fun e => { e with state := .RUNNABLE })
  | sleep {i : Fin NPROC} {c : Nat} : (s.entry i).state = .RUNNING →
      Happens s (.sleep i c) (s.set i fun e => { e with chan := some (.other c), state := .SLEEPING })
  | wakeup {c : Nat} : Happens s (.wakeup c) (s.wakeup1 (some (.other c)))

theorem happens_of_step {e : Event} (step : s.Step e t) : Happens s e t := by
  have happens : s.next e = some t := step
  cases e with
  | fork i =>
    obtain ⟨running, happens⟩ := Option.ite_none_right_eq_some.mp happens
    cases found : s.allocproc with
    | none =>
      simp only [found] at happens
      cases happens
      exact .full running found
    | some slot =>
      simp only [found] at happens
      cases happens
      exact .fork running found
  | fail i | adopt i | ready i =>
    dsimp only [Table.next] at happens
    split at happens
    · obtain ⟨running, same⟩ := Option.ite_none_right_eq_some.mp happens
      cases same
      constructor
      exact running
    · exact nomatch happens
  | exit i =>
    obtain ⟨⟨running, notInit⟩, same⟩ := Option.ite_none_right_eq_some.mp happens
    cases same
    exact .exit running notInit
  | wait i =>
    obtain ⟨running, same⟩ := Option.ite_none_right_eq_some.mp happens
    cases same
    exact .wait running
  | resume i =>
    obtain ⟨⟨ready, waiting⟩, same⟩ := Option.ite_none_right_eq_some.mp happens
    cases same
    exact .resume ready waiting
  | kill i pid =>
    obtain ⟨_, same⟩ := Option.ite_none_right_eq_some.mp happens
    cases same
    exact .kill
  | schedule i =>
    obtain ⟨⟨ready, _⟩, same⟩ := Option.ite_none_right_eq_some.mp happens
    cases same
    exact .schedule ready
  | yield i =>
    obtain ⟨running, same⟩ := Option.ite_none_right_eq_some.mp happens
    cases same
    exact .yield running
  | sleep i c =>
    obtain ⟨running, same⟩ := Option.ite_none_right_eq_some.mp happens
    cases same
    exact .sleep running.1
  | wakeup c =>
    cases happens
    exact .wakeup

theorem Tree.step {e : Event} (tree : Tree s) (step : s.Step e t) : Tree t := by
  cases happens_of_step step with
  | full => exact tree
  | fork running found => exact tree.fork running found
  | fail running => exact tree.fail running
  | adopt running => exact tree.adopt running
  | ready running => exact tree.ready running
  | exit running notInit => exact tree.exit running notInit
  | wait running => exact tree.scan running.1 (by rw [running.2]; rfl) (scan_cases s _)
  | @resume i ready waiting =>
    apply (tree.shuffle (run_shuffled ready)).scan _ _ (scan_cases _ i)
    · simp [Table.run]
    · change (s.pc i).child = none
      rw [waiting]
      rfl
  | kill => exact tree.shuffle (kill_shuffled s _)
  | schedule ready => exact tree.shuffle (run_shuffled ready)
  | yield running => exact tree.shuffle (.of_set rfl (.inr ⟨by rw [running]; rfl, rfl⟩) nofun)
  | sleep running =>
    exact tree.shuffle (.of_set rfl (.inr ⟨by rw [running]; rfl, rfl⟩) (fun _ => nofun))
  | wakeup => exact tree.shuffle (wakeup1_shuffled s _)

theorem tree_run {es : List Event} (run : Run Table.Step .boot es s) : Tree s :=
  run.kept (fun _ _ _ step tree => Tree.step tree step) tree_boot

end Tree

/-- No wakeup is lost between `exit` and `wait`: whoever sleeps in `wait` has a child to
wait for, none that it could take already, and has not been killed. -/
theorem wait_sleeps_for_reason {s : Table} {es : List Event} (run : Run Table.Step .boot es s)
    {i : Fin NPROC} (sleeping : (s.entry i).state = .SLEEPING) (inWait : (s.entry i).chan = some (.proc i)) :
    (∃ c, (s.entry c).parent = some i ∧ (s.entry c).state ≠ .UNUSED) ∧
      (∀ c, (s.entry c).parent = some i → (s.entry c).state ≠ .ZOMBIE) ∧
        (s.entry i).killed = false := by
  have tree := tree_run run
  obtain ⟨_, ⟨c, child⟩, living, spared⟩ := tree.waits i i sleeping inWait
  exact ⟨⟨c, child, (tree.parent c i child).2.1⟩, living, spared⟩

theorem run_of_any {s : Table} {es : List Event} {q : Table → Bool}
    (ends : (es.foldlM Table.next s).any q = true) : ∃ t, Run Table.Step s es t ∧ q t = true :=
  Run.of_any (fun _ _ _ next => next) ends

/-- The first process makes a child and waits for it. -/
def forkAndWait : List Event := [.schedule 0, .fork 0, .adopt 0, .ready 0, .wait 0]

theorem init_waits_for_child : ∃ s, Run Table.Step .boot forkAndWait s ∧ (s.entry 0).state = .SLEEPING ∧
    (s.entry 0).chan = some (.proc 0) ∧ ∃ c, (s.entry c).parent = some 0 ∧ (s.entry c).state ≠ .UNUSED := by
  obtain ⟨s, run, asleep⟩ := run_of_any
    (q := fun s => decide ((s.entry 0).state = .SLEEPING ∧ (s.entry 0).chan = some (.proc 0)))
    (show (forkAndWait.foldlM Table.next Table.boot).any _ = true by decide +kernel)
  obtain ⟨sleeping, inWait⟩ := of_decide_eq_true asleep
  exact ⟨s, run, sleeping, inWait, (wait_sleeps_for_reason run sleeping inWait).1⟩

end Xv6.ProcTable
