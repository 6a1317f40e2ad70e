import Xv6.Files
import Xv6.Growth

/-! Where the page frames of the machine are. A frame handed to the allocator is
on the free list, or a process holds it as its kernel stack or in its address
space, or it is a pipe; `lost` counts the frames that are in none of these. -/
namespace Xv6
open Control
open Function (update update_idem update_of_ne update_self)

/-- The frames a process holds. -/
def Slot.frames (slot : Slot) : Multiset Nat :=
  if slot.state = .UNUSED then 0 else slot.kstack.elim 0 (fun f => {f}) + slot.proc.pgdir.frames

def Sys.procFrames (s : Sys) : Multiset Nat := Tally.total NPROC fun i => (s.slots i).frames

/-- Every frame of `pool` is in exactly one place. -/
structure Sys.Owned (pool lost : Multiset Nat) (s : Sys) : Prop where
  account : (s.phys.freelist : Multiset Nat) + s.procFrames + s.pipeFrames + lost = pool
  nodup : pool.Nodup
  range : ∀ f ∈ pool, f < PHYSTOP / PGSIZE
  files : s.FilesSound
  dirs : ∀ i < NPROC, (s.slots i).state ≠ .UNUSED →
    (s.slots i).proc.pgdir.Sound ∧ (s.slots i).proc.sz ≤ KERNBASE

theorem live_used {state : ProcState} (live : state.live = true) : state ≠ .UNUSED := by
  rintro rfl
  cases live

namespace Sys.Owned
variable {pool lost : Multiset Nat} {s : Sys}

theorem all_nodup (owned : s.Owned pool lost) :
    ((s.phys.freelist : Multiset Nat) + s.procFrames + s.pipeFrames + lost).Nodup := by
  rw [owned.account]
  exact owned.nodup

theorem held_nodup (owned : s.Owned pool lost) :
    ((s.phys.freelist : Multiset Nat) + s.procFrames + s.pipeFrames).Nodup :=
  (Multiset.nodup_add.mp owned.all_nodup).1

theorem mem_pool (owned : s.Owned pool lost) {f : Nat} (free : f ∈ s.phys.freelist) : f ∈ pool := by
  rw [← owned.account]
  simp only [Multiset.mem_add, Multiset.mem_coe]
  exact Or.inl (Or.inl (Or.inl free))

theorem dir_le (i : Nat) (hi : i < NPROC) (used : (s.slots i).state ≠ .UNUSED) :
    (s.slots i).proc.pgdir.frames ≤ s.procFrames := by
  have mine : (s.slots i).proc.pgdir.frames ≤ (s.slots i).frames := by
    rw [Slot.frames, if_neg used]
    exact Multiset.le_add_left _ _
  have sum := Tally.total_change (f := fun j => (s.slots j).frames)
    (g := update (fun j => (s.slots j).frames) i 0) hi
    (fun j _ ne => update_of_ne ne _ _)
  rw [update_self, add_zero] at sum
  rw [Sys.procFrames, ← sum]
  exact le_trans mine (Multiset.le_add_left _ _)

/-- Each process sees its own memory apart from the rest. -/
theorem view (owned : s.Owned pool lost) {i : Nat} (hi : i < NPROC)
    (used : (s.slots i).state ≠ .UNUSED) : (s.view i).Sound := by
  obtain ⟨dir, size⟩ := owned.dirs i hi used
  refine ⟨dir, size, ?_⟩
  have nodup := (Multiset.nodup_add.mp owned.held_nodup).1
  exact Multiset.nodup_of_le (add_le_add le_rfl (dir_le i hi used)) nodup

/-- What another process holds is neither free nor held by process `i`. -/
theorem apart (owned : s.Owned pool lost) {i j f : Nat} (hi : i < NPROC) (hj : j < NPROC)
    (ne : i ≠ j) (used : (s.slots i).state ≠ .UNUSED) (held : f ∈ (s.slots j).frames) :
    f ∉ (s.phys.freelist : Multiset Nat) + (s.slots i).proc.pgdir.frames := by
  intro member
  refine Tally.apart owned.held_nodup hi hj ne held ?_
  refine Multiset.mem_of_le (add_le_add le_rfl ?_) member
  rw [Slot.frames, if_neg used]
  exact Multiset.le_add_left _ _

theorem free_pipe (owned : s.Owned pool lost) {f : Nat} (free : f ∈ s.phys.freelist) :
    f < PHYSTOP / PGSIZE ∧ (s.pipes f).inUse = false := by
  have bound := owned.range f (owned.mem_pool free)
  refine ⟨bound, ?_⟩
  by_contra used
  have pipe : f ∈ s.pipeFrames := by
    refine Tally.mem_total.mpr ⟨f, bound, ?_⟩
    rw [Sys.pipeFrame, if_pos (by simpa using used)]
    exact Multiset.mem_singleton_self f
  have disjoint := (Multiset.nodup_add.mp owned.held_nodup).2.2
  exact Multiset.disjoint_left.mp disjoint
    (Multiset.mem_add.mpr (Or.inl (Multiset.mem_coe.mpr free))) pipe

/-- Process `i` changes its own memory. Frames it gives up without freeing them
are lost. -/
theorem put (owned : s.Owned pool lost) {i : Nat} (hi : i < NPROC)
    (used : (s.slots i).state ≠ .UNUSED) {st : St} {L : Multiset Nat}
    (moves : Moves s.phys st.phys (s.slots i).proc.pgdir.frames (st.proc.pgdir.frames + L))
    (dir : st.proc.pgdir.Sound) (size : st.proc.sz ≤ KERNBASE) :
    (s.put i st).Owned pool (lost + L) := by
  have slot : (s.put i st).slots i = { s.slots i with proc := st.proc } := by
    simp only [Sys.put, Sys.setSlot, update_self]
  have other : ∀ j, j ≠ i → (s.put i st).slots j = s.slots j := by
    intro j ne
    simp only [Sys.put, Sys.setSlot, update_of_ne ne]
  refine ⟨?_, owned.nodup, owned.range, owned.files.congr rfl rfl, fun j hj busy => ?_⟩
  · have procs := Tally.total_change (f := fun j => (s.slots j).frames)
      (g := fun j => ((s.put i st).slots j).frames) hi (fun j _ ne => by rw [other j ne])
    have before : (s.slots i).frames =
        (s.slots i).kstack.elim 0 (fun f => {f}) + (s.slots i).proc.pgdir.frames := by
      rw [Slot.frames, if_neg used]
    have after : ((s.put i st).slots i).frames =
        (s.slots i).kstack.elim 0 (fun f => {f}) + st.proc.pgdir.frames := by
      rw [slot, Slot.frames, if_neg used]
    rw [before, after] at procs
    have sum := moves.sum
    rw [← owned.account]
    simp only [Sys.procFrames] at *
    change (st.phys.freelist : Multiset Nat) + _ + s.pipeFrames + (lost + L) = _
    -- Each frame is counted on both sides of the three equations.
    ext f
    have procs := congrArg (Multiset.count f) procs
    have sum := congrArg (Multiset.count f) sum
    simp only [Multiset.count_add] at procs sum ⊢
    omega
  · by_cases here : j = i
    · subst here
      rw [slot]
      exact ⟨dir, size⟩
    · rw [other j here] at busy ⊢
      exact owned.dirs j hj busy

/-- The file table changes. -/
theorem fileStep {t : Sys} (owned : s.Owned pool lost) (step : FileStep s t) :
    t.Owned pool lost := by
  have procs : t.procFrames = s.procFrames := by
    refine Tally.total_congr fun j _ => ?_
    simp only [Slot.frames, step.state j, step.kstack j, step.proc j]
  refine ⟨?_, owned.nodup, owned.range, step.files, fun j hj busy => ?_⟩
  · have sum := step.moves.sum
    rw [← owned.account, procs]
    ext f
    have sum := congrArg (Multiset.count f) sum
    simp only [Multiset.count_add] at sum ⊢
    omega
  · rw [step.proc j]
    rw [step.state j] at busy
    exact owned.dirs j hj busy

end Sys.Owned
/-- Process `i` has exited: its descriptors are closed and it is a zombie, which
still holds its stack and its address space. -/
structure Exited (i : Nat) (s t : Sys) : Prop where
  moves : Moves s.phys t.phys s.pipeFrames t.pipeFrames
  files : t.FilesSound
  state : ∀ j, (t.slots j).state = if j = i then .ZOMBIE else (s.slots j).state
  kstack : ∀ j, (t.slots j).kstack = (s.slots j).kstack
  proc : ∀ j, (t.slots j).proc = (s.slots j).proc

theorem exit_spec {s : Sys} (sound : s.FilesSound) (i : Nat) :
    Sat (exit i) s (fun _ t => Exited i s t) noExit := by
  rw [exit, sat_bind, sat_get]
  split
  · exact sat_panic _ _ _
  · refine .bind (closeFiles_spec sound i NOFILE) fun _ t closed => ?_
    simp only [sat_bind, sat_modify, modifySlot]
    have adopted : ∀ j, ((t.slots j).adopt i t.initproc).state = (t.slots j).state ∧
        ((t.slots j).adopt i t.initproc).kstack = (t.slots j).kstack ∧
        ((t.slots j).adopt i t.initproc).proc = (t.slots j).proc := by
      intro j
      unfold Slot.adopt
      split <;> exact ⟨rfl, rfl, rfl⟩
    refine ⟨closed.moves, closed.files.congr rfl rfl, fun j => ?_, fun j => ?_, fun j => ?_⟩
    all_goals
      obtain ⟨state, kstack, proc⟩ := adopted j
      by_cases here : j = i
      · subst here
        simp only [Sys.setSlot, update_self, if_true, kstack, proc, closed.kstack,
          closed.proc]
      · simp only [Sys.setSlot, update_of_ne here, if_neg here, state, kstack, proc,
          closed.state, closed.kstack, closed.proc]

theorem Sys.Owned.exited {pool lost : Multiset Nat} {s t : Sys} {i : Nat}
    (owned : s.Owned pool lost) (exited : Exited i s t) (used : (s.slots i).state ≠ .UNUSED) :
    t.Owned pool lost := by
  have unused : ∀ j, (t.slots j).state = .UNUSED ↔ (s.slots j).state = .UNUSED := by
    intro j
    rw [exited.state j]
    by_cases here : j = i
    · subst here
      simp [used]
    · rw [if_neg here]
  have procs : t.procFrames = s.procFrames := by
    refine Tally.total_congr fun j _ => ?_
    simp only [Slot.frames, unused j, exited.kstack j, exited.proc j]
  refine ⟨?_, owned.nodup, owned.range, exited.files, fun j hj busy => ?_⟩
  · have sum := exited.moves.sum
    rw [← owned.account, procs]
    ext f
    have sum := congrArg (Multiset.count f) sum
    simp only [Multiset.count_add] at sum ⊢
    omega
  · rw [exited.proc j]
    exact owned.dirs j hj fun idle => busy ((unused j).mpr idle)

/-- The zombie in slot `j` has been freed. -/
structure Reaped (j : Nat) (s t : Sys) : Prop where
  zombie : (s.slots j).state = .ZOMBIE
  moves : Moves s.phys t.phys (s.slots j).frames 0
  gone : (t.slots j).state = .UNUSED
  other : ∀ k, k ≠ j → t.slots k = s.slots k
  files : t.files = s.files
  pipes : t.pipes = s.pipes

theorem freeStack_spec (s : Sys) (kstack : Option Nat) :
    Sat (freeStack kstack) s (fun _ t => ∃ f m, kstack = some f ∧ Moves s.phys m {f} 0 ∧
      t = { s with phys := m }) noExit := by
  cases kstack with
  | none => exact sat_panic _ _ _
  | some f =>
    rw [freeStack, sysPhys, sat_zoom]
    exact (kfree_spec s.phys f).imp (fun _ m freed => ⟨f, m, rfl, freed, rfl⟩)

theorem wait_spec (s : Sys) (i : Nat) :
    Sat (wait i) s (fun _ t => t = s ∨ ∃ j < NPROC, Reaped j s t) noExit := by
  rw [wait, sat_bind, sat_get]
  cases found : (List.range NPROC).find? fun j =>
      (s.slots j).parent = some i ∧ (s.slots j).state = .ZOMBIE with
  | none =>
    dsimp only
    split
    · rw [sat_throw]
      nofun
    · exact Or.inl rfl
  | some j =>
    have child := List.find?_some found
    have bound := List.mem_range.mp (List.mem_of_find?_eq_some found)
    simp only [Bool.decide_and, Bool.and_eq_true, decide_eq_true_eq] at child
    dsimp only
    refine .bind (freeStack_spec s _) ?_
    rintro _ _ ⟨f, m, stack, freed, rfl⟩
    rw [sat_bind, sysPhys, sat_zoom]
    refine (freevm_spec _ m).imp (fun _ m' gone => ?_)
    simp only [sat_bind, modifySlot, sat_modify, sat_pure]
    refine Or.inr ⟨j, bound, child.2, ?_, ?_, fun k ne => ?_, rfl, rfl⟩
    · rw [Slot.frames, if_neg (by rw [child.2]; decide), stack]
      have rest : Moves m m' (0 + (s.slots j).proc.pgdir.frames) 0 := by rwa [zero_add]
      exact (freed.frame _).trans rest
    · simp only [Sys.setSlot, update_self]
    · simp only [Sys.setSlot, update_of_ne ne]

theorem Sys.Owned.reaped {pool lost : Multiset Nat} {s t : Sys} {j : Nat} (hj : j < NPROC)
    (owned : s.Owned pool lost) (reaped : Reaped j s t) : t.Owned pool lost := by
  have after : (t.slots j).frames = 0 := by rw [Slot.frames, if_pos reaped.gone]
  have procs := Tally.total_change (f := fun k => (s.slots k).frames)
    (g := fun k => (t.slots k).frames) hj (fun k _ ne => by rw [reaped.other k ne])
  refine ⟨?_, owned.nodup, owned.range, owned.files.congr reaped.files reaped.pipes,
    fun k hk busy => ?_⟩
  · have sum := reaped.moves.sum
    rw [← owned.account, pipeFrames_congr reaped.pipes]
    simp only [after, Sys.procFrames] at procs ⊢
    ext f
    have procs := congrArg (Multiset.count f) procs
    have sum := congrArg (Multiset.count f) sum
    simp only [Multiset.count_add, Multiset.count_zero] at procs sum ⊢
    omega
  · by_cases here : k = j
    · rw [here] at busy
      exact absurd reaped.gone busy
    · rw [reaped.other k here] at busy ⊢
      exact owned.dirs k hk busy

/-- `fork` has failed: only an unused slot may have changed. -/
structure Unforked (s t : Sys) : Prop where
  moves : Moves s.phys t.phys 0 0
  state : ∀ j, (t.slots j).state = (s.slots j).state
  slot : ∀ j, (s.slots j).state ≠ .UNUSED → t.slots j = s.slots j
  files : t.files = s.files
  pipes : t.pipes = s.pipes
  ofile : ∀ j, (t.slots j).ofile = (s.slots j).ofile

/-- The address space of a child: a copy of each page below the size, with the
flags of the parent's entry, and nothing else below the kernel. -/
structure ChildSpace (m m' : Phys) (parent child : PgDir) (sz : Nat) : Prop where
  kernel : ∀ v, 2 ^ 19 ≤ v → (child.flat v).Tidy ∧ (child.flat v).has PteBit.PTE_U = false
  pages : ∀ v, v * 4096 < sz → (parent.flat v).mapped = true ∧
    ∃ f ∈ m.freelist, child.flat v = ⟨f, (parent.flat v).flags⟩ ∧
      m'.bytes f = m.bytes (parent.flat v).ppn
  rest : ∀ v < 2 ^ 19, sz ≤ v * 4096 → child.flat v = .zero

/-- Slot `np` holds the memory of a new child of process `i`. -/
structure Spaced (i np : Nat) (s t : Sys) : Prop where
  unused : (s.slots np).state = .UNUSED
  embryo : (t.slots np).state = .EMBRYO
  ofile : (t.slots np).ofile = (s.slots np).ofile
  account : Moves s.phys t.phys 0 (t.slots np).frames
  child : ∃ d, (t.slots np).proc = (s.slots i).proc.child d ∧
    ChildSpace s.phys t.phys (s.slots i).proc.pgdir d (s.slots i).proc.sz
  other : ∀ j, j ≠ np → t.slots j = s.slots j
  files : t.files = s.files
  pipes : t.pipes = s.pipes

/-- Process `i` has a new child in slot `np`. -/
structure Forked (i np : Nat) (s t : Sys) : Prop where
  unused : (s.slots np).state = .UNUSED
  runnable : (t.slots np).state = .RUNNABLE
  account : Moves s.phys t.phys 0 (t.slots np).frames
  child : ∃ d, (t.slots np).proc = (s.slots i).proc.child d ∧
    ChildSpace s.phys t.phys (s.slots i).proc.pgdir d (s.slots i).proc.sz
  state : ∀ j, j ≠ np → (t.slots j).state = (s.slots j).state
  kstack : ∀ j, j ≠ np → (t.slots j).kstack = (s.slots j).kstack
  proc : ∀ j, j ≠ np → (t.slots j).proc = (s.slots j).proc
  files : t.FilesSound
  pipes : t.pipes = s.pipes

theorem allocproc_spec (s : Sys) : Sat allocproc s (fun r t => match r with
    | none => Unforked s t
    | some np => np < NPROC ∧ (s.slots np).state = .UNUSED ∧ ∃ f m,
        s.phys.freelist = f :: m.freelist ∧ m.bytes = s.phys.bytes ∧ m.image = s.phys.image ∧
        t = { s with
          phys := m
          nextpid := s.nextpid + 1
          slots := update s.slots np
            { s.slots np with state := .EMBRYO, pid := s.nextpid, kstack := some f } }) noExit := by
  rw [allocproc, sat_bind, sat_get]
  cases found : (List.range NPROC).find? fun i => (s.slots i).state = .UNUSED with
  | none => exact ⟨.refl _ _, fun _ => rfl, fun _ _ => rfl, rfl, rfl, fun _ => rfl⟩
  | some np =>
    have unused : (s.slots np).state = .UNUSED := by simpa using List.find?_some found
    have bound := List.mem_range.mp (List.mem_of_find?_eq_some found)
    dsimp only
    simp only [sat_bind, modifySlot, sat_modify, sysPhys, sat_zoom]
    refine (kalloc_spec _).imp (fun r m taken => ?_)
    cases r with
    | none =>
      subst taken
      simp only [sat_bind, sat_modify, sat_pure]
      refine ⟨.refl _ _, fun j => ?_, fun j used => ?_, rfl, rfl, fun j => ?_⟩
      · by_cases here : j = np
        · subst here
          simp only [Sys.setSlot, update_self, unused]
        · simp only [Sys.setSlot, update_of_ne here]
      · have ne : j ≠ np := by
          rintro rfl
          exact used unused
        simp only [Sys.setSlot, update_of_ne ne]
      · by_cases here : j = np
        · subst here
          simp only [Sys.setSlot, update_self]
        · simp only [Sys.setSlot, update_of_ne here]
    | some f =>
      obtain ⟨list, bytes, image⟩ := taken
      simp only [sat_bind, sat_modify, sat_pure]
      refine ⟨bound, unused, f, m, list, bytes, image, ?_⟩
      simp only [Sys.setSlot, update_self, update_idem]

theorem forkSpace_spec {pool lost : Multiset Nat} {s : Sys} (owned : s.Owned pool lost) {i : Nat}
    (hi : i < NPROC) (used : (s.slots i).state ≠ .UNUSED) :
    Sat (forkSpace i) s (fun r t => match r with
      | none => Unforked s t
      | some np => np < NPROC ∧ Spaced i np s t) noExit := by
  rw [forkSpace]
  refine .bind (allocproc_spec s) fun r t taken => ?_
  cases r with
  | none => exact taken
  | some np =>
    obtain ⟨bound, unused, f, m, list, bytes, image, rfl⟩ := taken
    have sound := owned.view hi used
    have stack := kalloc_moves list bytes image
    have ne : i ≠ np := by
      rintro rfl
      exact used unused
    have nodup : s.phys.freelist.Nodup := sound.free
    have within : ∀ g, g ∈ m.freelist → g ∈ s.phys.freelist := fun g member => by
      rw [list]
      exact List.mem_cons_of_mem f member
    dsimp only
    rw [sat_bind, sat_get]
    dsimp only
    rw [update_of_ne ne, sat_bind, sysPhys, sat_zoom]
    refine (copyuvm_spec _ _ m (nodup_of_le stack.free_le nodup)
      (fun v half mapped member => sound.not_free half mapped (within _ member))
      sound.size).imp (fun r m' copied => ?_)
    cases r with
    | none =>
      dsimp only
      rw [sat_bind, sat_get]
      refine .bind (freeStack_spec _ _) ?_
      rintro _ _ ⟨g, m'', held, freed, rfl⟩
      have same : g = f := by simpa using held.symm
      subst same
      simp only [sat_bind, modifySlot, sat_modify, sat_pure]
      refine ⟨?_, fun j => ?_, fun j busy => ?_, rfl, rfl, fun j => ?_⟩
      · exact (stack.trans (by simpa only [zero_add] using copied.frame {g})).trans freed
      · by_cases here : j = np
        · subst here
          simp only [Sys.setSlot, update_self, unused]
        · simp only [Sys.setSlot, update_of_ne here]
      · have ne : j ≠ np := by
          rintro rfl
          exact busy unused
        simp only [Sys.setSlot, update_of_ne ne]
      · by_cases here : j = np
        · subst here
          simp only [Sys.setSlot, update_self]
        · simp only [Sys.setSlot, update_of_ne here]
    | some d =>
      obtain ⟨moves, kernel, pages, rest⟩ := copied
      dsimp only
      simp only [sat_bind, modifySlot, sat_modify, sat_pure]
      refine ⟨bound, unused, ?_, ?_, ?_, ⟨d, ?_, kernel, fun v below => ?_, rest⟩, fun j ne => ?_,
        rfl, rfl⟩
      · simp only [Sys.setSlot, update_self]
      · simp only [Sys.setSlot, update_self]
      · simp only [Sys.setSlot, update_self, Slot.frames]
        rw [if_neg (by simp)]
        change Moves s.phys m' 0 ({f} + d.frames)
        exact stack.trans (by simpa only [add_zero] using moves.frame_left {f})
      · simp only [Sys.setSlot, update_self]
      · obtain ⟨mapped, g, member, copy, same⟩ := pages v below
        exact ⟨mapped, g, within g member, copy, same.trans (congrFun bytes _)⟩
      · simp only [Sys.setSlot, update_of_ne ne]

theorem fork_eq (i : Nat) : fork i = do
    match ← forkSpace i with
    | none => return -1
    | some np =>
      dupFiles i np NOFILE
      modifySlot np fun slot => { slot with state := .RUNNABLE }
      return ((← get).slots np).pid := by
  rw [fork, forkSpace, bind_assoc]
  congr 1
  funext r
  cases r with
  | none => rw [pure_bind]
  | some np =>
    dsimp only
    rw [bind_assoc]
    congr 1
    funext s
    rw [bind_assoc]
    congr 1
    funext r
    cases r with
    | none => simp only [bind_assoc, pure_bind]
    | some d => simp only [bind_assoc, pure_bind]

theorem fork_spec {pool lost : Multiset Nat} {s : Sys} (owned : s.Owned pool lost) {i : Nat}
    (hi : i < NPROC) (used : (s.slots i).state ≠ .UNUSED) :
    Sat (fork i) s (fun r t => r = -1 ∧ Unforked s t ∨ ∃ np < NPROC, Forked i np s t) noExit := by
  rw [fork_eq]
  refine .bind (forkSpace_spec owned hi used) fun r t made => ?_
  cases r with
  | none => exact Or.inl ⟨rfl, made⟩
  | some np =>
    obtain ⟨bound, spaced⟩ := made
    dsimp only
    refine .bind (dupFiles_spec (owned.files.congr spaced.files spaced.pipes) i np NOFILE) ?_
    rintro _ u ⟨step, phys, pipes⟩
    simp only [sat_bind, modifySlot, sat_modify, sat_get, sat_pure]
    have frames : ({ u.slots np with state := .RUNNABLE } : Slot).frames = (t.slots np).frames := by
      rw [Slot.frames, Slot.frames, if_neg (by simp), if_neg (by rw [spaced.embryo]; rintro ⟨⟩),
        step.kstack np, step.proc np]
    have other : ∀ j, j ≠ np → (u.slots j).state = (s.slots j).state ∧
        (u.slots j).kstack = (s.slots j).kstack ∧ (u.slots j).proc = (s.slots j).proc := by
      intro j ne
      rw [step.state j, step.kstack j, step.proc j, spaced.other j ne]
      exact ⟨rfl, rfl, rfl⟩
    obtain ⟨d, child, space⟩ := spaced.child
    refine Or.inr ⟨np, bound, spaced.unused, ?_, ?_, ⟨d, ?_, ?_⟩, fun j ne => ?_, fun j ne => ?_,
      fun j ne => ?_, step.files.congr rfl rfl, pipes.trans spaced.pipes⟩
    · simp only [Sys.setSlot, update_self]
    · simp only [Sys.setSlot, update_self, frames, phys]
      exact spaced.account
    · simp only [Sys.setSlot, update_self, step.proc np, child]
    · simp only [Sys.setSlot, phys]
      exact space
    · simp only [Sys.setSlot, update_of_ne ne, other j ne]
    · simp only [Sys.setSlot, update_of_ne ne, other j ne]
    · simp only [Sys.setSlot, update_of_ne ne, other j ne]

theorem ChildSpace.sound {m m' : Phys} {parent child : PgDir} {sz : Nat}
    (space : ChildSpace m m' parent child sz) (sound : parent.Sound) : child.Sound := by
  refine ⟨fun v => ?_, fun v kernel => (space.kernel v kernel).2⟩
  by_cases below : v * 4096 < sz
  · obtain ⟨mapped, f, _, copy, _⟩ := space.pages v below
    rw [copy]
    obtain zero | facts := sound.tidy v
    · rw [zero] at mapped
      simp at mapped
    · exact Or.inr facts
  · by_cases half : v < 2 ^ 19
    · exact Or.inl (space.rest v half (by omega))
    · exact (space.kernel v (by omega)).1

namespace Sys.Owned
variable {pool lost : Multiset Nat} {s t : Sys}

theorem unforked (owned : s.Owned pool lost) (failed : Unforked s t) : t.Owned pool lost := by
  have procs : t.procFrames = s.procFrames := by
    refine Tally.total_congr fun j _ => ?_
    by_cases used : (s.slots j).state = .UNUSED
    · rw [Slot.frames, Slot.frames, if_pos used, if_pos ((failed.state j).trans used)]
    · rw [failed.slot j used]
  refine ⟨?_, owned.nodup, owned.range, owned.files.congr failed.files failed.pipes,
    fun j hj busy => ?_⟩
  · have sum := failed.moves.sum
    rw [add_zero, add_zero] at sum
    rw [← owned.account, procs, pipeFrames_congr failed.pipes, sum]
  · have used : (s.slots j).state ≠ .UNUSED := by rwa [← failed.state j]
    rw [failed.slot j used]
    exact owned.dirs j hj used

theorem forked (owned : s.Owned pool lost) {i np : Nat} (hi : i < NPROC) (hn : np < NPROC)
    (used : (s.slots i).state ≠ .UNUSED) (forked : Forked i np s t) : t.Owned pool lost := by
  have before : (s.slots np).frames = 0 := by rw [Slot.frames, if_pos forked.unused]
  have procs := Tally.total_change (f := fun k => (s.slots k).frames)
    (g := fun k => (t.slots k).frames) hn (fun k _ ne => by
      simp only [Slot.frames, forked.state k ne, forked.kstack k ne, forked.proc k ne])
  refine ⟨?_, owned.nodup, owned.range, forked.files, fun j hj busy => ?_⟩
  · have sum := forked.account.sum
    rw [← owned.account, pipeFrames_congr forked.pipes]
    simp only [before, Sys.procFrames] at procs ⊢
    ext f
    have procs := congrArg (Multiset.count f) procs
    have sum := congrArg (Multiset.count f) sum
    simp only [Multiset.count_add, Multiset.count_zero] at procs sum ⊢
    omega
  · by_cases here : j = np
    · subst here
      obtain ⟨d, child, space⟩ := forked.child
      obtain ⟨dir, size⟩ := owned.dirs i hi used
      rw [child]
      exact ⟨space.sound dir, size⟩
    · rw [forked.state j here] at busy
      rw [forked.proc j here]
      exact owned.dirs j hj busy

end Sys.Owned
end Xv6
