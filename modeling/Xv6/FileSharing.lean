import Xv6.FileRefs
import Xv6.PageOwnership

/-! What each system call does to the references of its process, and the reference
counts of the file table over every interleaving of calls. -/
namespace Xv6
open Control
open Threads (Prog Discipline)
open Threads.Prog (atomic)
open Function (update update_apply update_eq_self update_of_ne update_self)

/-! The memory system knows nothing of the counts. -/

section Memory

instance : Stop.Panics Stop.Counted where
  kfree := Stop.Ordinary.kfree.counted
  clearpteu := Stop.Ordinary.clearpteu.counted
  loaduvm := Stop.Ordinary.loaduvm.counted
  unaligned := Stop.Ordinary.unaligned.counted

theorem remap_counted : Stop.Counted (.panic "p4Debug, remapping page") := by simp [Stop.Counted]

theorem copyuvm_counted (pgdir : PgDir) (sz : Nat) : Only Stop.Counted (copyuvm pgdir sz) := by
  have loop : ∀ n d i, Only Stop.Counted (copyuvmLoop pgdir n d i) := by
    intro n
    induction n with
    | zero => exact fun _ _ => .pure _
    | succ n ih =>
      intro d i
      unfold copyuvmLoop
      split
      · exact .throw (by simp [Stop.Counted])
      · refine .ite (.bind kalloc_only fun r => ?_) (.throw (by simp [Stop.Counted]))
        cases r with
        | none => exact .bind (freevm_only _) fun _ => .pure _
        | some mem =>
          refine .bind (.modify _) fun _ => .bind (mappages_only remap_counted _ _ _ _ _) fun r => ?_
          obtain ⟨ok, d⟩ := r
          cases ok with
          | false => exact .bind (kfree_only _) fun _ => .bind (freevm_only _) fun _ => .pure _
          | true => exact ih _ _
  refine .bind setupkvm_only fun r => ?_
  cases r with
  | none => exact .pure _
  | some d => exact loop _ _ _

theorem growproc_counted (n : Int) : Only Stop.Counted (growproc n) :=
  (growproc_steady (fun _ => Stop.Ordinary.counted) remap_counted n).only

theorem sysExec_counted (namei : List UInt8 → Option Inode) (path uargv : Nat) :
    Only Stop.Counted (sysExec namei path uargv) :=
  (sysExec_steady (fun _ => Stop.Ordinary.counted) remap_counted namei path uargv).only

end Memory

section Sections
variable {pool : Multiset Nat} {i : Nat} {g : Share}

/-- A section that works on the memory of the process. The process may have to exit. -/
theorem holds_own {k : K Int} (hi : i < NPROC) (live : g.live = true)
    (counted : Only Stop.Counted k)
    (settles : ∀ st : St, st.Sound → Sat k st (fun _ st' => ∃ L, Settles st st' L)
      (fun e st' => e = .exit → ∃ L, Settles st st' L)) :
    (fileDiscipline pool).Holds i (atomic (catchExit (onProc i k))) g (fun _ g' => g' = g) := by
  refine holds_section live fun G s own shared => ?_
  subst own
  obtain ⟨lost, owned⟩ := shared.owned
  have used : (s.slots i).state ≠ .UNUSED := live_used (by rw [← shared.live i hi, live])
  have put : ∀ st L, Settles (s.view i) st L → FreesOnce s (s.put i st) ∧
      ∃ g', Shared pool (update G i g') (s.put i st) ∧ g' = G i := by
    intro st L settled
    refine ⟨.of_pipes rfl, G i, ?_, rfl⟩
    rw [update_eq_self]
    refine shared.same ⟨_, owned.settled hi used settled⟩ rfl (fun j => by rw [s.put_state])
      (fun j => by rw [s.put_state]) fun j => ?_
    by_cases here : j = i
    · subst here
      simp only [Sys.put, Sys.setSlot, update_self]
    · rw [s.put_slots_of_ne here]
  rw [catchExit, sat_tryCatch, sat_bind, onProc, sat_zoom]
  refine ((settles _ (owned.view hi used)).and (counted _)).mono ?_ ?_
  · rintro r st ⟨⟨L, settled⟩, _⟩
    exact put st L settled
  · rintro e st ⟨settled, counted⟩
    cases e with
    | exit =>
      obtain ⟨L, settled⟩ := settled rfl
      exact put st L settled
    | _ => exact counted

theorem FileStep.retyped {s : Sys} (sound : s.FilesSound) {f : Nat} (new : File)
    (before : (s.files f).type ≠ .FD_PIPE) (after : new.type ≠ .FD_PIPE) :
    FileStep s (s.setFile f new) := by
  have here : (s.setFile f new).files f = new := update_self _ _ _
  have other : ∀ k, k ≠ f → (s.setFile f new).files k = s.files k :=
    fun k ne => update_of_ne ne _ _
  have ends : ∀ k, ((s.setFile f new).files k).type = .FD_PIPE → k ≠ f := by
    rintro k kind rfl
    rw [here] at kind
    exact after kind
  refine ⟨.refl _ _, ⟨fun k free => ?_, fun k kind => ?_, fun k l kind kind' => ?_, fun p w opened => ?_,
    sound.range⟩, fun _ => rfl, fun _ => rfl, fun _ => rfl, fun _ => rfl, rfl⟩
  · by_cases same : k = f
    · rw [same, here]
      exact after
    · rw [other k same] at free ⊢
      exact sound.idle k free
  · have ne := ends k kind
    rw [other k ne] at kind ⊢
    exact sound.ends k kind
  · have ne := ends k kind
    have ne' := ends l kind'
    rw [other k ne, other l ne'] at *
    exact sound.single k l kind kind'
  · obtain ⟨k, kind, facts⟩ := sound.held p w opened
    have ne : k ≠ f := by
      rintro rfl
      exact before kind
    exact ⟨k, by rw [other k ne]; exact ⟨kind, facts⟩⟩

/-- The file that a process has allocated becomes an inode. -/
theorem holds_setInode {f : Nat} (hi : i < NPROC) (live : g.live = true) (fresh : f ∈ g.fresh)
    (writable : Bool) :
    (fileDiscipline pool).Holds i
      (atomic (modifyFile f fun f => { f with type := .FD_INODE, writable := writable })) g
      (fun _ g' => g' = { g with fresh := g.fresh.filter (· ≠ f) }) := by
  refine holds_section live fun G s own shared => ?_
  subst own
  obtain ⟨lost, owned⟩ := shared.owned
  obtain ⟨kind, one, _⟩ := shared.fresh i hi f fresh
  rw [modifyFile, sat_modify]
  have step := FileStep.retyped owned.files (f := f)
    { s.files f with type := .FD_INODE, writable := writable } (by rw [kind]; rintro ⟨⟩) (by simp)
  have here : (s.setFile f { s.files f with type := .FD_INODE, writable := writable }).files f =
      { s.files f with type := .FD_INODE, writable := writable } := update_self _ _ _
  have other : ∀ k, k ≠ f →
      (s.setFile f { s.files f with type := .FD_INODE, writable := writable }).files k = s.files k :=
    fun k ne => update_of_ne ne _ _
  refine ⟨.of_pipes rfl, { G i with fresh := (G i).fresh.filter (· ≠ f) },
    shared.refile hi live ⟨lost, owned.fileStep step⟩ rfl (fun k => ?_) (fun k free => ?_)
    (fun j hj ne k setting => ?_) (fun k setting => ?_) rfl rfl rfl, rfl⟩
  · by_cases same : k = f
    · rw [same, here]
    · rw [other k same]
  · by_cases same : k = f
    · rw [same, here] at free
      dsimp only at free
      omega
    · rw [other k same] at free ⊢
      exact shared.idle k free
  · apply other
    rintro rfl
    obtain ⟨_, _, mine⟩ := shared.fresh i hi k fresh
    have none := shared.fresh_apart hi hj ne.symm setting
    omega
  · obtain ⟨member, ne⟩ := List.mem_filter.mp setting
    have ne : k ≠ f := by simpa using ne
    rw [other k ne]
    exact shared.fresh i hi k member

/-- The two files that a process has allocated become the ends of a pipe. -/
theorem holds_pipeSetup {f0 f1 : Nat} (hi : i < NPROC) (live : g.live = true) (ne : f0 ≠ f1)
    (fresh0 : f0 ∈ g.fresh) (fresh1 : f1 ∈ g.fresh) :
    (fileDiscipline pool).Holds i (atomic (pipeSetup f0 f1)) g (fun ok g' =>
      if ok then g' = { g with fresh := g.fresh.filter fun k => k ≠ f0 ∧ k ≠ f1 } else g' = g) := by
  refine holds_section live fun G s own shared => ?_
  subst own
  obtain ⟨lost, owned⟩ := shared.owned
  obtain ⟨kind0, one0, mine0⟩ := shared.fresh i hi f0 fresh0
  obtain ⟨kind1, one1, mine1⟩ := shared.fresh i hi f1 fresh1
  rw [pipeSetup, sat_bind, sysPhys, sat_zoom]
  refine (kalloc_only.sat (kalloc_spec s.phys)).mono (fun r m taken => ?_)
    fun _ _ => Stop.Ordinary.counted
  cases r with
  | none =>
    subst taken
    refine ⟨.of_pipes rfl, G i, ?_, rfl⟩
    rwa [update_eq_self]
  | some p =>
    obtain ⟨list, bytes, image⟩ := taken
    obtain ⟨bound, unused⟩ := owned.free_pipe (by rw [list]; exact List.mem_cons_self)
    simp only [sat_bind, sat_modify, modifyFile, sat_pure]
    suffices done : ∀ t : Sys, t.phys = m → t.slots = s.slots → t.initproc = s.initproc →
        t.pipes = update s.pipes p ⟨true, true⟩ →
        t.files = update (update s.files f0
          { s.files f0 with type := .FD_PIPE, writable := false, pipe := p }) f1
          { s.files f1 with type := .FD_PIPE, writable := true, pipe := p } →
        FreesOnce s t ∧ ∃ g', Shared pool (update G i g') t ∧
          if true then g' = { G i with fresh := (G i).fresh.filter fun k => k ≠ f0 ∧ k ≠ f1 }
          else g' = G i by
      refine done _ rfl rfl rfl rfl ?_
      simp [Sys.setFile, Sys.setPipe, update_of_ne ne.symm]
    intro t phys slots init pipes files
    have step := FileStep.piped (t := t) owned.files ne (by rw [kind0]; rintro ⟨⟩) (by rw [kind1]; rintro ⟨⟩)
      (by omega) (by omega) bound unused (by rw [phys]; exact kalloc_moves list bytes image) slots init
      pipes files
    have file0 : t.files f0 = { s.files f0 with type := .FD_PIPE, writable := false, pipe := p } := by
      rw [files, update_of_ne ne, update_self]
    have file1 : t.files f1 = { s.files f1 with type := .FD_PIPE, writable := true, pipe := p } := by
      rw [files, update_self]
    have other : ∀ k, k ≠ f0 → k ≠ f1 → t.files k = s.files k := by
      intro k ne0 ne1
      rw [files, update_of_ne ne1, update_of_ne ne0]
    have count : ∀ k, (t.files k).ref = (s.files k).ref := by
      intro k
      by_cases h0 : k = f0
      · rw [h0, file0]
      · by_cases h1 : k = f1
        · rw [h1, file1]
        · rw [other k h0 h1]
    refine ⟨fun q used gone => ?_, { G i with fresh := (G i).fresh.filter fun k => k ≠ f0 ∧ k ≠ f1 },
      shared.refile hi live ⟨lost, owned.fileStep step⟩ slots (fun k => by rw [count k])
      (fun k free => ?_) (fun j hj ne' k setting => ?_) (fun k setting => ?_) rfl rfl rfl, rfl⟩
    · by_cases same : q = p
      · rw [same, pipes, update_self] at gone
        cases gone
      · rw [pipes, update_of_ne same, used] at gone
        cases gone
    · rw [count k] at free
      have ne0 : k ≠ f0 := by
        rintro rfl
        omega
      have ne1 : k ≠ f1 := by
        rintro rfl
        omega
      rw [other k ne0 ne1]
      exact shared.idle k free
    · have none := shared.fresh_apart hi hj ne'.symm setting
      refine other k ?_ ?_
      · rintro rfl
        omega
      · rintro rfl
        omega
    · obtain ⟨member, apart⟩ := List.mem_filter.mp setting
      have apart : k ≠ f0 ∧ k ≠ f1 := by simpa using apart
      rw [other k apart.1 apart.2]
      exact shared.fresh i hi k member

/-- `fork` fills a descriptor of the new slot. -/
theorem holds_setFd_child {np fd : Nat} {table : Nat → Option Nat} (hi : i < NPROC)
    (live : g.live = true) (filling : g.child = some (np, table)) (f : Option Nat) :
    (fileDiscipline pool).Holds i (atomic (setFd np fd f)) g (fun _ g' =>
      g' = { g with child := some (np, update table fd f) }) := by
  refine holds_section live fun G s own shared => ?_
  subst own
  obtain ⟨lost, owned⟩ := shared.owned
  obtain ⟨bound, embryo, same⟩ := shared.child i hi np table filling
  have step := (setFd_spec owned.files np fd f).of_ok (t := s.setSlot np { s.slots np with
    ofile := update (s.slots np).ofile fd f }) (a := ()) rfl
  rw [setFd, modifySlot, sat_modify]
  have mine : (s.setSlot np { s.slots np with
      ofile := update (s.slots np).ofile fd f }).slots np =
      { s.slots np with ofile := update (s.slots np).ofile fd f } := update_self _ _ _
  have other : ∀ j, j ≠ np → (s.setSlot np { s.slots np with
      ofile := update (s.slots np).ofile fd f }).slots j = s.slots j :=
    fun j ne => update_of_ne ne _ _
  have apart : ∀ j, (s.slots j).state.live = true → j ≠ np := by
    rintro j alive rfl
    rw [embryo] at alive
    cases alive
  have me := apart i (by rw [← shared.live i hi, live])
  refine ⟨.of_pipes rfl, { G i with child := some (np, update table fd f) },
    shared.step hi ⟨lost, owned.fileStep step.1⟩ (fun _ => rfl) shared.idle (fun _ _ _ _ _ => rfl)
    (shared.fresh i hi) ?_ ?_ ?_ ?_ ?_ ?_ ?_ ?_, rfl⟩
  · rw [other i me]
    exact shared.live i hi
  · rw [other i me]
    exact shared.table i hi
  · intro j _ _
    by_cases here : j = np
    · rw [here, mine]
    · rw [other j here]
  · intro j _ _ alive
    rw [other j (apart j alive)]
  · intro j hj ne np' table' filling'
    have differ : np' ≠ np := by
      rintro rfl
      exact ne (shared.single j hj i hi np' table' table filling' filling)
    rw [other np' differ]
    exact ⟨(shared.child j hj np' table' filling').2.1, rfl⟩
  · intro np' table' filling'
    obtain ⟨rfl, rfl⟩ := Prod.mk.inj (Option.some.inj filling')
    rw [mine]
    refine ⟨bound, embryo, by rw [same], fun j hj ne b other => ne ?_⟩
    exact shared.single j hj i hi np b table other filling
  · intro j hj idle unfilled
    have ne : j ≠ np := by
      rintro rfl
      exact unfilled i hi (update table fd f) (by rw [update_self])
    rw [other j ne] at idle ⊢
    refine shared.empty j hj idle (unfilled.of_update fun _ table' filling' => absurd ?_ ne)
    rw [filling] at filling'
    exact (Prod.mk.inj (Option.some.inj filling')).1.symm
  · intro dead
    exact absurd live (by rw [show (G i).live = false from dead]; rintro ⟨⟩)

theorem forkSpace_counted (i : Nat) : Only Stop.Counted (forkSpace i) := by
  have ordinary : ∀ e : Stop, e.Ordinary → e.Counted := fun _ => Stop.Ordinary.counted
  refine .bind (allocproc_only.mono ordinary) fun r => ?_
  cases r with
  | none => exact .pure _
  | some np =>
    refine .bind .get fun s => .bind (.zoom (copyuvm_counted _ _)) fun r => ?_
    cases r with
    | none =>
      exact .bind .get fun _ => .bind ((freeStack_only _).mono ordinary) fun _ =>
        .bind (.modify _) fun _ => .pure _
    | some d => exact .bind (.modify _) fun _ => .pure _

theorem Sys.Owned.spaced {s t : Sys} {lost : Multiset Nat} {np : Nat} (owned : s.Owned pool lost)
    (hi : i < NPROC) (hn : np < NPROC) (used : (s.slots i).state ≠ .UNUSED)
    (spaced : Spaced i np s t) : t.Owned pool lost := by
  have before : (s.slots np).frames = 0 := by rw [Slot.frames, if_pos spaced.unused]
  have procs := Tally.total_change (f := fun k => (s.slots k).frames)
    (g := fun k => (t.slots k).frames) hn (fun k _ ne => by rw [spaced.other k ne])
  refine ⟨?_, owned.nodup, owned.range, owned.files.congr spaced.files spaced.pipes,
    fun j hj busy => ?_⟩
  · have sum := spaced.account.sum
    rw [← owned.account, pipeFrames_congr spaced.pipes]
    simp only [before, Sys.procFrames] at procs ⊢
    ext f
    have procs := congrArg (Multiset.count f) procs
    have sum := congrArg (Multiset.count f) sum
    simp only [Multiset.count_add, Multiset.count_zero] at procs sum ⊢
    omega
  · by_cases here : j = np
    · subst here
      obtain ⟨d, child, space⟩ := spaced.child
      obtain ⟨dir, size⟩ := owned.dirs i hi used
      rw [child]
      exact ⟨space.sound dir, size⟩
    · rw [spaced.other j here] at busy ⊢
      exact owned.dirs j hj busy

theorem holds_forkSpace (hi : i < NPROC) (live : g.live = true) (free : g.child = none) :
    (fileDiscipline pool).Holds i (atomic (forkSpace i)) g (fun r g' => match r with
      | none => g' = g
      | some np => ∃ table, (∀ fd < NOFILE, table fd = none) ∧
          g' = { g with child := some (np, table) }) := by
  refine holds_section live fun G s own shared => ?_
  subst own
  obtain ⟨lost, owned⟩ := shared.owned
  have alive : (s.slots i).state.live = true := by rw [← shared.live i hi, live]
  refine ((forkSpace_counted i).sat (forkSpace_spec owned hi (live_used alive))).imp
    (fun r t made => ?_)
  cases r with
  | none =>
    refine ⟨.of_pipes made.pipes, G i, ?_, rfl⟩
    rw [update_eq_self]
    exact shared.same ⟨lost, owned.unforked made⟩ made.files (fun j => by rw [made.state j])
      (fun j => by rw [made.state j]) made.ofile
  | some np =>
    obtain ⟨bound, spaced⟩ := made
    have unused : (s.slots np).state.live = false := by rw [spaced.unused]; rfl
    have me : i ≠ np := by
      rintro rfl
      rw [unused] at alive
      cases alive
    have embryo : ∀ j < NPROC, ∀ np' table, (G j).child = some (np', table) → np' ≠ np := by
      rintro j hj np' table filling rfl
      have growing := (shared.child j hj np' table filling).2.1
      rw [spaced.unused] at growing
      cases growing
    refine ⟨.of_pipes spaced.pipes, { G i with child := some (np, (s.slots np).ofile) },
      shared.step hi ⟨lost, owned.spaced hi bound (live_used alive) spaced⟩
      (fun k => by rw [spaced.files]) ?_ ?_ ?_ ?_ ?_ ?_ ?_ ?_ ?_ ?_ ?_, (s.slots np).ofile, ?_, rfl⟩
    · rw [spaced.files]
      exact shared.idle
    · intro _ _ _ _ _
      rw [spaced.files]
    · rw [spaced.files]
      exact shared.fresh i hi
    · rw [spaced.other i me]
      exact shared.live i hi
    · rw [spaced.other i me]
      exact shared.table i hi
    · intro j _ _
      by_cases here : j = np
      · rw [here, spaced.embryo, unused]
        rfl
      · rw [spaced.other j here]
    · intro j _ _ alive'
      have ne : j ≠ np := by
        rintro rfl
        rw [unused] at alive'
        cases alive'
      rw [spaced.other j ne]
    · intro j hj _ np' table filling
      rw [spaced.other np' (embryo j hj np' table filling)]
      exact ⟨(shared.child j hj np' table filling).2.1, rfl⟩
    · intro np' table filling
      cases filling
      exact ⟨bound, spaced.embryo, spaced.ofile,
        fun j hj _ b other => embryo j hj np b other rfl⟩
    · intro j hj idle unfilled
      have ne : j ≠ np := by
        rintro rfl
        exact unfilled i hi (s.slots j).ofile (by rw [update_self])
      rw [spaced.other j ne] at idle ⊢
      refine shared.empty j hj idle (unfilled.of_update fun _ table filling => ?_)
      rw [free] at filling
      cases filling
    · intro dead
      exact absurd live (by rw [show (G i).live = false from dead]; nofun)
    · exact shared.empty np bound unused fun j hj table filling => embryo j hj np table filling rfl

/-! The birth of a child: it holds its descriptors from now on, and its parent no longer
does. -/

section Birth
variable {G : Nat → Share} {s : Sys} {np : Nat} {table : Nat → Option Nat}

/-- What the processes hold once process `i` has handed `table` to the child in slot `np`. -/
def Share.born (G : Nat → Share) (i np : Nat) (table : Nat → Option Nat) : Nat → Share :=
  update (update G i ((G i).handOver table)) np (.start table)

theorem born_child : Share.born G i np table np = .start table := update_self _ _ _

theorem born_parent (ne : i ≠ np) : Share.born G i np table i = (G i).handOver table := by
  rw [Share.born, update_of_ne ne, update_self]

theorem born_other {j : Nat} (ne : j ≠ np) (ne' : j ≠ i) : Share.born G i np table j = G j := by
  rw [Share.born, update_of_ne ne, update_of_ne ne']

/-- Only references pass to the child, and the parent is filling no slot any more. -/
theorem born_of_ne {j : Nat} (ne : j ≠ np) :
    (Share.born G i np table j).live = (G j).live ∧ (Share.born G i np table j).table = (G j).table ∧
      (Share.born G i np table j).fresh = (G j).fresh := by
  by_cases here : j = i
  · subst here
    simp only [born_parent ne, Share.handOver, and_self]
  · simp only [born_other ne here, and_self]

theorem born_filling {j : Nat} {c : Nat × (Nat → Option Nat)}
    (filling : (Share.born G i np table j).child = some c) : j ≠ np ∧ j ≠ i ∧ (G j).child = some c := by
  have ne : j ≠ np := by
    rintro rfl
    rw [born_child] at filling
    cases filling
  have ne' : j ≠ i := by
    rintro rfl
    rw [born_parent ne] at filling
    cases filling
  rw [born_other ne ne'] at filling
  exact ⟨ne, ne', filling⟩

/-- The references that the child holds are those that its parent gives up. -/
theorem born_count (hi : i < NPROC) (bound : np < NPROC) (me : i ≠ np) (none : ∀ k, (G np).own k = 0)
    (enough : ∀ k, refs table k ≤ (G i).own k) (k : Nat) :
    ∑ j ∈ Finset.range NPROC, (Share.born G i np table j).own k =
      ∑ j ∈ Finset.range NPROC, (G j).own k := by
  have first := Shared.sum_update G ((G i).handOver table) hi k
  have second := Shared.sum_update (update G i ((G i).handOver table)) (.start table) bound k
  rw [update_of_ne me.symm, none k, Nat.add_zero] at second
  rw [Share.born, second]
  apply Nat.add_right_cancel (m := (G i).own k)
  rw [Nat.add_right_comm, first, Nat.add_assoc]
  exact congrArg _ (Nat.sub_add_cancel (enough k))

/-- A new process owns the same frames before and after it is set to run. -/
theorem Sys.Owned.runs {lost : Multiset Nat} (owned : s.Owned pool lost) (bound : np < NPROC)
    (embryo : (s.slots np).state = .EMBRYO) :
    (s.setSlot np { s.slots np with state := .RUNNABLE }).Owned pool lost := by
  have mine : (s.setSlot np { s.slots np with state := .RUNNABLE }).slots np =
      { s.slots np with state := .RUNNABLE } := update_self _ _ _
  have other : ∀ j, j ≠ np →
      (s.setSlot np { s.slots np with state := .RUNNABLE }).slots j = s.slots j :=
    fun j ne => update_of_ne ne _ _
  have used : (s.slots np).state ≠ .UNUSED := by
    rw [embryo]
    rintro ⟨⟩
  have procs : (s.setSlot np { s.slots np with state := .RUNNABLE }).procFrames = s.procFrames := by
    refine Tally.total_congr fun j _ => ?_
    by_cases here : j = np
    · rw [here, mine, Slot.frames, Slot.frames, if_neg (by simp), if_neg used]
    · rw [other j here]
  refine ⟨?_, owned.nodup, owned.range, owned.files.congr rfl rfl, fun j hj busy => ?_⟩
  · rw [← owned.account, procs]
    rfl
  · by_cases here : j = np
    · rw [here, mine]
      exact owned.dirs np bound used
    · rw [other j here] at busy ⊢
      exact owned.dirs j hj busy

theorem Shared.born (shared : Shared pool G s) (hi : i < NPROC) (live : (G i).live = true)
    (filling : (G i).child = some (np, table)) (enough : ∀ k, refs table k ≤ (G i).own k)
    (set : (G i).fresh = []) :
    Shared pool (Share.born G i np table) (s.setSlot np { s.slots np with state := .RUNNABLE }) := by
  obtain ⟨lost, owned⟩ := shared.owned
  obtain ⟨bound, embryo, same⟩ := shared.child i hi np table filling
  have dead : (G np).live = false := by
    rw [shared.live np bound, embryo]
    rfl
  have me : i ≠ np := by
    rintro rfl
    rw [live] at dead
    cases dead
  obtain ⟨childless, _, nothing⟩ := shared.gone np bound dead
  have mine : (s.setSlot np { s.slots np with state := .RUNNABLE }).slots np =
      { s.slots np with state := .RUNNABLE } := update_self _ _ _
  have other : ∀ j, j ≠ np →
      (s.setSlot np { s.slots np with state := .RUNNABLE }).slots j = s.slots j :=
    fun j ne => update_of_ne ne _ _
  refine ⟨⟨lost, owned.runs bound embryo⟩, fun k => ?_, shared.idle, fun j hj => ?_, fun j hj => ?_,
    fun j hj k => ?_, fun j hj np' table' filling' => ?_, fun a ha b hb np' x y fa fb => ?_,
    fun j hj idle unfilled => ?_, fun j hj => ?_⟩
  · rw [born_count hi bound me nothing enough k]
    exact shared.count k
  · by_cases new : j = np
    · rw [new, mine, born_child]
      rfl
    · rw [(born_of_ne new).1, other j new]
      exact shared.live j hj
  · by_cases new : j = np
    · rw [new, mine, born_child]
      exact fun _ => same
    · rw [(born_of_ne new).1, (born_of_ne new).2.1, other j new]
      exact shared.table j hj
  · by_cases new : j = np
    · rw [new, born_child]
      rintro ⟨⟩
    · rw [(born_of_ne new).2.2]
      by_cases parent : j = i
      · rw [parent, set]
        rintro ⟨⟩
      · rw [born_other new parent]
        exact shared.fresh j hj k
  · obtain ⟨_, ne, old⟩ := born_filling filling'
    have differ : np' ≠ np := by
      rintro rfl
      exact ne (shared.single j hj i hi np' table' table old filling)
    rw [other np' differ]
    exact shared.child j hj np' table' old
  · exact shared.single a ha b hb np' x y (born_filling fa).2.2 (born_filling fb).2.2
  · have ne : j ≠ np := by
      rintro rfl
      rw [mine] at idle
      cases idle
    rw [other j ne] at idle ⊢
    -- whoever is filling slot `j` is neither the parent nor the child
    refine shared.empty j hj idle fun l hl table' filling' => ?_
    by_cases parent : l = i
    · rw [parent, filling] at filling'
      exact ne (Prod.mk.inj (Option.some.inj filling')).1.symm
    · have old : l ≠ np := by
        rintro rfl
        rw [childless] at filling'
        cases filling'
      refine unfilled l hl table' ?_
      rwa [born_other old parent]
  · by_cases new : j = np
    · rw [new, born_child]
      rintro ⟨⟩
    · rw [(born_of_ne new).1]
      intro away
      have parent : j ≠ i := by
        rintro rfl
        rw [live] at away
        cases away
      rw [born_other new parent]
      exact shared.gone j hj away

end Birth

theorem holds_setRunnable {np : Nat} {table : Nat → Option Nat} (hi : i < NPROC)
    (live : g.live = true) (filling : g.child = some (np, table))
    (enough : ∀ k, refs table k ≤ g.own k) (set : g.fresh = []) :
    (fileDiscipline pool).Holds i (atomic (setRunnable np)) g (fun _ g' =>
      g' = g.handOver table) := by
  refine .atomic (by change ¬ g.live = false; rw [live]; nofun) fun G s own shared _ => ?_
  subst own
  simp only [setRunnable, sat_bind, modifySlot, sat_modify, sat_get, sat_pure]
  obtain ⟨bound, embryo, _⟩ := shared.child i hi np table filling
  have me : i ≠ np := by
    rintro rfl
    have alive := shared.live i hi
    rw [live, embryo] at alive
    cases alive
  refine ⟨.of_pipes rfl, _, shared.born hi live filling enough set, fun j ne => ?_, ?_⟩
  · by_cases here : j = np
    · right
      rw [here, born_child]
      refine ⟨?_, rfl, rfl, fun k => rfl⟩
      change (G np).live = false
      rw [shared.live np bound, embryo]
      rfl
    · left
      rw [born_other here ne]
  · rw [born_parent me]

theorem holds_abandon (hi : i < NPROC) (live : g.live = true) (free : g.child = none)
    (set : g.fresh = []) (none : ∀ fd < NOFILE, g.table fd = none) (nothing : ∀ k, g.own k = 0) :
    (fileDiscipline pool).Holds i (atomic (abandon i)) g (fun _ g' => g'.Resting) := by
  refine holds_section live fun G s own shared => ?_
  subst own
  obtain ⟨lost, owned⟩ := shared.owned
  have alive : (s.slots i).state.live = true := by rw [← shared.live i hi, live]
  simp only [abandon, sat_bind, modifySlot, sat_modify]
  suffices done : ∀ t : Sys, t.phys = s.phys → t.files = s.files → t.pipes = s.pipes →
      (∀ j, (t.slots j).state = if j = i then .ZOMBIE else (s.slots j).state) →
      (∀ j, (t.slots j).kstack = (s.slots j).kstack) → (∀ j, (t.slots j).proc = (s.slots j).proc) →
      (∀ j, (t.slots j).ofile = (s.slots j).ofile) →
      FreesOnce s t ∧ ∃ g', Shared pool (update G i g') t ∧ g'.Resting by
    have adopted : ∀ j, ((s.slots j).adopt i s.initproc).state = (s.slots j).state ∧
        ((s.slots j).adopt i s.initproc).kstack = (s.slots j).kstack ∧
        ((s.slots j).adopt i s.initproc).proc = (s.slots j).proc ∧
        ((s.slots j).adopt i s.initproc).ofile = (s.slots j).ofile := by
      intro j
      unfold Slot.adopt
      split <;> exact ⟨rfl, rfl, rfl, rfl⟩
    refine done _ rfl rfl rfl (fun j => ?_) (fun j => ?_) (fun j => ?_) (fun j => ?_)
    all_goals
      obtain ⟨state, kstack, proc, ofile⟩ := adopted j
      by_cases here : j = i
      · subst here
        simp only [Sys.setSlot, update_self, if_true, kstack, proc, ofile]
      · simp only [Sys.setSlot, update_of_ne here, if_neg here, state, kstack, proc, ofile]
  intro t phys files pipes state kstack proc ofile
  have exited : Exited i s t := by
    refine ⟨?_, owned.files.congr files pipes, state, kstack, proc⟩
    rw [phys, pipeFrames_congr pipes]
    exact .refl _ _
  have other : ∀ j, j ≠ i → (t.slots j).state = (s.slots j).state := by
    intro j ne
    rw [state j, if_neg ne]
  have apart : ∀ np, (s.slots np).state = .EMBRYO → np ≠ i := by
    rintro np growing rfl
    rw [growing] at alive
    cases alive
  have zombie : (t.slots i).state = .ZOMBIE := by rw [state i, if_pos rfl]
  refine ⟨.of_pipes pipes, ⟨false, (G i).table, fun _ => 0, [], .none⟩,
    shared.step hi ⟨lost, owned.exited exited (live_used alive)⟩ ?_ ?_ ?_ nofun ?_ nofun ?_ ?_ ?_ nofun
      ?_ ?_, rfl, rfl, fun k => rfl⟩
  · intro k
    rw [files, nothing k]
  · rw [files]
    exact shared.idle
  · intro _ _ _ _ _
    rw [files]
  · rw [zombie]
    rfl
  · intro j _ ne
    rw [other j ne]
  · intro j _ _ _
    exact ofile j
  · intro j hj _ np table filling
    have growing := (shared.child j hj np table filling).2.1
    rw [other np (apart np growing), ofile np]
    exact ⟨growing, rfl⟩
  · intro j hj idle unfilled
    rw [ofile j]
    by_cases here : j = i
    · rw [here, shared.table i hi live]
      exact none
    · rw [other j here] at idle
      refine shared.empty j hj idle (unfilled.of_update fun _ table filling => ?_)
      rw [free] at filling
      cases filling
  · exact fun _ => ⟨rfl, rfl, fun _ => rfl⟩

theorem holds_exitCheck (live : g.live = true) :
    (fileDiscipline pool).Holds i (atomic (exitCheck i)) g (fun _ g' => g' = g) := by
  refine holds_section live fun G s own shared => ?_
  subst own
  rw [exitCheck, sat_bind, sat_get]
  split
  · simp [Stop.Counted]
  · refine ⟨.of_pipes rfl, G i, ?_, rfl⟩
    rwa [update_eq_self]

theorem wait_ofile (s : Sys) (i : Nat) :
    Sat (wait i) s (fun _ t => ∀ j, (t.slots j).ofile = (s.slots j).ofile) (fun _ _ => True) := by
  rw [wait, sat_bind, sat_get]
  split
  · refine .seq (freeStack_spec s _) ?_ fun _ _ _ => trivial
    rintro _ _ ⟨f, m, _, _, rfl⟩
    rw [sat_bind, sysPhys, sat_zoom]
    refine (freevm_spec _ m).mono (fun _ m' _ => ?_) fun _ _ _ => trivial
    simp only [sat_bind, modifySlot, sat_modify, sat_pure]
    intro j
    rw [Sys.setSlot]
    dsimp only
    rw [update_apply]
    split
    · rename_i here
      rw [here]
    · rfl
  · split
    · trivial
    · exact fun _ => rfl

theorem holds_wait (live : g.live = true) :
    (fileDiscipline pool).Holds i (atomic (wait i)) g (fun _ g' => g' = g) := by
  have counted : Only Stop.Counted (wait i) := by
    have ordinary : ∀ e : Stop, e.Ordinary → e.Counted := fun _ => Stop.Ordinary.counted
    refine .bind .get fun s => ?_
    split
    · exact .bind ((freeStack_only _).mono ordinary) fun _ =>
        .bind (.zoom ((freevm_only _).mono ordinary)) fun _ => .bind (.modify _) fun _ => .pure _
    · exact .ite (.throw (by simp [Stop.Counted])) (.pure _)
  refine holds_section live fun G s own shared => ?_
  subst own
  obtain ⟨lost, owned⟩ := shared.owned
  refine (counted.sat ((wait_spec s i).and (wait_ofile s i))).imp ?_
  rintro r t ⟨rfl | ⟨j, hj, reaped⟩, ofile⟩
  · refine ⟨.of_pipes rfl, G i, ?_, rfl⟩
    rwa [update_eq_self]
  · refine ⟨.of_pipes reaped.pipes, G i, ?_, rfl⟩
    rw [update_eq_self]
    refine shared.same ⟨lost, owned.reaped hj reaped⟩ reaped.files (fun k => ?_) (fun k => ?_) ofile
    · by_cases here : k = j
      · rw [here, reaped.gone, reaped.zombie]
        rfl
      · rw [reaped.other k here]
    · by_cases here : k = j
      · rw [here, reaped.gone, reaped.zombie]
        exact ⟨by simp, by simp⟩
      · rw [reaped.other k here]

end Sections

end Xv6
