import Xv6.Ownership

/-! One event of the machine: what the process that acts does to its own memory,
and what the other processes keep. -/
namespace Xv6
open Control

/-- A call is judged by its body; a process that ends in it takes the exit path. -/
theorem sat_perform {s : Sys} {i : Nat} {call : Call} {Q : Option Int → Sys → Prop}
    (body : Sat (call.body i) s (fun r t => Q (some r) t)
      (fun e t => e = .exit → t.FilesSound ∧ ∀ u, Exited i t u → Q none u)) :
    Sat (perform i call) s Q (fun _ _ => True) := by
  rw [perform, sat_tryCatch, sat_bind]
  refine body.mono (fun r t done => done) (fun e t stop => ?_)
  cases e with
  | exit =>
    obtain ⟨files, after⟩ := stop rfl
    dsimp only
    exact .seq (exit_spec files i) (fun _ u exited => after u exited) (fun _ _ _ => trivial)
  | _ => trivial

theorem Sys.put_view (s : Sys) (i : Nat) : s.put i (s.view i) = s := by
  simp only [Sys.put, Sys.view, Sys.setSlot, Function.update_eq_self]

theorem Sys.view_put (s : Sys) (i : Nat) (st : St) : (s.put i st).view i = st := by
  simp only [Sys.put, Sys.view, Sys.setSlot, Function.update_self]

theorem Sys.put_slots_of_ne (s : Sys) {i j : Nat} (ne : j ≠ i) (st : St) :
    (s.put i st).slots j = s.slots j := by
  simp only [Sys.put, Sys.setSlot, Function.update_of_ne ne]

theorem Sys.put_state (s : Sys) (i j : Nat) (st : St) :
    ((s.put i st).slots j).state = (s.slots j).state := by
  by_cases here : j = i
  · subst here
    simp only [Sys.put, Sys.setSlot, Function.update_self]
  · rw [s.put_slots_of_ne here]

/-- What the accesses of the kernel do to a process; `exec` also resets `head`. -/
inductive Visits : Proc → Proc → Prop where
  | refl (p : Proc) : Visits p p
  | rewind {p q : Proc} : Visits p q → Visits p { q with head := 0 }
  | access {p : Proc} {s t : St} {user : Bool} {va f : Nat} : Visits p s.proc → s.Sound →
      va < 2 ^ 32 → (access user va).run s = .ok f t → Visits p t.proc

/-- A store into the memory of the process, as `storeInt` makes four of. -/
theorem store_visits {s t : St} (sound : s.Sound) (before : Touches s t ∧ Visits s.proc t.proc)
    {a : Nat} (bound : a < 2 ^ 31) (b : UInt8) :
    Sat (store false a b) t (fun _ u => Touches s u ∧ Visits s.proc u.proc)
      (fun e u => e ≠ .exit ∨ Touches s u) := by
  obtain ⟨touches, visits⟩ := before
  have sound := touches.sound sound
  have half : vpn a < 2 ^ 19 := by
    simp only [vpn, PGSIZE]
    omega
  have trail : Sat (store false a b) t (fun _ u => Visits s.proc u.proc) (fun _ _ => True) := by
    rw [store]
    refine .seq (sat_self (access false a) t) (fun f u run => ?_) (fun _ _ _ => trivial)
    exact show Visits s.proc u.proc from visits.access sound (by omega) run
  exact ((store_spec sound false a b (Or.inr half)).and trail).mono
    (fun _ u wrote => ⟨touches.trans wrote.1.toTouches, wrote.2⟩)
    (fun _ u stop => stop.1.imp_right touches.trans)

theorem storeInt_spec {s t : St} (sound : s.Sound) (before : Touches s t ∧ Visits s.proc t.proc)
    (fd v : Nat) (user : fd + 4 ≤ 2 ^ 31) :
    Sat (storeInt fd v) t (fun _ u => Touches s u ∧ Visits s.proc u.proc)
      (fun e u => e ≠ .exit ∨ Touches s u) := by
  have low : ∀ k < 4, uint (fd + k) < 2 ^ 31 := by
    intro k hk
    simp only [uint]
    omega
  rw [storeInt]
  refine .bind (store_visits sound before (low 0 (by omega)) _) fun _ u first => ?_
  refine .bind (store_visits sound first (low 1 (by omega)) _) fun _ u second => ?_
  refine .bind (store_visits sound second (low 2 (by omega)) _) fun _ u third => ?_
  exact store_visits sound third (low 3 (by omega)) _

/-- `sys_pipe` changes the file table, and then writes to the memory of the process. -/
def Piped (i : Nat) (s t : Sys) : Prop :=
  ∃ u st, FileStep s u ∧ Touches (u.view i) st ∧ Visits (u.view i).proc st.proc ∧ t = u.put i st

theorem Piped.of_files {i : Nat} {s t : Sys} (step : FileStep s t) : Piped i s t :=
  ⟨t, t.view i, step, (Recrypt.refl _).toTouches, .refl _, (t.put_view i).symm⟩

/-- A page fault in one of these writes has ended the process. -/
def PipeCut (i : Nat) (s t : Sys) : Prop :=
  ∃ u st, FileStep s u ∧ Touches (u.view i) st ∧ t = u.put i st

theorem sysPipe_spec {pool lost : Multiset Nat} {s : Sys} (owned : s.Owned pool lost) {i : Nat}
    (hi : i < NPROC) (used : (s.slots i).state ≠ .UNUSED) (fd : Nat) :
    Sat (sysPipe i fd) s (fun _ t => Piped i s t) (fun e t => e = .exit → PipeCut i s t) := by
  have quiet : ∀ e t, noExit e t → e = .exit → PipeCut i s t := fun e _ stop is => absurd is stop
  rw [sysPipe, sat_bind, sat_get]
  split
  · exact .of_files (.refl owned.files)
  · rename_i inside
    rw [Bool.not_eq_false, argptr, decide_eq_true_eq] at inside
    simp only [uint] at inside
    rw [sat_bind]
    refine (pipealloc_spec owned.files fun f free => owned.free_pipe free).mono
      (fun r t step => ?_) quiet
    cases r with
    | none => exact .of_files step
    | some ends =>
      dsimp only
      refine .seq (pipeFds_spec step.files i ends.1 ends.2) (fun r u step' => ?_) quiet
      have files := step.trans step'
      cases r with
      | none => exact .of_files files
      | some fds =>
        have sound : (u.view i).Sound := by
          refine (owned.fileStep files).view hi ?_
          rwa [files.state i]
        have size : (s.slots i).proc.sz ≤ 2 ^ 31 := (owned.dirs i hi used).2
        dsimp only
        rw [sat_bind, onProc, sat_zoom, sat_bind]
        refine (storeInt_spec sound ⟨(Recrypt.refl _).toTouches, .refl _⟩ fd _ (by omega)).mono
          (fun _ st first => ?_)
          (fun e st stop is => ⟨u, st, files, stop.resolve_left (not_not.mpr is), rfl⟩)
        refine (storeInt_spec sound first (fd + 4) _ (by omega)).mono (fun _ st' second => ?_)
          (fun e st' stop is => ⟨u, st', files, stop.resolve_left (not_not.mpr is), rfl⟩)
        exact ⟨u, st', files, second.1, second.2, rfl⟩

/-- A process and its machine after a routine has run on its behalf: it keeps its
frames, apart from `L`, which it has dropped. -/
structure Settles (s t : St) (L : Multiset Nat) : Prop where
  moves : Moves s.phys t.phys s.proc.pgdir.frames (t.proc.pgdir.frames + L)
  dir : t.proc.pgdir.Sound
  size : t.proc.sz ≤ KERNBASE

theorem Touches.settles {s t : St} (touches : Touches s t) (sound : s.Sound) : Settles s t 0 := by
  have after := touches.sound sound
  exact ⟨by rw [add_zero]; exact touches.moves, after.dir, after.size⟩

theorem Resize.settles {s t : St} {n r : Int} (resize : Resize s n r t) (sound : s.Sound) :
    Settles s t 0 := by
  have after := resize.sound sound
  exact ⟨by rw [add_zero]; exact resize.moves sound, after.dir, after.size⟩

namespace Sys.Owned
variable {pool lost : Multiset Nat} {s t : Sys} {i : Nat}

theorem settled (owned : s.Owned pool lost) (hi : i < NPROC)
    (used : (s.slots i).state ≠ .UNUSED) {st : St} {L : Multiset Nat}
    (settles : Settles (s.view i) st L) : (s.put i st).Owned pool (lost + L) :=
  owned.put hi used settles.moves settles.dir settles.size

theorem piped (owned : s.Owned pool lost) (hi : i < NPROC) (used : (s.slots i).state ≠ .UNUSED)
    (piped : Piped i s t) : t.Owned pool lost := by
  obtain ⟨u, st, files, touches, _, rfl⟩ := piped
  have owned := owned.fileStep files
  have used : (u.slots i).state ≠ .UNUSED := by rwa [files.state i]
  rw [← add_zero lost]
  exact owned.settled hi used (touches.settles (owned.view hi used))

/-- What a process holds is not free and not a pipe. -/
theorem held_apart (owned : s.Owned pool lost) {j f : Nat} (hj : j < NPROC)
    (held : f ∈ (s.slots j).frames) : f ∉ (s.phys.freelist : Multiset Nat) + s.pipeFrames := by
  obtain ⟨free, _, pipes⟩ := Multiset.nodup_add.mp owned.held_nodup
  obtain ⟨_, _, free⟩ := Multiset.nodup_add.mp free
  have proc : f ∈ s.procFrames := Tally.mem_total.mpr ⟨j, hj, held⟩
  intro member
  obtain member | member := Multiset.mem_add.mp member
  · exact Multiset.disjoint_left.mp free member proc
  · exact Multiset.disjoint_left.mp pipes (Multiset.mem_add.mpr (Or.inr proc)) member

end Sys.Owned

theorem Slot.mem_frames {slot : Slot} (used : slot.state ≠ .UNUSED) {v : Nat} (half : v < 2 ^ 19)
    (mapped : (slot.proc.pgdir.flat v).mapped = true) :
    (slot.proc.pgdir.flat v).ppn ∈ slot.frames := by
  rw [Slot.frames, if_neg used]
  exact Multiset.mem_add.mpr (Or.inr (PgDir.mem_frames half mapped))

/-- Process `j` takes no part in the change from `s` to `t`. -/
structure Spared (j : Nat) (s t : Sys) : Prop where
  proc : (t.slots j).proc = (s.slots j).proc
  bytes : ∀ f ∈ (s.slots j).frames, t.phys.bytes f = s.phys.bytes f

theorem Spared.plain {j : Nat} {s t : Sys} (spared : Spared j s t)
    (used : (s.slots j).state ≠ .UNUSED) {v : Nat} (half : v < 2 ^ 19)
    (mapped : ((s.slots j).proc.pgdir.flat v).mapped = true) :
    (t.view j).plain v = (s.view j).plain v := by
  have bytes := spared.bytes _ (Slot.mem_frames used half mapped)
  have dir : (t.view j).proc.pgdir = (s.view j).proc.pgdir := congrArg Proc.pgdir spared.proc
  have page : (t.view j).phys.bytes ((s.view j).proc.pgdir.flat v).ppn =
    (s.view j).phys.bytes ((s.view j).proc.pgdir.flat v).ppn := bytes
  rw [St.plain, St.plain, dir, page]

namespace Sys.Owned
variable {pool lost : Multiset Nat} {s t : Sys} {i j : Nat}

theorem spared_put (owned : s.Owned pool lost) (hi : i < NPROC) (hj : j < NPROC) (ne : j ≠ i)
    (used : (s.slots i).state ≠ .UNUSED) {st : St} {L : Multiset Nat}
    (settles : Settles (s.view i) st L) : Spared j s (s.put i st) := by
  refine ⟨by rw [s.put_slots_of_ne ne], fun f held => ?_⟩
  exact settles.moves.bytes f (owned.apart hi hj ne.symm used held)

theorem spared_fileStep (owned : s.Owned pool lost) (hj : j < NPROC) (step : FileStep s t) :
    Spared j s t :=
  ⟨step.proc j, fun f held => step.moves.bytes f (owned.held_apart hj held)⟩

theorem spared_exited (owned : s.Owned pool lost) (hj : j < NPROC) (exited : Exited i s t) :
    Spared j s t :=
  ⟨exited.proc j, fun f held => exited.moves.bytes f (owned.held_apart hj held)⟩

theorem spared_reaped (owned : s.Owned pool lost) (hi : i < NPROC) (hj : j < NPROC) (ne : j ≠ i)
    (reaped : Reaped i s t) : Spared j s t := by
  refine ⟨by rw [reaped.other j ne], fun f held => reaped.moves.bytes f ?_⟩
  exact Tally.apart owned.held_nodup hi hj ne.symm held

theorem spared_unforked (owned : s.Owned pool lost) (hj : j < NPROC)
    (used : (s.slots j).state ≠ .UNUSED) (failed : Unforked s t) : Spared j s t := by
  refine ⟨by rw [failed.slot j used], fun f held => failed.moves.bytes f ?_⟩
  intro member
  rw [add_zero] at member
  exact owned.held_apart hj held (Multiset.mem_add.mpr (Or.inl member))

theorem spared_forked (owned : s.Owned pool lost) (hj : j < NPROC)
    {np : Nat} (ne : j ≠ np) (forked : Forked i np s t) : Spared j s t := by
  refine ⟨forked.proc j ne, fun f held => forked.account.bytes f ?_⟩
  intro member
  rw [add_zero] at member
  exact owned.held_apart hj held (Multiset.mem_add.mpr (Or.inl member))

end Sys.Owned
end Xv6
