import Xv6.FileSharing
import Xv6.FirstProcess

/-! The system calls keep the counts of open files, however the processes are
interleaved: every call is followed through its sections, on each of its ways out. -/
namespace Xv6
open Control
open Threads (Prog Discipline)
open Threads.Prog (atomic)
open Function (update_eq_self update_of_ne update_self)

/-- A live process with one reference for each descriptor and those in `extra`. -/
structure Share.Steady (g : Share) (extra : Multiset Nat) : Prop where
  live : g.live = true
  child : g.child = none
  own : ∀ k, g.own k = refs g.table k + extra.count k

namespace Share.Steady
variable {g : Share} {extra : Multiset Nat} {f fd : Nat}

theorem of_resting (resting : g.Resting) (live : g.live = true) : g.Steady 0 := by
  obtain ⟨child, _, own⟩ := resting
  refine ⟨live, child, fun k => ?_⟩
  rw [own k, live, if_pos rfl, Multiset.count_zero, add_zero]

theorem resting (steady : g.Steady 0) (set : g.fresh = []) : g.Resting := by
  refine ⟨steady.child, set, fun k => ?_⟩
  rw [steady.own k, steady.live, if_pos rfl, Multiset.count_zero, add_zero]

theorem held (steady : g.Steady extra) (member : f ∈ extra) : 1 ≤ g.own f := by
  have one := Multiset.one_le_count_iff_mem.mpr member
  rw [steady.own f]
  omega

theorem pointed (steady : g.Steady extra) (bound : fd < NOFILE) (points : g.table fd = some f) :
    1 ≤ g.own f := by
  have one := refs_pos bound points
  rw [steady.own f]
  omega

theorem drop (steady : g.Steady extra) (member : f ∈ extra) : (g.drop f).Steady (extra.erase f) := by
  refine ⟨steady.live, steady.child, fun k => ?_⟩
  have own := steady.own k
  by_cases here : k = f
  · subst here
    have one := Multiset.one_le_count_iff_mem.mpr member
    simp only [Share.drop, update_self, Multiset.count_erase_self]
    omega
  · simp only [Share.drop, update_of_ne here, Multiset.count_erase_of_ne here]
    exact own

theorem take (steady : g.Steady extra) (f : Nat) : (g.take f).Steady (f ::ₘ extra) := by
  refine ⟨steady.live, steady.child, fun k => ?_⟩
  have own := steady.own k
  by_cases here : k = f
  · subst here
    simp only [Share.take, update_self, Multiset.count_cons_self]
    omega
  · simp only [Share.take, update_of_ne here, Multiset.count_cons_of_ne here]
    exact own

theorem point (steady : g.Steady extra) (bound : fd < NOFILE) (free : g.table fd = none)
    (member : f ∈ extra) : (g.setFd fd (some f)).Steady (extra.erase f) := by
  refine ⟨steady.live, steady.child, fun k => ?_⟩
  have own := steady.own k
  have change := refs_update g.table bound (some f) k
  rw [free, if_neg nofun, add_zero] at change
  by_cases here : k = f
  · subst here
    have one := Multiset.one_le_count_iff_mem.mpr member
    rw [if_pos rfl] at change
    simp only [Share.setFd, Multiset.count_erase_self]
    omega
  · rw [if_neg (by simpa using Ne.symm here)] at change
    simp only [Share.setFd, Multiset.count_erase_of_ne here]
    omega

theorem clear (steady : g.Steady extra) (bound : fd < NOFILE) (points : g.table fd = some f) :
    (g.setFd fd none).Steady (f ::ₘ extra) := by
  refine ⟨steady.live, steady.child, fun k => ?_⟩
  have own := steady.own k
  have change := refs_update g.table bound none k
  have gone : (if (none : Option Nat) = some k then 1 else 0) = 0 := if_neg nofun
  rw [points, gone, add_zero] at change
  by_cases here : k = f
  · subst here
    rw [if_pos rfl] at change
    simp only [Share.setFd, Multiset.count_cons_self]
    omega
  · rw [if_neg (by simpa using Ne.symm here)] at change
    simp only [Share.setFd, Multiset.count_cons_of_ne here]
    omega

theorem refresh (steady : g.Steady extra) (fresh : List Nat) : { g with fresh := fresh }.Steady extra :=
  ⟨steady.live, steady.child, steady.own⟩

end Share.Steady

section Programs
variable {pool : Multiset Nat} {i : Nat} {g : Share}

theorem holds_ofileOf (hi : i < NPROC) (live : g.live = true) (fd : Nat) :
    (fileDiscipline pool).Holds i (atomic (ofileOf i fd)) g
      (fun r g' => r = g.table fd ∧ g' = g) :=
  holds_look (fun table => table fd) hi live fun _ => rfl

theorem holds_argfd (hi : i < NPROC) (live : g.live = true) (fd : BitVec 32) :
    (fileDiscipline pool).Holds i (atomic (argfd i fd)) g (fun r g' => g' = g ∧
      ∀ f, r = some f → fd.toNat < NOFILE ∧ g.table fd.toNat = some f) := by
  refine (holds_look
    (fun table => if fd.toInt < 0 ∨ NOFILE ≤ fd.toInt then none else table fd.toNat) hi live
    fun s => ?_).mono ?_
  · unfold argfd
    split <;> rfl
  rintro r g' ⟨rfl, rfl⟩
  refine ⟨rfl, fun f is => ?_⟩
  split at is
  · cases is
  · rename_i inside
    refine ⟨?_, is⟩
    rw [not_or, not_lt, not_le] at inside
    have same : fd.toInt = fd.toNat := BitVec.toInt_eq_toNat_of_lt (by
      rw [BitVec.toInt_eq_toNat_cond] at inside
      have bound := fd.isLt
      split at inside <;> omega)
    omega

/-- `exit` closes the descriptors one by one. -/
theorem holds_closeAll (hi : i < NPROC) (n : Nat) (le : n ≤ NOFILE) (steady : g.Steady 0)
    (set : g.fresh = []) (closed : ∀ fd < NOFILE - n, g.table fd = none) :
    (fileDiscipline pool).Holds i (closeAll i n) g (fun _ g' =>
      g'.Steady 0 ∧ g'.fresh = [] ∧ ∀ fd < NOFILE, g'.table fd = none) := by
  induction n generalizing g with
  | zero => exact ⟨steady, set, closed⟩
  | succ n ih =>
    have bound : NOFILE - (n + 1) < NOFILE := by simp only [NOFILE] at le ⊢; omega
    refine (holds_ofileOf hi steady.live _).seq ?_
    rintro r _ ⟨rfl, rfl⟩
    rename_i g
    cases points : g.table (NOFILE - (n + 1)) with
    | none =>
      refine ih (by omega) steady set fun fd below => ?_
      by_cases here : fd = NOFILE - (n + 1)
      · rw [here, points]
      · exact closed fd (by omega)
    | some f =>
      refine (holds_fileclose hi steady.live (steady.pointed bound points)).seq ?_
      rintro _ _ rfl
      refine (holds_setFd (g := g.drop f) hi steady.live _ none).seq ?_
      rintro _ _ rfl
      -- The order of the two updates does not matter to what is held.
      have after : ((g.drop f).setFd (NOFILE - (n + 1)) none).Steady 0 := by
        have cleared := (steady.clear bound points).drop (Multiset.mem_cons_self f 0)
        rw [Multiset.erase_cons_head] at cleared
        exact cleared
      refine ih (by omega) after ?_ fun fd below => ?_
      · simp only [Share.setFd, Share.drop, set, List.filter_nil]
      · by_cases here : fd = NOFILE - (n + 1)
        · rw [here]
          exact update_self _ _ _
        · simp only [Share.setFd, Share.drop, update_of_ne here]
          exact closed fd (by omega)

theorem holds_exiting (hi : i < NPROC) (steady : g.Steady 0) (set : g.fresh = []) :
    (fileDiscipline pool).Holds i (exiting i) g (fun _ g' => g'.Resting) := by
  refine (holds_exitCheck steady.live).seq ?_
  rintro _ _ rfl
  refine (holds_closeAll hi NOFILE le_rfl steady set fun fd below => ?_).seq ?_
  · rw [Nat.sub_self] at below
    exact absurd below (Nat.not_lt_zero fd)
  · rintro _ g' ⟨steady, set, closed⟩
    refine holds_abandon hi steady.live steady.child set closed fun k => ?_
    rw [steady.own k, refs_eq_zero closed k, Multiset.count_zero]

theorem holds_ownCall {k : K Int} (hi : i < NPROC) (steady : g.Steady 0) (set : g.fresh = [])
    (counted : Only Stop.Counted k)
    (settles : ∀ st : St, st.Sound → Sat k st (fun _ st' => ∃ L, Settles st st' L)
      (fun e st' => e = .exit → ∃ L, Settles st st' L)) :
    (fileDiscipline pool).Holds i (ownCall i k) g (fun _ g' => g'.Resting) := by
  refine (holds_own hi steady.live counted settles).seq ?_
  rintro (_ | r) _ rfl
  · exact (holds_exiting hi steady set).seq fun _ _ resting => resting
  · exact steady.resting set

/-- `fork` takes a reference for each descriptor of the child. -/
theorem holds_dupAll {np : Nat} (hi : i < NPROC) (n : Nat) (le : n ≤ NOFILE)
    {table : Nat → Option Nat} (live : g.live = true) (set : g.fresh = [])
    (filling : g.child = some (np, table))
    (own : ∀ k, g.own k = refs g.table k + refs table k)
    (open_ : ∀ fd < NOFILE, NOFILE - n ≤ fd → table fd = none) :
    (fileDiscipline pool).Holds i (dupAll i np n) g (fun _ g' => g'.live = true ∧ g'.fresh = [] ∧
      ∃ table, g'.child = some (np, table) ∧ ∀ k, g'.own k = refs g'.table k + refs table k) := by
  induction n generalizing g table with
  | zero => exact ⟨live, set, table, filling, own⟩
  | succ n ih =>
    have bound : NOFILE - (n + 1) < NOFILE := by simp only [NOFILE] at le ⊢; omega
    refine (holds_ofileOf hi live _).seq ?_
    rintro r _ ⟨rfl, rfl⟩
    rename_i g
    cases points : g.table (NOFILE - (n + 1)) with
    | none => exact ih (by omega) live set filling own fun fd below above => open_ fd below (by omega)
    | some f =>
      have one := refs_pos bound points
      refine (holds_filedup hi live (by rw [own f]; omega) (by rw [set]; nofun)).seq ?_
      rintro _ _ rfl
      refine (holds_setFd_child (g := g.take f) hi live filling (some f)).seq ?_
      rintro _ _ rfl
      refine ih (by omega) live set rfl (fun k => ?_) fun fd below above => ?_
      · have change := refs_update table bound (some f) k
        rw [open_ _ bound le_rfl, if_neg nofun, add_zero] at change
        have before := own k
        simp only [Share.take]
        by_cases here : k = f
        · subst here
          rw [if_pos rfl] at change
          rw [update_self]
          omega
        · rw [if_neg (by simpa using Ne.symm here)] at change
          rw [update_of_ne here]
          omega
      · rw [update_of_ne (by omega)]
        exact open_ fd below (by omega)

theorem holds_forking (hi : i < NPROC) (steady : g.Steady 0) (set : g.fresh = []) :
    (fileDiscipline pool).Holds i (forking i) g (fun _ g' => g'.Resting) := by
  refine (holds_forkSpace hi steady.live steady.child).seq ?_
  rintro (_ | np) g' made
  · rw [show g' = g from made]
    exact steady.resting set
  · obtain ⟨table, empty, rfl⟩ := made
    refine (holds_dupAll (g := { g with child := some (np, table) }) hi NOFILE le_rfl steady.live set
      rfl (fun k => ?_) fun fd below _ => empty fd below).seq ?_
    · rw [refs_eq_zero empty k]
      have own := steady.own k
      rwa [Multiset.count_zero] at own
    · rintro _ g' ⟨live, set, table, filling, own⟩
      refine (holds_setRunnable hi live filling (fun k => by rw [own k]; omega) set).mono ?_
      rintro _ _ rfl
      refine Share.Steady.resting ⟨?_, ?_, fun k => ?_⟩ ?_
      all_goals dsimp only [Share.handOver]
      · exact live
      · rw [own k, Nat.add_sub_cancel, Multiset.count_zero, add_zero]
      · exact set

theorem holds_pipeFiles (hi : i < NPROC) (steady : g.Steady 0) (set : g.fresh = []) :
    (fileDiscipline pool).Holds i pipeFiles g (fun r g' => g'.fresh = [] ∧ match r with
      | none => g'.Steady 0
      | some (f0, f1) => g'.Steady {f0, f1}) := by
  refine (holds_filealloc hi steady.live).seq ?_
  rintro (_ | f0) g₀ made
  · rw [show g₀ = g from made]
    exact ⟨set, steady⟩
  obtain ⟨free0, rfl⟩ := made
  have first : Share.Steady { g.take f0 with fresh := f0 :: g.fresh } {f0} :=
    (steady.take f0).refresh _
  refine (holds_filealloc hi first.live).seq ?_
  rintro (_ | f1) g₁ made
  · rw [show g₁ = _ from made]
    refine (holds_fileclose hi first.live (first.held (Multiset.mem_singleton_self f0))).seq ?_
    rintro _ _ rfl
    have closed := first.drop (Multiset.mem_singleton_self f0)
    rw [Multiset.erase_singleton] at closed
    refine ⟨?_, closed⟩
    simp [Share.drop, Share.take, set]
  obtain ⟨free1, rfl⟩ := made
  have ne : f0 ≠ f1 := by
    rintro rfl
    have one := first.held (Multiset.mem_singleton_self f0)
    omega
  have second : Share.Steady { ({ g.take f0 with fresh := f0 :: g.fresh } : Share).take f1 with
      fresh := f1 :: f0 :: g.fresh } {f0, f1} := by
    have both := (first.take f1).refresh (f1 :: f0 :: g.fresh)
    rwa [show f1 ::ₘ {f0} = ({f0, f1} : Multiset Nat) from Multiset.pair_comm f1 f0] at both
  refine (holds_pipeSetup hi second.live ne (by simp) (by simp)).seq ?_
  rintro (_ | _) g₂ made
  · rw [show g₂ = _ from made]
    refine (holds_fileclose hi second.live (second.held (by simp))).seq ?_
    rintro _ _ rfl
    have third := second.drop (f := f0) (by simp)
    rw [show ({f0, f1} : Multiset Nat).erase f0 = {f1} from Multiset.erase_cons_head f0 {f1}] at third
    refine (holds_fileclose hi third.live (third.held (Multiset.mem_singleton_self f1))).seq ?_
    rintro _ _ rfl
    have fourth := third.drop (Multiset.mem_singleton_self f1)
    rw [Multiset.erase_singleton] at fourth
    refine ⟨?_, fourth⟩
    simp [Share.drop, Share.take, set]
  · rw [show g₂ = _ from made]
    refine ⟨?_, second.refresh _⟩
    simp [set]

theorem holds_pipeSlots {rf wf : Nat} (hi : i < NPROC) (steady : g.Steady {rf, wf})
    (set : g.fresh = []) :
    (fileDiscipline pool).Holds i (pipeSlots i rf wf) g (fun _ g' => g'.fresh = [] ∧ g'.Steady 0) := by
  -- Both ways to fail end with the two files closed.
  have close : ∀ {g : Share}, g.Steady {rf, wf} → g.fresh = [] →
      (fileDiscipline pool).Holds i (do
        atomic (fileclose rf)
        atomic (fileclose wf)
        return (none : Option (Nat × Nat))) g (fun _ g' => g'.fresh = [] ∧ g'.Steady 0) := by
    intro g steady set
    refine (holds_fileclose hi steady.live (steady.held (by simp))).seq ?_
    rintro _ _ rfl
    have one := steady.drop (f := rf) (by simp)
    rw [show ({rf, wf} : Multiset Nat).erase rf = {wf} from Multiset.erase_cons_head rf {wf}] at one
    refine (holds_fileclose hi one.live (one.held (Multiset.mem_singleton_self wf))).seq ?_
    rintro _ _ rfl
    have none := one.drop (Multiset.mem_singleton_self wf)
    rw [Multiset.erase_singleton] at none
    refine ⟨?_, none⟩
    simp [Share.drop, set]
  refine (holds_fdalloc hi steady.live rf).seq ?_
  rintro (_ | fd0) g₀ made
  · rw [show g₀ = g from made]
    exact close steady set
  obtain ⟨bound, free, rfl⟩ := made
  have first := steady.point bound free (f := rf) (by simp)
  rw [show ({rf, wf} : Multiset Nat).erase rf = {wf} from Multiset.erase_cons_head rf {wf}] at first
  refine (holds_fdalloc hi first.live wf).seq ?_
  rintro (_ | fd1) g₁ made
  · rw [show g₁ = _ from made]
    refine (holds_setFd hi first.live fd0 none).seq ?_
    rintro _ _ rfl
    exact close (first.clear bound (update_self _ _ _)) set
  · obtain ⟨bound', free', rfl⟩ := made
    have second := first.point bound' free' (Multiset.mem_singleton_self wf)
    rw [Multiset.erase_singleton] at second
    exact ⟨set, second⟩

theorem holds_argCheck {fd : Nat} (hi : i < NPROC) (live : g.live = true) :
    (fileDiscipline pool).Holds i (atomic (argCheck i fd)) g (fun inside g' => g' = g ∧
      (inside = true → fd + 8 ≤ 2 ^ 31)) := by
  refine holds_section live fun G s own shared => ?_
  subst own
  obtain ⟨lost, owned⟩ := shared.owned
  have used : (s.slots i).state ≠ .UNUSED := live_used (by rw [← shared.live i hi, live])
  have size : (s.slots i).proc.sz ≤ 2 ^ 31 := (owned.dirs i hi used).2
  rw [argCheck, sat_bind, sat_get, sat_pure]
  refine ⟨.of_pipes rfl, G i, ?_, rfl, fun inside => ?_⟩
  · rwa [update_eq_self]
  · rw [argptr, decide_eq_true_eq] at inside
    simp only [uint] at inside
    omega

theorem holds_piping (hi : i < NPROC) (steady : g.Steady 0) (set : g.fresh = []) (fd : Nat) :
    (fileDiscipline pool).Holds i (piping i fd) g (fun _ g' => g'.Resting) := by
  refine (holds_argCheck hi steady.live).seq ?_
  rintro (_ | _) _ ⟨rfl, inside⟩
  · exact steady.resting set
  refine (holds_pipeFiles hi steady set).seq ?_
  rintro (_ | ⟨rf, wf⟩) g' ⟨set, steady⟩
  · exact steady.resting set
  refine (holds_pipeSlots hi steady set).seq ?_
  rintro (_ | ⟨fd0, fd1⟩) g' ⟨set, steady⟩
  · exact steady.resting set
  have inside := inside rfl
  have stores : ∀ a v, Only Stop.Ordinary (storeInt a v) := fun a v =>
    .bind (store_steady _ _ _).only fun _ => .bind (store_steady _ _ _).only fun _ =>
      .bind (store_steady _ _ _).only fun _ => (store_steady _ _ _).only
  refine holds_ownCall hi steady set (Only.mono (.bind (stores _ _) fun _ =>
    .bind (stores _ _) fun _ => .pure _) fun _ => Stop.Ordinary.counted) fun st sound => ?_
  have stopped : ∀ e (u : St), (e ≠ Stop.exit ∨ Touches st u) → e = .exit → ∃ L, Settles st u L :=
    fun e u stop is => ⟨0, (stop.resolve_left (not_not.mpr is)).settles sound⟩
  rw [sat_bind]
  refine (storeInt_spec sound ⟨(Recrypt.refl _).toTouches, .refl _⟩ fd _ (by omega)).mono
    (fun _ u first => ?_) stopped
  refine .seq (storeInt_spec sound first (fd + 4) _ (by omega)) (fun _ v second => ?_) stopped
  exact ⟨0, second.1.settles sound⟩

theorem holds_closing (hi : i < NPROC) (steady : g.Steady 0) (set : g.fresh = []) (fd : BitVec 32) :
    (fileDiscipline pool).Holds i (closing i fd) g (fun _ g' => g'.Resting) := by
  refine (holds_argfd hi steady.live fd).seq ?_
  rintro (_ | f) _ ⟨rfl, found⟩
  · exact steady.resting set
  obtain ⟨bound, points⟩ := found f rfl
  have cleared := steady.clear bound points
  refine (holds_setFd hi steady.live _ none).seq ?_
  rintro _ _ rfl
  refine (holds_fileclose hi cleared.live (cleared.held (Multiset.mem_cons_self f 0))).seq ?_
  rintro _ _ rfl
  have closed := cleared.drop (Multiset.mem_cons_self f 0)
  rw [Multiset.erase_cons_head] at closed
  exact closed.resting (by simp [Share.drop, Share.setFd, set])

theorem holds_sysDup (hi : i < NPROC) (steady : g.Steady 0) (set : g.fresh = []) (fd : BitVec 32) :
    (fileDiscipline pool).Holds i (sysDup i fd) g (fun _ g' => g'.Resting) := by
  refine (holds_argfd hi steady.live fd).seq ?_
  rintro (_ | f) _ ⟨rfl, found⟩
  · exact steady.resting set
  obtain ⟨bound, points⟩ := found f rfl
  rename_i g
  refine (holds_fdalloc hi steady.live f).seq ?_
  rintro (_ | fd') g₁ made
  · rw [show g₁ = g from made]
    exact steady.resting set
  obtain ⟨bound', free, rfl⟩ := made
  refine (holds_filedup (g := g.setFd fd' (some f)) hi steady.live (steady.pointed bound points) (by
    simp only [Share.setFd, set]
    nofun)).seq ?_
  rintro _ _ rfl
  -- The reference is taken after the descriptor is set: in between the process has one too few.
  have both := (steady.take f).point bound' free (Multiset.mem_cons_self f 0)
  rw [Multiset.erase_cons_head] at both
  have resting := both.resting set
  exact resting

theorem holds_openFile (hi : i < NPROC) (steady : g.Steady 0) (set : g.fresh = []) (writable : Bool) :
    (fileDiscipline pool).Holds i (openFile i writable) g (fun _ g' => g'.Resting) := by
  refine (holds_filealloc hi steady.live).seq ?_
  rintro (_ | f) g₀ made
  · rw [show g₀ = g from made]
    exact steady.resting set
  obtain ⟨_, rfl⟩ := made
  have first : Share.Steady { g.take f with fresh := f :: g.fresh } {f} := (steady.take f).refresh _
  refine (holds_fdalloc hi first.live f).seq ?_
  rintro (_ | fd) g₁ made
  · rw [show g₁ = _ from made]
    refine (holds_fileclose hi first.live (first.held (Multiset.mem_singleton_self f))).seq ?_
    rintro _ _ rfl
    have closed := first.drop (Multiset.mem_singleton_self f)
    rw [Multiset.erase_singleton] at closed
    exact closed.resting (by simp [Share.drop, set])
  · obtain ⟨bound, free, rfl⟩ := made
    have second := first.point bound free (Multiset.mem_singleton_self f)
    rw [Multiset.erase_singleton] at second
    refine (holds_setInode hi second.live (by simp [Share.setFd]) writable).seq ?_
    rintro _ _ rfl
    exact (second.refresh _).resting (by simp [Share.setFd, set])

end Programs

theorem holds_program {pool : Multiset Nat} {i : Nat} {g : Share} (hi : i < NPROC)
    (steady : g.Steady 0) (set : g.fresh = []) (call : FileCall) :
    (fileDiscipline pool).Holds i (call.program i) g (fun _ g' => g'.Resting) := by
  have stopped : ∀ st : St, st.Sound → ∀ e (u : St), (e ≠ Stop.exit ∨ Touches st u) →
      e = .exit → ∃ L, Settles st u L :=
    fun st sound e u stop is => ⟨0, (stop.resolve_left (not_not.mpr is)).settles sound⟩
  have ordinary : ∀ e : Stop, e.Ordinary → e.Counted := fun _ => Stop.Ordinary.counted
  cases call with
  | «open» found writable =>
    refine Discipline.Holds.seq (Q := fun _ g' => g'.Resting) ?_ fun _ _ resting => resting
    unfold sysOpen
    split
    · exact holds_openFile hi steady set writable
    · exact steady.resting set
  | dup fd => exact (holds_sysDup hi steady set fd).seq fun _ _ resting => resting
  | kernel call =>
    cases call with
    | load va =>
      refine holds_ownCall hi steady set (Only.mono (.bind (load_steady _ _).only fun _ => .pure _) ordinary)
        fun st sound => ?_
      rw [sat_bind]
      exact (load_spec sound true va.toNat).mono
        (fun _ u done => ⟨0, done.1.settles sound⟩) (stopped st sound)
    | store va b =>
      refine holds_ownCall hi steady set (Only.mono (.bind (store_steady _ _ _).only fun _ => .pure _) ordinary)
        fun st sound => ?_
      rw [sat_bind]
      exact (store_spec sound true va.toNat b (Or.inl rfl)).mono
        (fun _ u done => ⟨0, done.settles sound⟩) (stopped st sound)
    | mencrypt va len =>
      refine holds_ownCall hi steady set ((mencrypt_steady _ _).only.mono ordinary) fun st sound => ?_
      refine (mencrypt_spec va.toNat len.toInt st).mono ?_
        (fun e u failed is => absurd is (by rw [failed.1]; exact nofun))
      rintro r _ ⟨_, rfl⟩
      exact ⟨0, (Recrypt.mencrypted sound _ _).settles sound⟩
    | growproc n =>
      refine holds_ownCall hi steady set (growproc_counted _) fun st sound => ?_
      exact (growproc_spec sound n.toInt (BitVec.le_toInt n) BitVec.toInt_lt).mono
        (fun r u resize => ⟨0, resize.settles sound⟩) (fun e u stop is => absurd is stop)
    | exec namei path uargv =>
      refine holds_ownCall hi steady set (sysExec_counted _ _ _) fun st sound => ?_
      refine (sysExec_spec sound namei path.toNat uargv.toNat).mono (fun r u done => ?_)
        fun e u cut is => ?_
      · obtain ⟨_, working⟩ | ⟨_, settles, _⟩ := done
        · exact ⟨0, working.settles sound⟩
        · exact ⟨0, settles⟩
      · obtain ⟨L, settles, _⟩ := cut is
        exact ⟨L, settles⟩
    | fork => exact (holds_forking hi steady set).seq fun _ _ resting => resting
    | exit => exact (holds_exiting hi steady set).seq fun _ _ resting => resting
    | wait =>
      refine (holds_wait steady.live).seq ?_
      rintro _ _ rfl
      exact steady.resting set
    | pipe fd => exact holds_piping hi steady set fd.toNat
    | close fd => exact (holds_closing hi steady set fd).seq fun _ _ resting => resting

theorem fileDiscipline_ready (pool : Multiset Nat) :
    (fileDiscipline pool).Ready admits FileCall.body := by
  intro G s i call shared resting allowed
  obtain ⟨hi, live⟩ := allowed
  have live : (G i).live = true := by rw [shared.live i hi, live]
  have steady := Share.Steady.of_resting resting live
  exact (holds_program hi steady resting.2.1 call).seq fun _ _ resting => resting

/-- No file is open. -/
structure Sys.NoFiles (s : Sys) : Prop where
  files : ∀ k, (s.files k).ref = 0 ∧ (s.files k).type = .FD_NONE
  slots : ∀ i < NPROC, ∀ fd < NOFILE, (s.slots i).ofile fd = none

/-- What each process holds when no file is open. -/
def Sys.shares (s : Sys) (i : Nat) : Share :=
  ⟨decide (i < NPROC) && (s.slots i).state.live, (s.slots i).ofile, fun _ => 0, [], none⟩

theorem Sys.NoFiles.shared {pool lost : Multiset Nat} {s : Sys} (none : s.NoFiles)
    (owned : s.Owned pool lost) : Shared pool s.shares s := by
  constructor
  · exact ⟨lost, owned⟩
  · intro k
    rw [(none.files k).1]
    exact (Finset.sum_const_zero).symm
  · exact fun k _ => (none.files k).2
  · intro i hi
    simp only [Sys.shares, hi, decide_true, Bool.true_and]
  · exact fun _ _ _ => rfl
  · exact fun _ _ _ => nofun
  · exact fun _ _ _ _ => nofun
  · exact fun _ _ _ _ _ _ _ => nofun
  · exact fun i hi _ _ => none.slots i hi
  · exact fun _ _ _ => ⟨rfl, rfl, fun _ => rfl⟩

theorem Sys.NoFiles.sound {pool lost : Multiset Nat} {s : Sys} (none : s.NoFiles)
    (owned : s.Owned pool lost) : (fileDiscipline pool).Sound s.pool := by
  refine ⟨s.shares, none.shared owned, fun i => ?_⟩
  have resting : (s.shares i).Resting := by
    refine ⟨rfl, rfl, fun k => ?_⟩
    by_cases hi : i < NPROC
    · simp only [Sys.shares, refs_eq_zero (none.slots i hi) k, ite_self]
    · simp [Sys.shares, hi]
  exact ⟨resting, fun _ => resting⟩

section Between
variable {pool : Multiset Nat} {G : Nat → Share} {s : Sys}

/-- Between two calls a process holds one reference for each of its descriptors. -/
theorem Shared.own_eq (shared : Shared pool G s) (resting : ∀ i, (G i).Resting) {i : Nat}
    (hi : i < NPROC) (k : Nat) : (G i).own k = refs (s.slots i).ofile k := by
  rw [(resting i).2.2 k]
  split
  · rename_i live
    rw [shared.table i hi live]
  · rename_i dead
    have dead : (s.slots i).state.live = false := by
      rw [← shared.live i hi]
      simpa using dead
    refine (refs_eq_zero (shared.empty i hi dead fun j _ table => ?_) k).symm
    rw [(resting j).1]
    nofun

/-- A file in use has a descriptor. -/
theorem Shared.descriptor (shared : Shared pool G s) (resting : ∀ i, (G i).Resting) {k : Nat}
    (used : (s.files k).ref ≠ 0) : ∃ i < NPROC, ∃ fd < NOFILE, (s.slots i).ofile fd = some k := by
  rw [shared.count k] at used
  obtain ⟨i, bound, some⟩ := Finset.exists_ne_zero_of_sum_ne_zero used
  have hi := Finset.mem_range.mp bound
  rw [shared.own_eq resting hi k, refs] at some
  obtain ⟨fd, below, points⟩ := Finset.exists_ne_zero_of_sum_ne_zero some
  refine ⟨i, hi, fd, Finset.mem_range.mp below, ?_⟩
  by_contra other
  rw [if_neg other] at points
  exact points rfl

/-- An end of a pipe is open while a descriptor leads to it. -/
theorem Shared.pipe_end (shared : Shared pool G s) (resting : ∀ i, (G i).Resting) (p : Nat)
    (w : Bool) : (s.pipes p).isOpen w = true ↔ ∃ i < NPROC, ∃ fd < NOFILE, ∃ k,
      (s.slots i).ofile fd = some k ∧ (s.files k).type = .FD_PIPE ∧ (s.files k).pipe = p ∧
      (s.files k).writable = w := by
  obtain ⟨lost, owned⟩ := shared.owned
  constructor
  · intro opened
    obtain ⟨k, kind, facts⟩ := owned.files.held p w opened
    obtain ⟨i, hi, fd, bound, points⟩ :=
      shared.descriptor resting fun free => owned.files.idle k free kind
    exact ⟨i, hi, fd, bound, k, points, kind, facts⟩
  · rintro ⟨i, hi, fd, bound, k, points, kind, rfl, rfl⟩
    exact owned.files.ends k kind

end Between

/-- However the processes are interleaved, no section finds a reference count to be
wrong and a pipe gives its frame back once, as its last end closes. Whenever all
processes are between two calls, the reference count of a file is the number of
descriptors for it and the ends of a pipe are open while there are descriptors for
them. -/
theorem open_files_counted {pool lost : Multiset Nat} {s : Sys} (owned : s.Owned pool lost)
    (none : s.NoFiles) {labels : List (Threads.Label Nat FileCall)}
    {c : Threads.Pool Nat Stop Sys} (run : Transition.Run SectionStep s.pool labels c) :
    (∀ k, (c.state.files k).ref = 0 → (c.state.files k).type = .FD_NONE) ∧
    (∀ i < NPROC, (c.state.slots i).state = .UNUSED →
      ∀ fd < NOFILE, (c.state.slots i).ofile fd = Option.none) ∧
    (∀ p, (c.state.pipes p).inUse = true → p ∉ c.state.phys.freelist) ∧
    (∀ i c', SectionStep c (.move i) c' → FreesOnce c.state c'.state) ∧
    (∀ i (β : Type) (m : S β) next e t, c.prog i = .act m next → m.run c.state = .error e t →
      e ≠ .panic "filedup" ∧ e ≠ .panic "fileclose") ∧
    (c.Quiet →
      (∀ k, (c.state.files k).ref = ∑ i ∈ Finset.range NPROC, refs (c.state.slots i).ofile k) ∧
      (∀ p w, (c.state.pipes p).isOpen w = true ↔ ∃ i < NPROC, ∃ fd < NOFILE, ∃ k,
        (c.state.slots i).ofile fd = some k ∧ (c.state.files k).type = .FD_PIPE ∧
        (c.state.files k).pipe = p ∧ (c.state.files k).writable = w)) := by
  have sound := (run.to_restrict fun _ _ => trivial).kept (fileDiscipline_ready pool).keeps
    (none.sound owned)
  obtain ⟨G, shared, _⟩ := id sound
  obtain ⟨lost', owned'⟩ := shared.owned
  refine ⟨shared.idle, fun i hi unused => ?_, fun p used free => ?_, fun i c' step => sound.does trivial step,
    fun i β m next e t current stopped => sound.stops trivial current stopped, fun quiet => ?_⟩
  · refine shared.empty i hi (by rw [unused]; rfl) fun j hj table filling => ?_
    have embryo := (shared.child j hj i table filling).2.1
    rw [unused] at embryo
    cases embryo
  · rw [(owned'.free_pipe free).2] at used
    cases used
  · obtain ⟨G, shared, resting⟩ := sound.quiet quiet
    refine ⟨fun k => ?_, shared.pipe_end resting⟩
    rw [shared.count k]
    exact Finset.sum_congr rfl fun i bound =>
      shared.own_eq resting (Finset.mem_range.mp bound) k

/-- One process, which has nothing but an empty page directory. -/
def idleSys : Sys where
  phys := ⟨smallImage, fun _ => Page.fill 1, [6]⟩
  slots i := ⟨if i = 0 then .RUNNABLE else .UNUSED, 1, none, none,
    ⟨0, ⟨5, fun _ => none⟩, fun _ => 0, 0, fun _ => false, [], 0, 0⟩, fun _ => none⟩
  files _ := ⟨.FD_NONE, 0, false, 0⟩
  pipes _ := ⟨false, false⟩
  nextpid := 2
  initproc := 0

/-- The process opens a file: the file has its reference from the descriptor. -/
theorem opened_file_counted : ∃ labels c, Transition.Run SectionStep idleSys.pool labels c ∧
    (c.state.slots 0).ofile 0 = some 0 ∧
    (c.state.files 0).ref = ∑ i ∈ Finset.range NPROC, refs (c.state.slots i).ofile 0 := by
  have owned : idleSys.Owned {6, 5} 0 := by
    refine owned_first (i := 0) (by decide) (fun _ => nofun) (fun _ => rfl) (fun j ne => if_neg ne) ?_
      (by decide) (by simp [PHYSTOP, PGSIZE]) (PgDir.blank_new 5).sound (Nat.zero_le _)
    have frames : (idleSys.slots 0).frames = {5} := by
      simp only [Slot.frames, idleSys, if_true, reduceCtorEq, if_false, Option.elim_none, zero_add,
        PgDir.frames_new]
    rw [frames]
    rfl
  have none : idleSys.NoFiles := ⟨fun _ => ⟨rfl, rfl⟩, fun _ _ _ _ => rfl⟩
  have run : ∃ c, Transition.Run SectionStep idleSys.pool
      [.call 0 (.open true false), .move 0, .move 0, .move 0] c ∧ c.Quiet ∧
      (c.state.slots 0).ofile 0 = some 0 := by
    refine ⟨_, .next (.call rfl ⟨by decide, rfl⟩) (.next (.move rfl rfl) (.next (.move rfl rfl)
      (.next (.move rfl rfl) (.refl _)))), fun i => ?_, rfl⟩
    by_cases here : i = 0
    · subst here
      exact Or.inl rfl
    · left
      simp only [update_of_ne here]
      rfl
  obtain ⟨c, run, quiet, points⟩ := run
  exact ⟨_, c, run, points, ((open_files_counted owned none run).2.2.2.2.2 quiet).1 0⟩

end Xv6
