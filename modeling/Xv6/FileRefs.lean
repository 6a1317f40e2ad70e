import Mathlib.Algebra.BigOperators.Group.Finset.Basic
import Mathlib.Algebra.Order.BigOperators.Group.Finset
import Xv6.Calls
import Xv6.Calm

/-! The reference counts of open files. Each process holds references: one for every
descriptor, and in the middle of a call one more or one less. The count in the table
is what all processes hold together. -/
namespace Xv6
open Control
open Threads (Prog Discipline)
open Threads.Prog (atomic)
open Function (update update_eq_self update_of_ne update_self)

/-- The descriptors that point at file `k`. -/
def refs (table : Nat → Option Nat) (k : Nat) : Nat :=
  ∑ fd ∈ Finset.range NOFILE, if table fd = some k then 1 else 0

/-- What a process holds: its descriptors, the references it answers for, files it
has allocated and not given a kind yet, and the slot that `fork` is filling. -/
structure Share where
  live : Bool
  table : Nat → Option Nat
  own : Nat → Nat
  fresh : List Nat
  child : Option (Nat × (Nat → Option Nat))

namespace Share

/-- Between two calls a process holds one reference for each descriptor. -/
def Resting (g : Share) : Prop :=
  g.child = none ∧ g.fresh = [] ∧ ∀ k, g.own k = if g.live then refs g.table k else 0

def Away (g : Share) : Prop := g.live = false

def take (g : Share) (k : Nat) : Share := { g with own := update g.own k (g.own k + 1) }

def drop (g : Share) (k : Nat) : Share :=
  { g with own := update g.own k (g.own k - 1), fresh := g.fresh.filter (· ≠ k) }

def setFd (g : Share) (fd : Nat) (f : Option Nat) : Share :=
  { g with table := update g.table fd f }

/-- The references for the descriptors in `table` pass to a new process. -/
def handOver (g : Share) (table : Nat → Option Nat) : Share :=
  { g with child := none, own := fun k => g.own k - refs table k }

def start (table : Nat → Option Nat) : Share := ⟨true, table, refs table, [], none⟩

end Share

/-- No `fork` is filling slot `i`. -/
def Unfilled (G : Nat → Share) (i : Nat) : Prop :=
  ∀ j < NPROC, ∀ table, (G j).child ≠ some (i, table)

/-- The table of open files and the slots of processes, in terms of what the
processes hold. -/
structure Shared (pool : Multiset Nat) (G : Nat → Share) (s : Sys) : Prop where
  owned : ∃ lost, s.Owned pool lost
  count : ∀ k, (s.files k).ref = ∑ i ∈ Finset.range NPROC, (G i).own k
  idle : ∀ k, (s.files k).ref = 0 → (s.files k).type = .FD_NONE
  live : ∀ i < NPROC, (G i).live = (s.slots i).state.live
  table : ∀ i < NPROC, (G i).live = true → (s.slots i).ofile = (G i).table
  fresh : ∀ i < NPROC, ∀ k ∈ (G i).fresh,
    (s.files k).type = .FD_NONE ∧ (s.files k).ref = 1 ∧ (G i).own k = 1
  child : ∀ i < NPROC, ∀ np table, (G i).child = some (np, table) →
    np < NPROC ∧ (s.slots np).state = .EMBRYO ∧ (s.slots np).ofile = table
  single : ∀ i < NPROC, ∀ j < NPROC, ∀ np a b, (G i).child = some (np, a) →
    (G j).child = some (np, b) → i = j
  empty : ∀ i < NPROC, (s.slots i).state.live = false → Unfilled G i →
    ∀ fd < NOFILE, (s.slots i).ofile fd = none
  gone : ∀ i < NPROC, (G i).live = false → (G i).child = none ∧ (G i).fresh = [] ∧
    ∀ k, (G i).own k = 0

/-- A section frees the frame of a pipe only as it closes its last end. -/
def FreesOnce (s t : Sys) : Prop :=
  ∀ p, (s.pipes p).inUse = true → (t.pipes p).inUse = false →
    p ∉ s.phys.freelist ∧ t.phys.freelist = p :: s.phys.freelist

/-- The reference counts are never found to be wrong. -/
def Stop.Counted (e : Stop) : Prop := e ≠ .panic "filedup" ∧ e ≠ .panic "fileclose"

def fileDiscipline (pool : Multiset Nat) : Discipline Nat Stop Sys Share where
  inv := Shared pool
  given _ := True
  rest := Share.Resting
  away := Share.Away
  does := FreesOnce
  stops := Stop.Counted

section Refs
variable {table : Nat → Option Nat} {fd f k : Nat}

theorem refs_update (table : Nat → Option Nat) (bound : fd < NOFILE) (new : Option Nat) (k : Nat) :
    refs (update table fd new) k + (if table fd = some k then 1 else 0) =
      refs table k + if new = some k then 1 else 0 := by
  have sum := Tally.sum_change (f := fun fd => if table fd = some k then 1 else 0)
    (g := fun fd' => if update table fd new fd' = some k then 1 else 0)
    (Finset.mem_range.mpr bound) fun j _ ne => by rw [update_of_ne ne]
  rw [update_self] at sum
  exact sum

theorem refs_pos (bound : fd < NOFILE) (points : table fd = some k) : 0 < refs table k := by
  have one : (if table fd = some k then 1 else 0) ≤ refs table k :=
    Finset.single_le_sum (f := fun fd => if table fd = some k then 1 else 0)
      (fun _ _ => Nat.zero_le _) (Finset.mem_range.mpr bound)
  rw [if_pos points] at one
  omega

theorem refs_eq_zero (none : ∀ fd < NOFILE, table fd = none) (k : Nat) : refs table k = 0 :=
  Finset.sum_eq_zero fun fd bound => by simp [none fd (Finset.mem_range.mp bound)]

end Refs

theorem Unfilled.of_update {G : Nat → Share} {g' : Share} {i j : Nat}
    (unfilled : Unfilled (update G i g') j)
    (mine : i < NPROC → ∀ table, (G i).child = some (j, table) → ∃ table', g'.child = some (j, table')) :
    Unfilled G j := by
  intro l hl table filling
  by_cases here : l = i
  · subst here
    obtain ⟨table', filling'⟩ := mine hl table filling
    refine unfilled l hl table' ?_
    rwa [update_self]
  · refine unfilled l hl table ?_
    rwa [update_of_ne here]

namespace Shared
variable {pool : Multiset Nat} {G : Nat → Share} {s t : Sys} {i j k : Nat} {g' : Share}

theorem own_le (shared : Shared pool G s) (hi : i < NPROC) (k : Nat) :
    (G i).own k ≤ (s.files k).ref := by
  rw [shared.count k]
  exact Finset.single_le_sum (f := fun i => (G i).own k) (fun _ _ => Nat.zero_le _)
    (Finset.mem_range.mpr hi)

/-- Nobody else has a reference to a file that a process is still setting up. -/
theorem fresh_apart (shared : Shared pool G s) (hi : i < NPROC) (hj : j < NPROC) (ne : i ≠ j)
    (fresh : k ∈ (G j).fresh) : (G i).own k = 0 := by
  obtain ⟨_, one, mine⟩ := shared.fresh j hj k fresh
  have both : (G i).own k + (G j).own k ≤ ∑ l ∈ Finset.range NPROC, (G l).own k := by
    rw [← Finset.sum_pair (f := fun l => (G l).own k) ne]
    refine Finset.sum_le_sum_of_subset fun l member => ?_
    simp only [Finset.mem_insert, Finset.mem_singleton] at member
    rw [Finset.mem_range]
    omega
  rw [← shared.count k] at both
  omega

theorem sum_update (G : Nat → Share) (g' : Share) (hi : i < NPROC) (k : Nat) :
    ∑ j ∈ Finset.range NPROC, (update G i g' j).own k + (G i).own k =
      ∑ j ∈ Finset.range NPROC, (G j).own k + g'.own k := by
  have sum := Tally.sum_change (f := fun j => (G j).own k)
    (g := fun j => (update G i g' j).own k) (Finset.mem_range.mpr hi)
    fun j _ ne => by rw [update_of_ne ne]
  rwa [update_self] at sum

/-- A process and its files change: the descriptors of the others stay, and so do
the files they are setting up. -/
theorem step (shared : Shared pool G s) (hi : i < NPROC) (owned : ∃ lost, t.Owned pool lost)
    (counts : ∀ k, (t.files k).ref + (G i).own k = (s.files k).ref + g'.own k)
    (idle : ∀ k, (t.files k).ref = 0 → (t.files k).type = .FD_NONE)
    (files : ∀ j < NPROC, j ≠ i → ∀ k ∈ (G j).fresh, t.files k = s.files k)
    (fresh : ∀ k ∈ g'.fresh, (t.files k).type = .FD_NONE ∧ (t.files k).ref = 1 ∧ g'.own k = 1)
    (live : g'.live = (t.slots i).state.live)
    (table : g'.live = true → (t.slots i).ofile = g'.table)
    (state : ∀ j < NPROC, j ≠ i → (t.slots j).state.live = (s.slots j).state.live)
    (others : ∀ j < NPROC, j ≠ i → (s.slots j).state.live = true →
      (t.slots j).ofile = (s.slots j).ofile)
    (child : ∀ j < NPROC, j ≠ i → ∀ np table, (G j).child = some (np, table) →
      (t.slots np).state = .EMBRYO ∧ (t.slots np).ofile = (s.slots np).ofile)
    (mine : ∀ np table, g'.child = some (np, table) → np < NPROC ∧
      (t.slots np).state = .EMBRYO ∧ (t.slots np).ofile = table ∧
      ∀ j < NPROC, j ≠ i → ∀ b, (G j).child ≠ some (np, b))
    (empty : ∀ j < NPROC, (t.slots j).state.live = false → Unfilled (update G i g') j →
      ∀ fd < NOFILE, (t.slots j).ofile fd = none)
    (gone : g'.live = false → g'.child = none ∧ g'.fresh = [] ∧ ∀ k, g'.own k = 0) :
    Shared pool (update G i g') t := by
  have at_i : update G i g' i = g' := update_self i g' G
  have at_j : ∀ j, j ≠ i → update G i g' j = G j := fun j ne => update_of_ne ne _ _
  constructor
  · exact owned
  · intro k
    have sum := sum_update G g' hi k
    have before := shared.count k
    have change := counts k
    omega
  · exact idle
  · intro j hj
    by_cases here : j = i
    · rw [here, at_i, live]
    · rw [at_j j here, shared.live j hj, state j hj here]
  · intro j hj
    by_cases here : j = i
    · rw [here, at_i]
      exact table
    · rw [at_j j here]
      intro alive
      have alive' := alive
      rw [shared.live j hj] at alive'
      rw [others j hj here alive']
      exact shared.table j hj alive
  · intro j hj k
    by_cases here : j = i
    · rw [here, at_i]
      exact fresh k
    · rw [at_j j here]
      intro member
      rw [files j hj here k member]
      exact shared.fresh j hj k member
  · intro j hj np table
    by_cases here : j = i
    · rw [here, at_i]
      intro filling
      obtain ⟨bound, embryo, same, _⟩ := mine np table filling
      exact ⟨bound, embryo, same⟩
    · rw [at_j j here]
      intro filling
      obtain ⟨embryo, same⟩ := child j hj here np table filling
      obtain ⟨bound, _, before⟩ := shared.child j hj np table filling
      exact ⟨bound, embryo, same.trans before⟩
  · intro a ha b hb np x y
    by_cases here : a = i
    · by_cases there : b = i
      · intro _ _
        rw [here, there]
      · rw [here, at_i, at_j b there]
        intro filling other
        obtain ⟨_, _, _, apart⟩ := mine np x filling
        exact absurd other (apart b hb there y)
    · by_cases there : b = i
      · rw [there, at_i, at_j a here]
        intro other filling
        obtain ⟨_, _, _, apart⟩ := mine np y filling
        exact absurd other (apart a ha here x)
      · rw [at_j a here, at_j b there]
        exact shared.single a ha b hb np x y
  · exact empty
  · intro j hj
    by_cases here : j = i
    · rw [here, at_i]
      exact gone
    · rw [at_j j here]
      exact shared.gone j hj

/-- The file table changes, and what process `i` holds of it. -/
theorem refile (shared : Shared pool G s) (hi : i < NPROC) (alive : (G i).live = true)
    (owned : ∃ lost, t.Owned pool lost) (slots : t.slots = s.slots)
    (counts : ∀ k, (t.files k).ref + (G i).own k = (s.files k).ref + g'.own k)
    (idle : ∀ k, (t.files k).ref = 0 → (t.files k).type = .FD_NONE)
    (files : ∀ j < NPROC, j ≠ i → ∀ k ∈ (G j).fresh, t.files k = s.files k)
    (fresh : ∀ k ∈ g'.fresh, (t.files k).type = .FD_NONE ∧ (t.files k).ref = 1 ∧ g'.own k = 1)
    (live : g'.live = (G i).live) (table : g'.table = (G i).table) (child : g'.child = (G i).child) :
    Shared pool (update G i g') t := by
  refine shared.step hi owned counts idle files fresh ?_ ?_ ?_ ?_ ?_ ?_ ?_ ?_
  · rw [live, slots, shared.live i hi]
  · rw [live, table, slots]
    exact shared.table i hi
  · intro j _ _
    rw [slots]
  · intro j _ _ _
    rw [slots]
  · intro j hj _ np table filling
    rw [slots]
    exact ⟨(shared.child j hj np table filling).2.1, rfl⟩
  · intro np table filling
    rw [child] at filling
    obtain ⟨bound, embryo, same⟩ := shared.child i hi np table filling
    rw [slots]
    exact ⟨bound, embryo, same, fun j hj ne b other => ne (shared.single j hj i hi np b table other filling)⟩
  · intro j hj idle unfilled
    rw [slots] at idle ⊢
    exact shared.empty j hj idle (unfilled.of_update fun _ table filling => ⟨table, by rwa [child]⟩)
  · rw [live, alive]
    nofun

/-- A process changes one of its descriptors. -/
theorem refd (shared : Shared pool G s) (hi : i < NPROC) (live : (G i).live = true) (fd : Nat)
    (f : Option Nat) :
    Shared pool (update G i ((G i).setFd fd f))
      (s.setSlot i { s.slots i with ofile := update (s.slots i).ofile fd f }) := by
  obtain ⟨lost, owned⟩ := shared.owned
  have alive : (s.slots i).state.live = true := by rw [← shared.live i hi, live]
  have mine : (s.setSlot i { s.slots i with
      ofile := update (s.slots i).ofile fd f }).slots i =
      { s.slots i with ofile := update (s.slots i).ofile fd f } := update_self _ _ _
  have other : ∀ j, j ≠ i → (s.setSlot i { s.slots i with
      ofile := update (s.slots i).ofile fd f }).slots j = s.slots j :=
    fun j ne => update_of_ne ne _ _
  have embryo : ∀ np, (s.slots np).state = .EMBRYO → np ≠ i := by
    rintro np growing rfl
    rw [growing] at alive
    cases alive
  have step := (setFd_spec owned.files i fd f).of_ok (t := s.setSlot i { s.slots i with
    ofile := update (s.slots i).ofile fd f }) (a := ()) rfl
  refine shared.step hi ⟨lost, owned.fileStep step.1⟩ (fun _ => rfl) shared.idle (fun _ _ _ _ _ => rfl)
    (shared.fresh i hi) ?_ ?_ ?_ ?_ ?_ ?_ ?_ ?_
  · rw [mine]
    exact shared.live i hi
  · intro _
    rw [mine]
    dsimp only [Share.setFd]
    rw [shared.table i hi live]
  · intro j _ ne
    rw [other j ne]
  · intro j _ ne _
    rw [other j ne]
  · intro j hj _ np table filling
    obtain ⟨_, growing, _⟩ := shared.child j hj np table filling
    rw [other np (embryo np growing)]
    exact ⟨growing, rfl⟩
  · intro np table filling
    obtain ⟨bound, growing, same⟩ := shared.child i hi np table filling
    rw [other np (embryo np growing)]
    exact ⟨bound, growing, same,
      fun j hj ne b filling' => ne (shared.single j hj i hi np b table filling' filling)⟩
  · intro j hj idle unfilled
    have ne : j ≠ i := by
      rintro rfl
      rw [mine, alive] at idle
      cases idle
    rw [other j ne] at idle ⊢
    exact shared.empty j hj idle (unfilled.of_update fun _ table filling => ⟨table, filling⟩)
  · intro dead
    exact absurd live (by rw [show (G i).live = false from dead]; nofun)

/-- The memory of processes changes, or a slot that nobody uses. -/
theorem same (shared : Shared pool G s) (owned : ∃ lost, t.Owned pool lost)
    (files : t.files = s.files)
    (live : ∀ j, (t.slots j).state.live = (s.slots j).state.live)
    (embryo : ∀ j, (t.slots j).state = .EMBRYO ↔ (s.slots j).state = .EMBRYO)
    (ofile : ∀ j, (t.slots j).ofile = (s.slots j).ofile) : Shared pool G t := by
  constructor
  · exact owned
  · rw [files]
    exact shared.count
  · rw [files]
    exact shared.idle
  · intro i hi
    rw [live]
    exact shared.live i hi
  · intro i hi
    rw [ofile]
    exact shared.table i hi
  · rw [files]
    exact shared.fresh
  · intro i hi np table filling
    rw [embryo, ofile]
    exact shared.child i hi np table filling
  · exact shared.single
  · intro i hi
    rw [live, ofile]
    exact shared.empty i hi
  · exact shared.gone

end Shared

section Sections
variable {pool : Multiset Nat} {i : Nat} {g : Share}

theorem Stop.Ordinary.counted {e : Stop} (ordinary : e.Ordinary) : e.Counted := by
  cases ordinary <;> simp [Stop.Counted]

theorem FreesOnce.of_pipes {s t : Sys} (same : t.pipes = s.pipes) : FreesOnce s t := by
  intro p used unused
  rw [same, used] at unused
  cases unused

/-- A section of process `i`, by what it makes of the state and of what `i` holds. -/
theorem holds_section {α : Type} {m : S α} {Q : α → Share → Prop} (live : g.live = true)
    (effect : ∀ G s, G i = g → Shared pool G s → Sat m s (fun b t => FreesOnce s t ∧
      ∃ g', Shared pool (update G i g') t ∧ Q b g') (fun e _ => e.Counted)) :
    (fileDiscipline pool).Holds i (atomic m) g Q := by
  refine .atomic ?_ fun G s own shared _ => (effect G s own shared).imp ?_
  · change ¬ g.live = false
    rw [live]
    nofun
  · rintro b t ⟨frees, g', shared', post⟩
    refine ⟨frees, _, shared', fun j ne => Or.inl (update_of_ne ne _ _), ?_⟩
    rwa [update_self]

theorem pipeclose_effect (s : Sys) (p : Nat) (w : Bool) :
    Sat (pipeclose p w) s (fun _ t => t.files = s.files ∧
      t.pipes = update s.pipes p ((s.pipes p).close w) ∧
      (((s.pipes p).close w).inUse = false → t.phys.freelist = p :: s.phys.freelist))
      (fun e _ => e.Ordinary) := by
  rw [pipeclose, sat_bind, sat_get, sat_bind, sat_modify]
  split
  · rw [sysPhys, sat_zoom, kfree, sat_bind, sat_get]
    split
    · exact .kfree
    · simp only [sat_bind, memset, sat_modify]
      exact ⟨rfl, rfl, fun _ => rfl⟩
  · rename_i other
    refine ⟨rfl, rfl, fun closed => absurd ?_ other⟩
    simpa [Pipe.inUse] using closed

/-- `fileclose` on a file with references: one goes, and with the last one the file
is free again. -/
theorem fileclose_effect {s : Sys} {lost : Multiset Nat} (owned : s.Owned pool lost) {f : Nat}
    (held : 1 ≤ (s.files f).ref) :
    Sat (fileclose f) s (fun _ t => FreesOnce s t ∧ t.Owned pool lost ∧ t.slots = s.slots ∧
      (∀ k, k ≠ f → t.files k = s.files k) ∧ (t.files f).ref + 1 = (s.files f).ref ∧
      ((t.files f).ref = 0 → (t.files f).type = .FD_NONE)) (fun e _ => e.Ordinary) := by
  have files : Sat (fileclose f) s (fun _ t => FreesOnce s t ∧
      (∀ k, k ≠ f → t.files k = s.files k) ∧ (t.files f).ref + 1 = (s.files f).ref ∧
      ((t.files f).ref = 0 → (t.files f).type = .FD_NONE)) (fun e _ => e.Ordinary) := by
    rw [fileclose, sat_bind, sat_get]
    dsimp only
    rw [if_neg (by omega)]
    by_cases shared : 0 < (s.files f).ref - 1
    · rw [if_pos shared, modifyFile, sat_modify]
      refine ⟨.of_pipes rfl, fun k ne => update_of_ne ne _ _, ?_, ?_⟩
      · simp only [Sys.setFile, update_self]
        omega
      · simp only [Sys.setFile, update_self]
        omega
    · rw [if_neg shared, sat_bind, modifyFile, sat_modify]
      have last : (s.files f).ref = 1 := by omega
      have post : ∀ t : Sys, t.files = (s.setFile f { s.files f with ref := 0, type := .FD_NONE }).files →
          (∀ k, k ≠ f → t.files k = s.files k) ∧ (t.files f).ref + 1 = (s.files f).ref ∧
          ((t.files f).ref = 0 → (t.files f).type = .FD_NONE) := by
        intro t same
        rw [same]
        refine ⟨fun k ne => update_of_ne ne _ _, ?_, ?_⟩
        · simp only [Sys.setFile, update_self, last]
        · simp only [Sys.setFile, update_self, implies_true]
      cases kind : (s.files f).type with
      | FD_NONE | FD_INODE => exact ⟨.of_pipes rfl, post _ rfl⟩
      | FD_PIPE =>
        refine (pipeclose_effect (s.setFile f { s.files f with ref := 0, type := .FD_NONE })
          (s.files f).pipe (s.files f).writable).imp ?_
        rintro _ t ⟨files, pipes, freed⟩
        refine ⟨fun p used unused => ?_, post t files⟩
        have here : p = (s.files f).pipe := by
          by_contra ne
          rw [pipes, update_of_ne ne] at unused
          exact absurd used (by rw [show (s.pipes p).inUse = false from unused]; rintro ⟨⟩)
        subst here
        rw [pipes, update_self] at unused
        refine ⟨fun free => ?_, freed unused⟩
        rw [(owned.free_pipe free).2] at used
        cases used
  refine ((fileclose_spec owned.files f).and files).mono ?_ fun _ _ stop => stop.2
  rintro _ t ⟨⟨step, slots⟩, frees, rest⟩
  exact ⟨frees, owned.fileStep step, slots, rest⟩

theorem holds_fileclose {f : Nat} (hi : i < NPROC) (live : g.live = true) (held : 1 ≤ g.own f) :
    (fileDiscipline pool).Holds i (atomic (fileclose f)) g (fun _ g' => g' = g.drop f) := by
  refine holds_section live fun G s own shared => ?_
  subst own
  obtain ⟨lost, owned⟩ := shared.owned
  have le := shared.own_le hi f
  refine (fileclose_effect owned (by omega)).mono ?_ fun _ _ stop => stop.counted
  rintro _ t ⟨frees, owned', slots, others, count, idle⟩
  refine ⟨frees, (G i).drop f, shared.refile hi live ⟨lost, owned'⟩ slots (fun k => ?_) (fun k free => ?_)
    (fun j hj ne k fresh => ?_) (fun k fresh => ?_) rfl rfl rfl, rfl⟩
  · by_cases here : k = f
    · subst here
      simp only [Share.drop, update_self]
      omega
    · simp only [Share.drop, update_of_ne here, others k here]
  · by_cases here : k = f
    · rw [here] at free ⊢
      exact idle free
    · rw [others k here] at free ⊢
      exact shared.idle k free
  · apply others
    rintro rfl
    have none := shared.fresh_apart hi hj ne.symm fresh
    omega
  · obtain ⟨member, other⟩ := List.mem_filter.mp fresh
    have other : k ≠ f := by simpa using other
    simp only [Share.drop, update_of_ne other, others k other]
    exact shared.fresh i hi k member

theorem holds_filealloc (hi : i < NPROC) (live : g.live = true) :
    (fileDiscipline pool).Holds i (atomic filealloc) g (fun r g' => match r with
      | none => g' = g
      | some k => g.own k = 0 ∧ g' = { g.take k with fresh := k :: g.fresh }) := by
  refine holds_section live fun G s own shared => ?_
  subst own
  obtain ⟨lost, owned⟩ := shared.owned
  have calm : Only Stop.Ordinary filealloc := by
    refine .bind .get fun s => ?_
    split
    · exact .pure _
    · exact .bind (.modify _) fun _ => .pure _
  refine (calm.sat (filealloc_spec s)).mono (fun r t taken => ?_) fun _ _ stop => stop.counted
  cases r with
  | none =>
    subst taken
    refine ⟨.of_pipes rfl, G i, ?_, rfl⟩
    rwa [update_eq_self]
  | some k =>
    obtain ⟨free, rfl⟩ := taken
    have le := shared.own_le hi k
    have mine : (G i).own k = 0 := by omega
    have file : ((s.setFile k { s.files k with ref := 1 }).files k) = { s.files k with ref := 1 } :=
      update_self _ _ _
    have others : ∀ l, l ≠ k → (s.setFile k { s.files k with ref := 1 }).files l = s.files l :=
      fun l ne => update_of_ne ne _ _
    refine ⟨.of_pipes rfl, { (G i).take k with fresh := k :: (G i).fresh },
      shared.refile hi live ⟨lost, owned.fileStep (.taken owned.files free)⟩ rfl (fun l => ?_) (fun l none => ?_) (fun j hj ne l fresh => ?_) (fun l fresh => ?_) rfl rfl rfl,
      mine, rfl⟩
    · by_cases here : l = k
      · subst here
        simp only [file, Share.take, update_self]
        omega
      · simp only [others l here, Share.take, update_of_ne here]
    · by_cases here : l = k
      · rw [here, file] at none
        cases none
      · rw [others l here] at none ⊢
        exact shared.idle l none
    · apply others
      rintro rfl
      obtain ⟨_, one, _⟩ := shared.fresh j hj l fresh
      omega
    · by_cases here : l = k
      · subst here
        simp only [file, Share.take, update_self]
        exact ⟨shared.idle l free, trivial, by omega⟩
      · have member : l ∈ (G i).fresh := (List.mem_cons.mp fresh).resolve_left here
        simp only [others l here, Share.take, update_of_ne here]
        exact shared.fresh i hi l member

theorem holds_filedup {f : Nat} (hi : i < NPROC) (live : g.live = true) (held : 1 ≤ g.own f)
    (set : f ∉ g.fresh) :
    (fileDiscipline pool).Holds i (atomic (filedup f)) g (fun _ g' => g' = g.take f) := by
  refine holds_section live fun G s own shared => ?_
  subst own
  obtain ⟨lost, owned⟩ := shared.owned
  have le := shared.own_le hi f
  have step := filedup_spec owned.files f
  rw [filedup, sat_bind, sat_get, if_neg (by omega), modifyFile, sat_modify] at step ⊢
  have file : (s.setFile f { s.files f with ref := (s.files f).ref + 1 }).files f =
      { s.files f with ref := (s.files f).ref + 1 } := update_self _ _ _
  have others : ∀ l, l ≠ f →
      (s.setFile f { s.files f with ref := (s.files f).ref + 1 }).files l = s.files l :=
    fun l ne => update_of_ne ne _ _
  refine ⟨.of_pipes rfl, (G i).take f, shared.refile hi live ⟨lost, owned.fileStep step.1⟩ rfl
    (fun l => ?_) (fun l none => ?_) (fun j hj ne l fresh => ?_) (fun l fresh => ?_) rfl rfl rfl, rfl⟩
  · by_cases here : l = f
    · subst here
      simp only [file, Share.take, update_self]
      omega
    · simp only [others l here, Share.take, update_of_ne here]
  · by_cases here : l = f
    · rw [here, file] at none
      cases none
    · rw [others l here] at none ⊢
      exact shared.idle l none
  · apply others
    rintro rfl
    have none := shared.fresh_apart hi hj ne.symm fresh
    omega
  · have ne : l ≠ f := by
      rintro rfl
      exact set fresh
    simp only [others l ne, Share.take, update_of_ne ne]
    exact shared.fresh i hi l fresh

theorem holds_setFd (hi : i < NPROC) (live : g.live = true) (fd : Nat) (f : Option Nat) :
    (fileDiscipline pool).Holds i (atomic (setFd i fd f)) g (fun _ g' => g' = g.setFd fd f) := by
  refine holds_section live fun G s own shared => ?_
  subst own
  rw [setFd, modifySlot, sat_modify]
  exact ⟨.of_pipes rfl, _, shared.refd hi live fd f, rfl⟩

theorem holds_fdalloc (hi : i < NPROC) (live : g.live = true) (f : Nat) :
    (fileDiscipline pool).Holds i (atomic (fdalloc i f)) g (fun r g' => match r with
      | none => g' = g
      | some fd => fd < NOFILE ∧ g.table fd = none ∧ g' = g.setFd fd (some f)) := by
  refine holds_section live fun G s own shared => ?_
  subst own
  rw [fdalloc, sat_bind, sat_get]
  cases found : (List.range NOFILE).find? fun fd => (s.slots i).ofile fd = none with
  | none =>
    refine ⟨.of_pipes rfl, G i, ?_, rfl⟩
    rwa [update_eq_self]
  | some fd =>
    have free : (s.slots i).ofile fd = none := by simpa using List.find?_some found
    have bound := List.mem_range.mp (List.mem_of_find?_eq_some found)
    rw [shared.table i hi live] at free
    simp only [sat_bind, setFd, modifySlot, sat_modify, sat_pure]
    exact ⟨.of_pipes rfl, _, shared.refd hi live fd (some f), bound, free, rfl⟩

/-- A section that only looks at the descriptors of its process. -/
theorem holds_look {α : Type} {m : S α} (look : (Nat → Option Nat) → α) (hi : i < NPROC)
    (live : g.live = true) (is : ∀ s, m.run s = .ok (look (s.slots i).ofile) s) :
    (fileDiscipline pool).Holds i (atomic m) g (fun r g' => r = look g.table ∧ g' = g) := by
  refine holds_section live fun G s own shared => ?_
  subst own
  have table := shared.table i hi live
  unfold Sat
  rw [is s]
  refine ⟨.of_pipes rfl, G i, ?_, by rw [table], rfl⟩
  rwa [update_eq_self]

end Sections

end Xv6
