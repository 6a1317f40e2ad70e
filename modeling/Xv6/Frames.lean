import Xv6.Lib.Control
import Xv6.Lib.Tally
import Xv6.PageTable

/-! A page directory as a flat map from virtual pages to entries, the frames it
holds, and the effect of a memory routine on frames: what the routine takes
comes from the free list, what it gives up goes back there, and no frame outside
these is written. -/
namespace Xv6
open PteBit
open Function (update update_of_ne update_self)

/-- The entry for a virtual page. A page whose page-table page is missing reads
as the empty entry. -/
def PgDir.flat (d : PgDir) (v : Nat) : Pte :=
  match d.tabs (v / 1024) with
  | none => .zero
  | some t => t.ptes (v % 1024)

def Pte.frames (pte : Pte) : Multiset Nat := if pte.mapped then {pte.ppn} else 0

def PgDir.tabFrame (d : PgDir) (i : Nat) : Multiset Nat :=
  (d.tabs i).elim 0 fun t => {t.frame}

/-- The directory itself, its page-table pages and the user pages it maps. The
frames that the kernel half maps belong to the kernel. -/
def PgDir.frames (d : PgDir) : Multiset Nat :=
  {d.frame} + Tally.total 1024 d.tabFrame + Tally.total (2 ^ 19) fun v => (d.flat v).frames

theorem pdx_lt (va : Nat) : pdx va < 1024 := Nat.mod_lt _ (by decide)

theorem vpn_div (va : Nat) : vpn va / 1024 = pdx va := by
  simp only [vpn, pdx, PGSIZE]
  omega

theorem vpn_mod (va : Nat) : vpn va % 1024 = ptx va := by
  simp only [vpn, ptx, PGSIZE]
  omega

theorem vpn_half {a : Nat} (low : a < 2 ^ 31) : vpn a < 2 ^ 19 := by
  simp only [vpn, PGSIZE]
  omega

theorem vpn_of_word {a : Nat} (word : a < 2 ^ 32) : vpn a = a / 4096 := by
  simp only [vpn, PGSIZE]
  omega

theorem uint_page {a : Nat} (room : a + 4096 < 2 ^ 32) : uint (a + PGSIZE) = a + 4096 := by
  simp only [uint, PGSIZE]
  omega

theorem pgRoundDown_of_aligned {a : Nat} (aligned : a % 4096 = 0) : pgRoundDown a = a := by
  simp only [pgRoundDown, PGSIZE]
  omega

@[simp] theorem Pte.zero_mapped : Pte.zero.mapped = false := by simp [Pte.mapped]

@[simp] theorem Pte.zero_frames : Pte.zero.frames = 0 := by simp [Pte.frames]

namespace PgDir
variable {d : PgDir} {va : Nat} {pte : Pte}

theorem walk_eq (d : PgDir) (va : Nat) :
    walkpgdir d va = if (d.tabs (pdx va)).isSome then some (d.flat (vpn va)) else none := by
  simp only [walkpgdir, flat, vpn_div, vpn_mod]
  cases d.tabs (pdx va) <;> rfl

theorem flat_of_walk (walk : walkpgdir d va = some pte) : d.flat (vpn va) = pte := by
  rw [walk_eq] at walk
  split at walk
  · exact Option.some.inj walk
  · contradiction

theorem flat_of_walk_none (walk : walkpgdir d va = none) {v : Nat} (same : v / 1024 = pdx va) :
    d.flat v = .zero := by
  have absent : d.tabs (pdx va) = none := by simpa only [walkpgdir, Option.map_eq_none_iff] using walk
  simp only [flat, same, absent]

/-- A page whose entry is not empty has a page-table page. -/
theorem walk_of_filled (filled : d.flat (vpn va) ≠ .zero) :
    walkpgdir d va = some (d.flat (vpn va)) := by
  cases walk : walkpgdir d va with
  | some pte => rw [flat_of_walk walk]
  | none => exact absurd (flat_of_walk_none walk (vpn_div va)) filled

theorem walk_of_mapped (mapped : (d.flat (vpn va)).mapped = true) :
    walkpgdir d va = some (d.flat (vpn va)) := by
  refine walk_of_filled fun zero => ?_
  rw [zero] at mapped
  simp at mapped

theorem setPte_tabs (d : PgDir) (va : Nat) (new : Pte) (i : Nat) :
    ((d.setPte va new).tabs i).map PgTab.frame = (d.tabs i).map PgTab.frame := by
  unfold setPte
  cases tab : d.tabs (pdx va) with
  | none => rfl
  | some t =>
    by_cases same : i = pdx va
    · simp only [setTab, same, update_self, tab, Option.map_some]
    · simp only [setTab, update_of_ne same]

@[simp] theorem setPte_frame (new : Pte) : (d.setPte va new).frame = d.frame := by
  unfold setPte
  split <;> rfl

theorem setPte_isSome (new : Pte) (i : Nat) : ((d.setPte va new).tabs i).isSome = (d.tabs i).isSome := by
  simpa using congrArg Option.isSome (setPte_tabs d va new i)

theorem setPte_tabFrame (new : Pte) : (d.setPte va new).tabFrame = d.tabFrame := by
  funext i
  have same := setPte_tabs d va new i
  unfold tabFrame
  cases after : (d.setPte va new).tabs i <;> cases before : d.tabs i <;> simp_all

theorem setPte_flat (walk : walkpgdir d va = some pte) (new : Pte) :
    (d.setPte va new).flat = update d.flat (vpn va) new := by
  have tab : ∃ t, d.tabs (pdx va) = some t := by
    simp only [walkpgdir, Option.map_eq_some_iff] at walk
    exact ⟨walk.choose, walk.choose_spec.1⟩
  obtain ⟨t, tab⟩ := tab
  funext v
  simp only [flat, setPte, tab, setTab]
  by_cases table : v / 1024 = pdx va
  · by_cases entry : v % 1024 = ptx va
    · have same : v = vpn va := by
        have h₁ := vpn_div va
        have h₂ := vpn_mod va
        omega
      subst same
      simp only [vpn_div, vpn_mod, update_self]
    · have other : v ≠ vpn va := by
        rintro rfl
        exact entry (vpn_mod va)
      simp only [table, update_self, update_of_ne entry,
        update_of_ne other, flat, tab]
  · have other : v ≠ vpn va := by
      rintro rfl
      exact table (vpn_div va)
    simp only [update_of_ne table, update_of_ne other, flat]

theorem addTab_flat {i frame : Nat} (absent : d.tabs i = none) :
    (d.setTab i ⟨frame, fun _ => .zero⟩).flat = d.flat := by
  funext v
  simp only [flat, setTab]
  by_cases table : v / 1024 = i
  · simp only [table, update_self, absent]
  · simp only [update_of_ne table]

/-- Rewriting one user entry exchanges the frames of the old entry for those of
the new one. -/
theorem setPte_frames_user (walk : walkpgdir d va = some pte) (user : vpn va < 2 ^ 19) (new : Pte) :
    (d.setPte va new).frames + pte.frames = d.frames + new.frames := by
  have entry := Tally.total_change (f := fun v => (d.flat v).frames)
    (g := fun v => ((d.setPte va new).flat v).frames) user
    (fun v _ ne => by simp only [setPte_flat walk, update_of_ne ne])
  simp only [setPte_flat walk, update_self, flat_of_walk walk] at entry
  simp only [frames, setPte_frame, setPte_tabFrame, setPte_flat walk, add_assoc, entry]

/-- Rewriting an entry of the kernel half changes nothing. -/
theorem setPte_frames_kernel (kernel : 2 ^ 19 ≤ vpn va) (new : Pte) : (d.setPte va new).frames = d.frames := by
  have entries : ∀ v < 2 ^ 19, ((d.setPte va new).flat v).frames = (d.flat v).frames := by
    intro v hv
    cases walk : walkpgdir d va with
    | none =>
      have absent : d.tabs (pdx va) = none := by
        simpa only [walkpgdir, Option.map_eq_none_iff] using walk
      simp only [setPte, absent]
    | some pte =>
      have other : v ≠ vpn va := by omega
      simp only [setPte_flat walk, update_of_ne other]
  simp only [frames, setPte_frame, setPte_tabFrame, Tally.total_congr entries]

/-- A new, empty page-table page adds its own frame. -/
theorem addTab_frames {i frame : Nat} (bound : i < 1024) (absent : d.tabs i = none) :
    (d.setTab i ⟨frame, fun _ => .zero⟩).frames = d.frames + {frame} := by
  have table := Tally.total_change (f := d.tabFrame)
    (g := (d.setTab i ⟨frame, fun _ => .zero⟩).tabFrame) bound
    (fun j _ ne => by simp only [tabFrame, setTab, update_of_ne ne])
  have before : d.tabFrame i = 0 := by simp only [tabFrame, absent, Option.elim_none]
  have after : (d.setTab i ⟨frame, fun _ => .zero⟩).tabFrame i = {frame} := by
    simp only [tabFrame, setTab, update_self, Option.elim_some]
  rw [before, after, add_zero] at table
  simp only [frames, addTab_flat absent, table]
  simp only [setTab]
  abel

end PgDir

/-- The effect of a routine on frames: its caller gives it the frames `A` and
gets the frames `A'` back, the difference is settled with the free list, and
only frames that were free or given are written. -/
structure Moves (m m' : Phys) (A A' : Multiset Nat) : Prop where
  sum : (m'.freelist : Multiset Nat) + A' = m.freelist + A
  bytes : ∀ f, f ∉ (m.freelist : Multiset Nat) + A → m'.bytes f = m.bytes f
  image : m'.image = m.image

namespace Moves
variable {m m' m'' : Phys} {A A' A'' B : Multiset Nat}

theorem refl (m : Phys) (A : Multiset Nat) : Moves m m A A := ⟨rfl, fun _ _ => rfl, rfl⟩

theorem trans (first : Moves m m' A A') (second : Moves m' m'' A' A'') : Moves m m'' A A'' := by
  refine ⟨second.sum.trans first.sum, fun f outside => ?_, second.image.trans first.image⟩
  have still : f ∉ (m'.freelist : Multiset Nat) + A' := by rwa [first.sum]
  exact (second.bytes f still).trans (first.bytes f outside)

/-- Frames the routine was not given stay as they are. -/
theorem frame (h : Moves m m' A A') (B : Multiset Nat) : Moves m m' (A + B) (A' + B) := by
  refine ⟨by rw [← add_assoc, ← add_assoc, h.sum], fun f outside => h.bytes f ?_, h.image⟩
  intro inside
  exact outside (by rw [← add_assoc]; exact Multiset.mem_add.mpr (Or.inl inside))

theorem frame_left (h : Moves m m' A A') (B : Multiset Nat) : Moves m m' (B + A) (B + A') := by
  rw [add_comm B A, add_comm B A']
  exact h.frame B

end Moves
end Xv6
