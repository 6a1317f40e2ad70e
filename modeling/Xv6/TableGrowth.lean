import Xv6.Capacity
import Xv6.Growth

/-! Which page tables a directory has. The routines that change a directory in use only
add tables, and none of them frees one before `freevm` does: `growproc` leaves a table in
place when it has freed every page under it. A copy of an address space gets tables for
the addresses below the size and for those of the kernel. -/
namespace Xv6
open PteBit Control

/-- The second directory has the tables of the first, and others only at indices in `J`. -/
structure PgDir.Widens (d d' : PgDir) (J : Nat → Prop) : Prop where
  kept : ∀ j, (d.tabs j).isSome → (d'.tabs j).isSome
  new : ∀ j, (d'.tabs j).isSome → (d.tabs j).isSome ∨ J j

namespace PgDir.Widens
variable {d d' d'' : PgDir} {J : Nat → Prop}

theorem refl (d : PgDir) (J : Nat → Prop) : d.Widens d J := ⟨fun _ some => some, fun _ => Or.inl⟩

theorem trans (first : d.Widens d' J) (second : d'.Widens d'' J) : d.Widens d'' J where
  kept j some := second.kept j (first.kept j some)
  new j some := (second.new j some).elim (first.new j) Or.inr

theorem same (J : Nat → Prop) (tabs : ∀ j, (d'.tabs j).isSome = (d.tabs j).isSome) :
    d.Widens d' J where
  kept j some := by rwa [tabs j]
  new j some := Or.inl (by rwa [tabs j] at some)

theorem setPte (J : Nat → Prop) (d : PgDir) (va : Nat) (pte : Pte) : d.Widens (d.setPte va pte) J :=
  same J fun j => PgDir.setPte_isSome pte j

theorem walk (widens : d.Widens d' J) {va : Nat} (table : (walkpgdir d va).isSome) :
    (walkpgdir d' va).isSome := by
  rw [walkpgdir, Option.isSome_map] at table ⊢
  exact widens.kept _ table

end PgDir.Widens

section Tables
variable {d : PgDir} {J : Nat → Prop} {m : Phys}

/-- `walkpgdir` adds the one table that it needs. -/
theorem walkpgdirAlloc_tabs {va : Nat} :
    Sat (walkpgdirAlloc d va) m (fun r _ => ∀ d', r = some d' → ∀ j,
      (d'.tabs j).isSome ↔ (d.tabs j).isSome ∨ j = pdx va) noExit := by
  unfold walkpgdirAlloc
  cases tab : d.tabs (pdx va) with
  | some t =>
    intro d' is j
    cases is
    refine (or_iff_left_of_imp ?_).symm
    rintro rfl
    rw [tab]
    rfl
  | none =>
    simp only [sat_bind]
    refine (kalloc_spec m).imp (fun r m₁ taken => ?_)
    cases r with
    | none => exact fun d' is => by cases is
    | some f =>
      simp only [sat_bind, memset, sat_modify, sat_pure]
      intro d' is j
      cases is
      change (Function.update d.tabs (pdx va) _ j).isSome ↔ _
      by_cases here : j = pdx va
      · rw [here, Function.update_self]
        exact iff_of_true rfl (Or.inr rfl)
      · rw [Function.update_of_ne here]
        exact (or_iff_left here).symm

theorem walkpgdirAlloc_widens {va : Nat} (index : J (pdx va)) :
    Sat (walkpgdirAlloc d va) m (fun r _ => ∀ d', r = some d' → d.Widens d' J) noExit := by
  refine walkpgdirAlloc_tabs.imp (fun r _ tabs d' is => ?_)
  refine ⟨fun j some => (tabs d' is j).mpr (Or.inl some), fun j some => ?_⟩
  refine ((tabs d' is j).mp some).imp_right ?_
  rintro rfl
  exact index

theorem mappagesLoop_widens (perm : Flags) (n : Nat) (a pa : Nat)
    (index : ∀ k < n, J (pdx (uint (a + k * 4096)))) (word : a < 2 ^ 32) :
    Sat (mappagesLoop perm n d a pa) m (fun r _ => d.Widens r.2 J) noExit := by
  induction n generalizing d a pa m with
  | zero => exact .refl d J
  | succ n ih =>
    have first : J (pdx a) := by
      have here := index 0 (by omega)
      rwa [Nat.zero_mul, Nat.add_zero, uint, Nat.mod_eq_of_lt word] at here
    have rest : ∀ k < n, J (pdx (uint (uint (a + PGSIZE) + k * 4096))) := by
      intro k hk
      have next := index (k + 1) (by omega)
      have same : uint (uint (a + PGSIZE) + k * 4096) = uint (a + (k + 1) * 4096) := by
        simp only [uint, PGSIZE]
        omega
      rwa [same]
    rw [mappagesLoop]
    refine .bind (walkpgdirAlloc_widens first) fun r m₁ widens => ?_
    cases r with
    | none => exact .refl d J
    | some d₁ =>
      dsimp only
      split
      · exact sat_panic _ _ _
      · refine (ih _ _ rest (Nat.mod_lt _ (by decide))).imp (fun r _ more => ?_)
        exact ((widens d₁ rfl).trans (.setPte J d₁ a _)).trans more

/-- A range that is mapped to the end has all its tables. -/
theorem mappagesLoop_tabs (perm : Flags) (n : Nat) (a pa : Nat) (high : a + n * 4096 ≤ 2 ^ 32) :
    Sat (mappagesLoop perm n d a pa) m (fun r _ => r.1 = true → ∀ j,
      (r.2.tabs j).isSome ↔ (d.tabs j).isSome ∨ ∃ k < n, j = pdx (a + k * 4096)) noExit := by
  induction n generalizing d a pa m with
  | zero =>
    intro _ j
    exact (or_iff_left (by rintro ⟨k, low, _⟩; omega)).symm
  | succ n ih =>
    rw [mappagesLoop, sat_bind]
    refine walkpgdirAlloc_tabs.imp (fun r m₁ tabs => ?_)
    cases r with
    | none => rintro ⟨⟩
    | some d₁ =>
      dsimp only
      split
      · exact sat_panic _ _ _
      -- The address wraps to 0 only behind the last page.
      cases n with
      | zero =>
        intro _ j
        rw [PgDir.setPte_isSome, tabs d₁ rfl j]
        refine or_congr_right ⟨fun is => ⟨0, Nat.one_pos, by simpa using is⟩, ?_⟩
        rintro ⟨k, low, is⟩
        obtain rfl : k = 0 := by omega
        simpa using is
      | succ n =>
        have step : uint (a + PGSIZE) = a + 4096 := uint_page (by omega)
        rw [step]
        refine (ih _ _ (by omega)).imp (fun r _ more ok j => ?_)
        have next : ∀ k, a + 4096 + k * 4096 = a + (k + 1) * 4096 := by
          intro k
          omega
        simp only [next] at more
        rw [more ok, PgDir.setPte_isSome, tabs d₁ rfl j, or_assoc]
        refine or_congr_right ⟨?_, ?_⟩
        · rintro (is | ⟨k, low, is⟩)
          · exact ⟨0, by omega, by simpa using is⟩
          · exact ⟨k + 1, by omega, is⟩
        · rintro ⟨k, low, is⟩
          cases k with
          | zero => exact Or.inl (by simpa using is)
          | succ k => exact Or.inr ⟨k, by omega, is⟩

/-- Mapping one page. -/
theorem mappages_widens (perm : Flags) {a : Nat} (pa : Nat) (aligned : a % 4096 = 0)
    (user : a < KERNBASE) (index : J (pdx a)) :
    Sat (mappages d a PGSIZE pa perm) m (fun r _ => d.Widens r.2 J) noExit := by
  simp only [KERNBASE] at user
  have one : mapCount a PGSIZE = 1 := by
    simp only [mapCount, pgRoundDown, PGSIZE, uint]
    omega
  have base : pgRoundDown a = a := pgRoundDown_of_aligned (by omega)
  rw [mappages, one, base]
  refine mappagesLoop_widens perm 1 a pa (fun k hk => ?_) (by omega)
  obtain rfl : k = 0 := by omega
  rwa [Nat.zero_mul, Nat.add_zero, uint, Nat.mod_eq_of_lt (by omega)]

theorem ungrow_widens {oldsz newsz : Nat} (user : newsz < KERNBASE) :
    Sat (deallocuvm d newsz oldsz) m (fun r _ => d.Widens r.2 J) noExit :=
  (deallocuvm_moves d newsz oldsz m (le_of_lt user)).imp
    fun _ _ ⟨_, _, _, tabs, _⟩ => .same J tabs

theorem allocuvmLoop_widens {oldsz newsz : Nat} (user : newsz < KERNBASE) (n a : Nat)
    (aligned : a % 4096 = 0) (high : n = 0 ∨ a + n * 4096 < newsz + 4096)
    (index : ∀ a, a < newsz → J (pdx a)) :
    Sat (allocuvmLoop oldsz newsz n d a) m (fun r _ => d.Widens r.2 J) noExit := by
  have half := user
  simp only [KERNBASE] at half
  induction n generalizing d a m with
  | zero => exact .refl d J
  | succ n ih =>
    rw [allocuvmLoop]
    refine .bind (kalloc_spec m) fun r m₁ taken => ?_
    cases r with
    | none =>
      dsimp only
      exact .bind (ungrow_widens user) fun _ _ widens => widens
    | some f =>
      simp only [sat_bind, memset, sat_modify]
      refine (mappages_widens _ _ aligned (by simp only [KERNBASE]; omega)
        (index a (by omega))).imp ?_
      rintro ⟨ok, d₁⟩ m₂ widens
      dsimp only at widens
      cases ok with
      | false =>
        dsimp only
        refine .bind (ungrow_widens (J := J) user) fun r m₃ undone => ?_
        exact .bind (kfree_spec m₃ f) fun _ _ _ => widens.trans undone
      | true =>
        have step : uint (a + PGSIZE) = a + 4096 := uint_page (by omega)
        dsimp only
        rw [step]
        exact (ih (a + 4096) (by omega) (by omega)).imp (fun _ _ more => widens.trans more)

theorem allocuvm_widens {oldsz newsz : Nat}
    (index : newsz < KERNBASE → ∀ a, a < newsz → J (pdx a)) :
    Sat (allocuvm d oldsz newsz) m (fun r _ => d.Widens r.2 J) noExit := by
  rw [allocuvm]
  split
  · exact .refl d J
  split
  · exact .refl d J
  · rename_i low grows
    have small : newsz < 2 ^ 31 := by simpa [KERNBASE] using low
    refine allocuvmLoop_widens (by omega) _ _ ?_ ?_ (index (by omega))
    · simp only [pgRoundUp, PGSIZE]
      omega
    · simp only [pgRoundUp, PGSIZE, uint]
      omega

/-- The addresses that a line of `kmap` maps. -/
def Kmap.spans (k : Kmap) (x : Nat) : Prop :=
  k.virt ≤ x ∧ x < k.virt + uint (k.physEnd + 2 ^ 32 - k.physStart)

/-- `setupkvm` makes the tables that `kmap` needs. -/
theorem setupkvmLoop_tabs (ks : List Kmap) {lo : Nat} (ascending : Ascending lo ks) :
    Sat (setupkvmLoop ks d) m (fun r _ => ∀ d', r = some d' → ∀ j,
      (d'.tabs j).isSome ↔ (d.tabs j).isSome ∨ ∃ k ∈ ks, ∃ x, k.spans x ∧ j = pdx x) noExit := by
  induction ks generalizing lo d m with
  | nil =>
    intro d' is j
    cases is
    exact (or_iff_left (by rintro ⟨_, none, _⟩; cases none)).symm
  | cons k rest ih =>
    obtain ⟨_, aligned, positive, high, ascending⟩ := ascending
    have range : ∀ j, (∃ x, k.spans x ∧ j = pdx x) ↔
        ∃ n < (uint (k.physEnd + 2 ^ 32 - k.physStart) + 4095) / 4096,
          j = pdx (k.virt + n * 4096) := by
      intro j
      simp only [Kmap.spans, pdx]
      generalize uint (k.physEnd + 2 ^ 32 - k.physStart) = size at *
      constructor
      · rintro ⟨x, ⟨above, below⟩, rfl⟩
        refine ⟨(x - k.virt) / 4096, by omega, ?_⟩
        omega
      · rintro ⟨n, low, rfl⟩
        exact ⟨k.virt + n * 4096, ⟨by omega, by omega⟩, rfl⟩
    generalize bytes : uint (k.physEnd + 2 ^ 32 - k.physStart) = size at *
    have base : pgRoundDown k.virt = k.virt := pgRoundDown_of_aligned (by omega)
    have count : mapCount k.virt size = (size + 4095) / 4096 := by
      simp only [mapCount, pgRoundDown, PGSIZE, uint]
      omega
    rw [setupkvmLoop, sat_bind, bytes, mappages, base, count]
    refine (mappagesLoop_tabs k.perm _ _ _ (by omega)).imp ?_
    rintro ⟨ok, d₁⟩ m₁ tabs
    cases ok with
    | false =>
      dsimp only
      exact .bind (freevm_spec d₁ m₁) fun _ _ _ d' is => by cases is
    | true =>
      refine (ih ascending).imp (fun r _ more d' is j => ?_)
      rw [more d' is, tabs rfl, ← range, or_assoc]
      simp only [List.mem_cons, exists_eq_or_imp]

/-- The tables that `kmap` needs: the mappings of the physical memory follow each other. -/
theorem kmap_spans (image : Image) (j : Nat) :
    (∃ k ∈ kmap image.data, ∃ x, k.spans x ∧ j = pdx x) ↔ 512 ≤ j ∧ j < 1024 ∧
      (j * 2 ^ 22 < KERNBASE + PHYSTOP ∨ DEVSPACE ≤ j * 2 ^ 22) := by
  have above := image.above
  have below := image.below
  generalize image.data = data at *
  simp only [kmap, List.mem_cons, List.not_mem_nil, or_false, exists_eq_or_imp, exists_eq_left,
    Kmap.spans, KERNBASE, KERNLINK, EXTMEM, PHYSTOP, DEVSPACE, uint, pdx] at *
  have third : (0xE000000 + 2 ^ 32 - (data - 0x80000000)) % 2 ^ 32 = 0x8E000000 - data := by omega
  have second : (data - 0x80000000 + 2 ^ 32 - (0x80000000 + 0x100000 - 0x80000000)) % 2 ^ 32 =
      data - 0x80100000 := by omega
  rw [second, third]
  constructor
  · rintro (⟨x, range, is⟩ | ⟨x, range, is⟩ | ⟨x, range, is⟩ | ⟨x, range, is⟩) <;> omega
  · rintro ⟨high, low, physical | device⟩
    · by_cases first : j * 2 ^ 22 < 0x80100000
      · exact Or.inl ⟨j * 2 ^ 22, by omega, by omega⟩
      · by_cases second : j * 2 ^ 22 < data
        · exact Or.inr (Or.inl ⟨j * 2 ^ 22, by omega, by omega⟩)
        · exact Or.inr (Or.inr (Or.inl ⟨j * 2 ^ 22, by omega, by omega⟩))
    · exact Or.inr (Or.inr (Or.inr ⟨j * 2 ^ 22, by omega, by omega⟩))

/-- Above the user half a directory has the tables of the kernel's mappings. -/
def PgDir.KernelTables (d : PgDir) : Prop :=
  ∀ j, 512 ≤ j → j < 1024 →
    ((d.tabs j).isSome ↔ j * 2 ^ 22 < KERNBASE + PHYSTOP ∨ DEVSPACE ≤ j * 2 ^ 22)

theorem PgDir.KernelTables.widens {d' : PgDir} (tables : d.KernelTables)
    (widens : d.Widens d' (· < 512)) : d'.KernelTables := by
  intro j high low
  rw [← tables j high low]
  exact ⟨fun some => (widens.new j some).resolve_right (by omega), widens.kept j⟩

theorem setupkvm_tabs :
    Sat setupkvm m (fun r _ => ∀ d, r = some d → (∀ j < 512, d.tabs j = none) ∧ d.KernelTables)
      noExit := by
  rw [setupkvm]
  refine .bind (kalloc_spec m) fun r m₁ taken => ?_
  cases r with
  | none => exact fun d is => by cases is
  | some f =>
    dsimp only
    rw [sat_bind, memset, sat_modify, sat_bind, sat_get]
    refine (setupkvmLoop_tabs _ (kmap_ascending _)).imp (fun r _ tabs d is => ?_)
    have tabs := tabs d is
    simp only [Option.isSome_none, Bool.false_eq_true, false_or, kmap_spans] at tabs
    refine ⟨fun j low => ?_, fun j high low => ?_⟩
    · rw [← Option.not_isSome_iff_eq_none, tabs]
      omega
    · rw [tabs, and_iff_right high, and_iff_right low]

theorem setupkvm_tables :
    Sat setupkvm m (fun r _ => ∀ d, r = some d → ∀ j < 512, d.tabs j = none) noExit :=
  setupkvm_tabs.imp (fun _ _ tabs d is => (tabs d is).1)

theorem copyuvmLoop_widens {pgdir : PgDir} (n i : Nat) (aligned : i % 4096 = 0)
    (high : i + n * 4096 ≤ KERNBASE) (index : ∀ k < n, J (pdx (i + k * 4096))) :
    Sat (copyuvmLoop pgdir n d i) m (fun r _ => ∀ d', r = some d' → d.Widens d' J) noExit := by
  have half := high
  simp only [KERNBASE] at half
  induction n generalizing d i m with
  | zero =>
    intro d' is
    cases is
    exact .refl d J
  | succ n ih =>
    have none : ∀ {d : PgDir} d', (none : Option PgDir) = some d' → d.Widens d' J :=
      fun d' is => by cases is
    have first : J (pdx i) := by simpa using index 0 (by omega)
    have rest : ∀ k < n, J (pdx (i + 4096 + k * 4096)) := by
      intro k hk
      have next := index (k + 1) (by omega)
      rwa [Nat.add_mul, Nat.one_mul, Nat.add_comm (k * 4096), ← Nat.add_assoc] at next
    rw [copyuvmLoop]
    cases walkpgdir pgdir i with
    | none => exact sat_panic _ _ _
    | some pte =>
      dsimp only
      split
      · refine .bind (kalloc_spec m) fun r m₁ taken => ?_
        cases r with
        | none =>
          dsimp only
          exact .bind (freevm_spec d m₁) fun _ _ _ => none
        | some f =>
          dsimp only
          rw [sat_bind, sat_modify]
          refine .bind (mappages_widens _ _ aligned (by simp only [KERNBASE]; omega) first) ?_
          rintro ⟨ok, d₁⟩ m₂ widens
          cases ok with
          | false =>
            dsimp only
            refine .bind (kfree_spec m₂ f) fun _ m₃ _ => ?_
            exact .bind (freevm_spec d₁ m₃) fun _ _ _ => none
          | true =>
            have step : uint (i + PGSIZE) = i + 4096 := uint_page (by omega)
            dsimp only
            rw [step]
            refine (ih (i + 4096) (by omega) (by omega) rest (by omega)).imp
              (fun r _ more d' is => ?_)
            exact widens.trans (more d' is)
      · exact sat_panic _ _ _

/-- A child has no table for a region of user memory above the size. -/
theorem copyuvm_tables {pgdir : PgDir} {sz : Nat} (size : sz ≤ KERNBASE) :
    Sat (copyuvm pgdir sz) m (fun r _ => ∀ d, r = some d →
      ∀ j < 512, sz ≤ j * 2 ^ 22 → d.tabs j = none) noExit := by
  simp only [KERNBASE] at size
  rw [copyuvm, sat_bind]
  refine setupkvm_tables.imp (fun r m₁ tables => ?_)
  cases r with
  | none => exact fun d is => by cases is
  | some d =>
    refine (copyuvmLoop_widens (J := fun j => j * 2 ^ 22 < sz) _ 0 rfl ?_ fun k hk => ?_).imp
      (fun r _ widens d' is j low above => ?_)
    · simp only [KERNBASE, PGSIZE]
      omega
    · simp only [pdx, PGSIZE] at hk ⊢
      omega
    · by_contra some
      obtain old | inside := (widens d' is).new j (Option.isSome_iff_ne_none.mpr some)
      · rw [tables d rfl j low] at old
        cases old
      · omega

end Tables

section Grow
variable {s : St}

theorem mencrypted_tabs (s : St) (va : Nat) (len : Int) (j : Nat) :
    ((s.mencrypted va len).proc.pgdir.tabs j).isSome = (s.proc.pgdir.tabs j).isSome := by
  unfold St.mencrypted
  split
  · split
    · exact PgDir.setPte_isSome _ j
    · rfl
  · rfl

theorem growprocLoop_tabs (k a : Nat) :
    Sat (growprocLoop k a) s (fun _ t => ∀ j, (t.proc.pgdir.tabs j).isSome =
      (s.proc.pgdir.tabs j).isSome) noExit := by
  induction k generalizing a s with
  | zero => exact fun _ => rfl
  | succ k ih =>
    rw [growprocLoop]
    refine .seq (mencrypt_spec a 1 s) ?_ (fun e _ failed => by rw [failed.1]; rintro ⟨⟩)
    rintro r t ⟨_, rfl⟩
    exact (ih _).imp (fun _ u same j => (same j).trans (mencrypted_tabs s a 1 j))

/-- `growproc` takes no table away, even where it frees every page under it. -/
theorem growproc_widens (size : s.proc.sz ≤ KERNBASE) {n : Int}
    (index : ∀ a, a < addInt s.proc.sz n → J (pdx a)) :
    Sat (growproc n) s (fun _ t => s.proc.pgdir.Widens t.proc.pgdir J) noExit := by
  rw [growproc, sat_bind, sat_get]
  dsimp only
  by_cases grows : 0 < n
  · rw [if_pos grows, sat_bind, onPhys, sat_zoom]
    refine (allocuvm_widens fun _ => index).imp ?_
    rintro ⟨sz, d⟩ m widens
    dsimp only at widens ⊢
    rw [sat_bind, modifyProc, sat_modify]
    split
    · exact widens
    · refine .bind (growprocLoop_tabs _ _) fun _ u same => ?_
      simp only [sat_bind, switchuvm, modifyProc, sat_modify, sat_pure]
      exact widens.trans (.same _ same)
  · rw [if_neg grows]
    split
    · rw [sat_bind, onPhys, sat_zoom]
      refine (deallocuvm_moves _ _ _ _ size).imp ?_
      rintro ⟨sz, d⟩ m ⟨_, _, _, tabs, _⟩
      have widens : s.proc.pgdir.Widens d J := .same _ tabs
      dsimp only
      rw [sat_bind, modifyProc, sat_modify]
      split
      · exact widens
      · simp only [sat_bind, switchuvm, modifyProc, sat_modify, sat_pure]
        exact widens
    · simp only [sat_bind, switchuvm, modifyProc, sat_modify, sat_pure]
      exact .refl _ _

end Grow

end Xv6
