import Xv6.Transparency

/-! `mencrypt` over a range of pages. Its loop returns as soon as it has encrypted one
page, so a range with a second page in the clear is not covered. -/
namespace Xv6
open PteBit Control
open Function (update update_of_ne update_self)

/-- The page is one of the `len` pages from the one of `va` on. -/
def InRange (va len v : Nat) : Prop := ∃ j < len, v = vpn (va + j * PGSIZE)

theorem inRange_zero {va v : Nat} : ¬ InRange va 0 v := by
  rintro ⟨j, hj, _⟩
  omega

theorem inRange_succ {va n v : Nat} : InRange va (n + 1) v ↔ v = vpn va ∨ InRange (uint (va + PGSIZE)) n v := by
  have shift : ∀ j, vpn (uint (va + PGSIZE) + j * PGSIZE) = vpn (va + (j + 1) * PGSIZE) := by
    intro j
    simp only [vpn, uint, PGSIZE]
    omega
  constructor
  · rintro ⟨j, hj, rfl⟩
    cases j with
    | zero => exact .inl (by rw [Nat.zero_mul, Nat.add_zero])
    | succ j => exact .inr ⟨j, by omega, (shift j).symm⟩
  · rintro (rfl | ⟨j, hj, rfl⟩)
    · exact ⟨0, by omega, by rw [Nat.zero_mul, Nat.add_zero]⟩
    · exact ⟨j + 1, by omega, shift j⟩

theorem vpn_pgRoundDown_add (va j : Nat) : vpn (pgRoundDown va + j * PGSIZE) = vpn (va + j * PGSIZE) := by
  simp only [vpn, pgRoundDown, PGSIZE]
  omega

theorem inRange_pgRoundDown {va n v : Nat} : InRange (pgRoundDown va) n v ↔ InRange va n v := by
  simp only [InRange, vpn_pgRoundDown_add]

section Range
variable {d : PgDir} {n a : Nat}

theorem usableRange_iff : usableRange d n a = true ↔ ∀ v, InRange a n v → (d.flat v).usable = true := by
  induction n generalizing a with
  | zero => exact iff_of_true rfl fun v inside => absurd inside inRange_zero
  | succ n ih =>
    rw [usableRange, Bool.and_eq_true, ih]
    constructor
    · rintro ⟨first, rest⟩ v inside
      rcases inRange_succ.mp inside with rfl | later
      · exact first
      · exact rest v later
    · intro all
      exact ⟨all _ (inRange_succ.mpr (.inl rfl)), fun v later => all v (inRange_succ.mpr (.inr later))⟩

theorem tabledRange_of_walk (tables : ∀ j < n, (walkpgdir d (a + j * PGSIZE)).isSome) :
    tabledRange d n a = true := by
  induction n generalizing a with
  | zero => rfl
  | succ n ih =>
    have first := tables 0 (Nat.zero_lt_succ n)
    rw [Nat.zero_mul, Nat.add_zero] at first
    rw [tabledRange, first, Bool.true_and]
    apply ih
    intro j below
    have same : vpn (uint (a + PGSIZE) + j * PGSIZE) = vpn (a + (j + 1) * PGSIZE) := by
      simp only [vpn, uint, PGSIZE]
      omega
    rw [PgDir.walk_congr _ same]
    exact tables (j + 1) (by omega)

theorem target_none (none : target d n a = none) : ∀ v, InRange a n v → (d.flat v).has PTE_E = true := by
  induction n generalizing a with
  | zero => exact fun v inside => absurd inside inRange_zero
  | succ n ih =>
    rw [target] at none
    split at none
    · rename_i coded
      intro v inside
      rcases inRange_succ.mp inside with rfl | later
      · exact coded
      · exact ih none v later
    · cases none

theorem target_some {b : Nat} (picked : target d n a = some b) : InRange a n (vpn b) := by
  induction n generalizing a with
  | zero => cases picked
  | succ n ih =>
    rw [target] at picked
    rw [inRange_succ]
    split at picked
    · exact .inr (ih picked)
    · exact .inl (congrArg vpn (Option.some.inj picked)).symm

end Range

theorem Page.flip_ne (page : Page) : page.flip ≠ page := by
  intro same
  have first : page 0 ^^^ 0xFF = page 0 := congrFun same 0
  have ones : page 0 ^^^ (page 0 ^^^ 0xFF) = page 0 ^^^ page 0 := congrArg (page 0 ^^^ ·) first
  rw [← UInt8.xor_assoc, UInt8.xor_self, UInt8.zero_xor] at ones
  exact absurd ones (by decide)

/-- What encrypting the whole range is to give: every page encrypted, and the bytes of
those that were not encrypted before flipped once. -/
structure Covered (s t : St) (va len : Nat) : Prop where
  coded : ∀ v, InRange va len v →
    (t.proc.pgdir.flat v).has PTE_E = true ∧ (t.proc.pgdir.flat v).has PTE_P = false
  frame : ∀ v, InRange va len v → (t.proc.pgdir.flat v).ppn = (s.proc.pgdir.flat v).ppn
  bytes : ∀ v, InRange va len v → t.phys.bytes (t.proc.pgdir.flat v).ppn =
    if (s.proc.pgdir.flat v).has PTE_E then s.phys.bytes (s.proc.pgdir.flat v).ppn
    else (s.phys.bytes (s.proc.pgdir.flat v).ppn).flip

/-- At most one page of the range is in the clear. The other conditions hold in every
state the kernel reaches: an encrypted page is not present, and no frame is mapped twice. -/
structure OnePlain (s : St) (va len : Nat) : Prop where
  only : ∀ v w, InRange va len v → InRange va len w → (s.proc.pgdir.flat v).has PTE_E = false →
    w ≠ v → (s.proc.pgdir.flat w).has PTE_E = true
  absent : ∀ v, InRange va len v → (s.proc.pgdir.flat v).has PTE_E = true →
    (s.proc.pgdir.flat v).has PTE_P = false
  apart : ∀ v w, InRange va len v → InRange va len w → (s.proc.pgdir.flat v).has PTE_E = false →
    (s.proc.pgdir.flat w).has PTE_E = true → (s.proc.pgdir.flat w).ppn ≠ (s.proc.pgdir.flat v).ppn

section Cover
variable {s : St} {va len b : Nat}

theorem flushed_covered (coded : ∀ v, InRange va len v → (s.proc.pgdir.flat v).has PTE_E = true) :
    Covered s s.flushed va len ↔ OnePlain s va len := by
  constructor
  · intro covered
    have clear : ∀ v, InRange va len v → ¬ (s.proc.pgdir.flat v).has PTE_E = false := by
      intro v inside clear
      rw [coded v inside] at clear
      cases clear
    exact {
      only := fun v w inside _ plain => absurd plain (clear v inside)
      absent := fun v inside _ => (covered.coded v inside).2
      apart := fun v w inside _ plain => absurd plain (clear v inside) }
  · intro one
    exact {
      coded := fun v inside => ⟨coded v inside, one.absent v inside (coded v inside)⟩
      frame := fun v _ => rfl
      bytes := fun v inside => by rw [if_pos (coded v inside)]; rfl }

theorem encryptPage_covered (usable : (s.proc.pgdir.flat (vpn b)).usable = true)
    (plain : (s.proc.pgdir.flat (vpn b)).has PTE_E = false) (inside : InRange va len (vpn b)) :
    Covered s (s.encryptPage b) va len ↔ OnePlain s va len := by
  have flat : (s.encryptPage b).proc.pgdir.flat = update s.proc.pgdir.flat (vpn b)
      (s.proc.pgdir.flat (vpn b)).sealed :=
    PgDir.setPte_flat (PgDir.walk_of_mapped (Pte.usable_iff.mp usable).1) _
  have here : (s.encryptPage b).proc.pgdir.flat (vpn b) = (s.proc.pgdir.flat (vpn b)).sealed := by
    rw [flat, update_self]
  have other : ∀ v, v ≠ vpn b → (s.encryptPage b).proc.pgdir.flat v = s.proc.pgdir.flat v := by
    intro v ne
    rw [flat, update_of_ne ne]
  have bytes : (s.encryptPage b).phys.bytes = update s.phys.bytes (s.proc.pgdir.flat (vpn b)).ppn
      (s.phys.bytes (s.proc.pgdir.flat (vpn b)).ppn).flip := rfl
  constructor
  · intro covered
    have coded : ∀ v, InRange va len v → v ≠ vpn b → (s.proc.pgdir.flat v).has PTE_E = true := by
      intro v range ne
      rw [← other v ne]
      exact (covered.coded v range).1
    have only : ∀ v, InRange va len v → (s.proc.pgdir.flat v).has PTE_E = false → v = vpn b := by
      intro v range clear
      by_contra ne
      rw [coded v range ne] at clear
      cases clear
    exact {
      only := by
        intro v w range range' clear ne
        rw [only v range clear] at ne
        exact coded w range' ne
      absent := by
        intro v range code
        have ne : v ≠ vpn b := by
          rintro rfl
          rw [plain] at code
          cases code
        rw [← other v ne]
        exact (covered.coded v range).2
      apart := by
        intro v w range range' clear code same
        rw [only v range clear] at same
        have ne : w ≠ vpn b := by
          rintro rfl
          rw [plain] at code
          cases code
        have unchanged := covered.bytes w range'
        rw [other w ne, if_pos code, bytes, same, update_self] at unchanged
        exact Page.flip_ne _ unchanged }
  · intro one
    exact {
      coded := by
        intro v range
        by_cases ne : v = vpn b
        · rw [ne, here]
          simp
        · rw [other v ne]
          have code := one.only (vpn b) v inside range plain ne
          exact ⟨code, one.absent v range code⟩
      frame := by
        intro v range
        by_cases ne : v = vpn b
        · rw [ne, here]
          rfl
        · rw [other v ne]
      bytes := by
        intro v range
        by_cases ne : v = vpn b
        · rw [ne, here, if_neg (by rw [plain]; decide), bytes]
          exact update_self ..
        · have code := one.only (vpn b) v inside range plain ne
          rw [other v ne, if_pos code, bytes]
          exact update_of_ne (one.apart (vpn b) v inside range plain code) _ _ }

end Cover

/-- On a range of user pages, each present or encrypted, `mencrypt` returns 0, and it
covers the range exactly when at most one page of it is in the clear. -/
theorem mencrypt_covers_iff {s : St} {va : Nat} {len : Int}
    (user : ∀ v, InRange va len.toNat v →
      (s.proc.pgdir.flat v).has PTE_U = true ∧
        ((s.proc.pgdir.flat v).has PTE_P = true ∨ (s.proc.pgdir.flat v).has PTE_E = true)) :
    ∃ t, (mencrypt va len).run s = .ok 0 t ∧ (Covered s t va len.toNat ↔ OnePlain s va len.toNat) := by
  have usable : usableRange s.proc.pgdir len.toNat (pgRoundDown va) = true := by
    rw [usableRange_iff]
    intro v inside
    obtain ⟨open_, mapped⟩ := user v (inRange_pgRoundDown.mp inside)
    rw [Pte.usable_iff, Pte.mapped, Bool.or_eq_true]
    exact ⟨mapped, open_⟩
  have spec := mencrypt_spec va len s
  rw [if_pos usable] at spec
  have returns : Sat (mencrypt va len) s (fun r t => r = 0 ∧ t = s.mencrypted va len) (fun _ _ => False) := by
    refine spec.mono (fun _ _ done => done) ?_
    rintro e t ⟨_, _, missing⟩
    rw [tabledRange_of_usable usable] at missing
    cases missing
  obtain ⟨r, t, run, rfl, rfl⟩ := returns.returns
  refine ⟨_, run, ?_⟩
  unfold St.mencrypted
  rw [if_pos usable]
  cases picked : target s.proc.pgdir len.toNat (pgRoundDown va) with
  | none => exact flushed_covered fun v inside => target_none picked v (inRange_pgRoundDown.mpr inside)
  | some b =>
    obtain ⟨open_, plain⟩ := target_usable usable picked
    exact encryptPage_covered open_ plain (inRange_pgRoundDown.mp (target_some picked))

theorem inRange_two {v : Nat} (inside : InRange 0 2 v) : v = 0 ∨ v = 1 := by
  rcases inRange_succ.mp inside with rfl | inside
  · exact .inl rfl
  · rcases inRange_succ.mp inside with rfl | inside
    · exact .inr rfl
    · exact absurd inside inRange_zero

/-- The first of two pages is encrypted already: the call covers both. -/
theorem mixed_range_covered : ∃ t, (mencrypt 0 2).run ((afterAll [.mencrypt 0 1] twoPageSys).view 0) = .ok 0 t ∧
    Covered ((afterAll [.mencrypt 0 1] twoPageSys).view 0) t 0 2 := by
  obtain ⟨s, is⟩ : ∃ s, s = (afterAll [.mencrypt 0 1] twoPageSys).view 0 := ⟨_, rfl⟩
  have first : (s.proc.pgdir.flat 0).has PTE_E = true ∧ (s.proc.pgdir.flat 0).has PTE_P = false ∧
      (s.proc.pgdir.flat 0).has PTE_U = true ∧ (s.proc.pgdir.flat 0).ppn = 1010 := by
    rw [is]
    decide +kernel
  have second : (s.proc.pgdir.flat 1).has PTE_E = false ∧ (s.proc.pgdir.flat 1).has PTE_P = true ∧
      (s.proc.pgdir.flat 1).has PTE_U = true ∧ (s.proc.pgdir.flat 1).ppn = 1011 := by
    rw [is]
    decide +kernel
  rw [← is]
  have user : ∀ v, InRange 0 (2 : Int).toNat v → (s.proc.pgdir.flat v).has PTE_U = true ∧
      ((s.proc.pgdir.flat v).has PTE_P = true ∨ (s.proc.pgdir.flat v).has PTE_E = true) := by
    intro v inside
    rcases inRange_two inside with rfl | rfl
    · exact ⟨first.2.2.1, .inr first.1⟩
    · exact ⟨second.2.2.1, .inl second.2.1⟩
  have plain : ∀ v, InRange 0 2 v → (s.proc.pgdir.flat v).has PTE_E = false → v = 1 := by
    intro v inside clear
    rcases inRange_two inside with rfl | rfl
    · rw [first.1] at clear
      cases clear
    · rfl
  have coded : ∀ v, InRange 0 2 v → v ≠ 1 → v = 0 := fun v inside ne => (inRange_two inside).resolve_right ne
  obtain ⟨t, run, covered⟩ := mencrypt_covers_iff user
  refine ⟨t, run, covered.mpr ?_⟩
  exact {
    only := by
      intro v w inside inside' clear ne
      rw [plain v inside clear] at ne
      rw [coded w inside' ne]
      exact first.1
    absent := by
      intro v inside code
      rcases inRange_two inside with rfl | rfl
      · exact first.2.1
      · rw [second.1] at code
        cases code
    apart := by
      intro v w inside inside' clear code
      rw [plain v inside clear, second.2.2.2]
      rcases inRange_two inside' with rfl | rfl
      · rw [first.2.2.2]
        decide
      · rw [second.1] at code
        cases code }

/-- Two pages in the clear: the call returns 0, and the second is still in the clear. -/
theorem second_page_left_plain :
    (∀ v < 2, ((twoPageSys.view 0).proc.pgdir.flat v).has PTE_U = true ∧
      ((twoPageSys.view 0).proc.pgdir.flat v).has PTE_P = true) ∧
    value (mencrypt 0 2) (twoPageSys.view 0) = some 0 ∧
    ((final (mencrypt 0 2) (twoPageSys.view 0)).proc.pgdir.flat 1).has PTE_E = false ∧
    ((final (mencrypt 0 2) (twoPageSys.view 0)).proc.pgdir.flat 1).has PTE_P = true := by
  decide +kernel

/-- No other page that user code can use lies on the frame of the page. -/
def PgDir.Unshared (d : PgDir) (v : Nat) : Prop :=
  ∀ w, w ≠ v → (d.flat w).usable = true → (d.flat w).ppn ≠ (d.flat v).ppn

/-- What any call of `mencrypt` leaves alone. -/
structure Confined (s t : St) (va len : Nat) : Prop where
  entries : ∀ v, ¬ InRange va len v → t.proc.pgdir.flat v = s.proc.pgdir.flat v
  bytes : ∀ f, (∀ v, InRange va len v → (s.proc.pgdir.flat v).ppn ≠ f) → t.phys.bytes f = s.phys.bytes f
  coded : ∀ v, (s.proc.pgdir.flat v).has PTE_E = true → t.proc.pgdir.flat v = s.proc.pgdir.flat v ∧
    (s.proc.pgdir.Unshared v → t.phys.bytes (s.proc.pgdir.flat v).ppn = s.phys.bytes (s.proc.pgdir.flat v).ppn)

theorem Confined.of_eq {s t : St} {va len : Nat} (entries : t.proc.pgdir = s.proc.pgdir)
    (bytes : t.phys.bytes = s.phys.bytes) : Confined s t va len := by
  constructor
  · intro v _
    rw [entries]
  · intro f _
    rw [bytes]
  · intro v _
    rw [entries, bytes]
    exact ⟨rfl, fun _ => rfl⟩

theorem encryptPage_confined {s : St} {va len b : Nat} (usable : (s.proc.pgdir.flat (vpn b)).usable = true)
    (plain : (s.proc.pgdir.flat (vpn b)).has PTE_E = false) (inside : InRange va len (vpn b)) :
    Confined s (s.encryptPage b) va len := by
  have walk := PgDir.walk_of_mapped (Pte.usable_iff.mp usable).1
  have others : ∀ v, v ≠ vpn b → (s.encryptPage b).proc.pgdir.flat v = s.proc.pgdir.flat v := by
    intro v other
    change (s.proc.pgdir.setPte b _).flat v = _
    rw [PgDir.setPte_flat walk, update_of_ne other]
  have bytes : ∀ f, f ≠ (s.proc.pgdir.flat (vpn b)).ppn → (s.encryptPage b).phys.bytes f = s.phys.bytes f :=
    fun f other => update_of_ne other _ _
  constructor
  · intro v outside
    apply others
    rintro rfl
    exact outside inside
  · intro f apart
    exact bytes f (apart _ inside).symm
  · intro v coded
    have other : v ≠ vpn b := by
      rintro rfl
      rw [plain] at coded
      cases coded
    exact ⟨others v other, fun unshared => bytes _ (unshared _ other.symm usable).symm⟩

/-- A range that has a page which is not a user page, present or encrypted, is refused and
nothing changes. In every case the call touches only pages of the range that are in the
clear. -/
theorem mencrypt_all_or_nothing {s : St} {va : Nat} {len : Int}
    (tables : ∀ j < len.toNat, (walkpgdir s.proc.pgdir (va + j * PGSIZE)).isSome) :
    ∃ r t, (mencrypt va len).run s = .ok r t ∧ Confined s t va len.toNat ∧
      ((∃ v, InRange va len.toNat v ∧ ¬ ((s.proc.pgdir.flat v).has PTE_U = true ∧
          ((s.proc.pgdir.flat v).has PTE_P = true ∨ (s.proc.pgdir.flat v).has PTE_E = true))) →
        r = -1 ∧ t.proc.pgdir = s.proc.pgdir ∧ t.phys.bytes = s.phys.bytes) := by
  have tabled : tabledRange s.proc.pgdir len.toNat (pgRoundDown va) = true := by
    apply tabledRange_of_walk
    intro j below
    rw [PgDir.walk_congr _ (vpn_pgRoundDown_add va j)]
    exact tables j below
  have returns : Sat (mencrypt va len) s (fun r t =>
      r = (if usableRange s.proc.pgdir len.toNat (pgRoundDown va) then 0 else -1) ∧
      t = s.mencrypted va len) (fun _ _ => False) := by
    apply (mencrypt_spec va len s).mono (fun _ _ done => done)
    rintro e t ⟨_, _, missing⟩
    rw [tabled] at missing
    cases missing
  obtain ⟨r, t, run, rfl, rfl⟩ := returns.returns
  refine ⟨_, _, run, ?_⟩
  unfold St.mencrypted
  by_cases usable : usableRange s.proc.pgdir len.toNat (pgRoundDown va) = true
  · rw [if_pos usable, if_pos usable]
    constructor
    · cases picked : target s.proc.pgdir len.toNat (pgRoundDown va) with
      | none => exact .of_eq rfl rfl
      | some b =>
        obtain ⟨open_, plain⟩ := target_usable usable picked
        exact encryptPage_confined open_ plain (inRange_pgRoundDown.mp (target_some picked))
    · rintro ⟨v, inside, refused⟩
      obtain ⟨mapped, user⟩ := Pte.usable_iff.mp
        (usableRange_iff.mp usable v (inRange_pgRoundDown.mpr inside))
      rw [Pte.mapped, Bool.or_eq_true] at mapped
      exact absurd ⟨user, mapped⟩ refused
  · rw [if_neg usable, if_neg usable]
    exact ⟨.of_eq rfl rfl, fun _ => ⟨rfl, rfl, rfl⟩⟩

/-- The third page of the range is not there: nothing is encrypted. -/
theorem short_range_refused :
    ∃ t, (mencrypt 0 3).run (twoPageSys.view 0) = .ok (-1) t ∧
      t.proc.pgdir = (twoPageSys.view 0).proc.pgdir ∧ t.phys.bytes = (twoPageSys.view 0).phys.bytes := by
  obtain ⟨s, is⟩ : ∃ s, s = twoPageSys.view 0 := ⟨_, rfl⟩
  have tables : ∀ j < (3 : Int).toNat, (walkpgdir s.proc.pgdir (0 + j * PGSIZE)).isSome := by
    rw [is]
    decide +kernel
  have absent : (s.proc.pgdir.flat 2).has PTE_U = false := by
    rw [is]
    decide +kernel
  rw [← is]
  obtain ⟨r, t, run, _, refused⟩ := mencrypt_all_or_nothing tables
  obtain ⟨rfl, entries, bytes⟩ := refused ⟨2, ⟨2, by decide, by decide⟩, by simp [absent]⟩
  exact ⟨t, run, entries, bytes⟩

end Xv6
