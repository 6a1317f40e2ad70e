import Xv6.AddressSpace

/-! With enough free frames the routines that build page tables succeed. A
directory may still have to take a frame for each page-table page it is missing,
so the free list is measured against those. -/
namespace Xv6
open PteBit Control

/-- The page-table pages a directory does not have. -/
def PgDir.missing (d : PgDir) : Nat := ((Finset.range 1024).filter fun i => (d.tabs i).isNone).card

/-- There are frames for the missing page-table pages, and `n` more. -/
def Room (m : Phys) (d : PgDir) (n : Nat) : Prop := d.missing + n ≤ m.freelist.length

theorem PgDir.missing_setPte (d : PgDir) (va : Nat) (new : Pte) :
    (d.setPte va new).missing = d.missing := by
  refine congrArg Finset.card (Finset.filter_congr fun i _ => ?_)
  have same : ((d.setPte va new).tabs i).isSome = (d.tabs i).isSome := setPte_isSome new i
  cases after : (d.setPte va new).tabs i <;> cases before : d.tabs i <;> simp_all

theorem PgDir.missing_setTab {d : PgDir} {i : Nat} (bound : i < 1024) (absent : d.tabs i = none)
    (t : PgTab) : (d.setTab i t).missing + 1 = d.missing := by
  have member : i ∈ (Finset.range 1024).filter fun j => (d.tabs j).isNone := by
    simp [bound, absent]
  have erased : ((Finset.range 1024).filter fun j => ((d.setTab i t).tabs j).isNone) =
      ((Finset.range 1024).filter fun j => (d.tabs j).isNone).erase i := by
    ext j
    by_cases here : j = i
    · subst here
      simp [setTab]
    · simp [setTab, here]
  rw [missing, missing, erased, Finset.card_erase_of_mem member]
  have positive := Finset.card_pos.mpr ⟨i, member⟩
  omega

theorem kalloc_room {m : Phys} {d : PgDir} {n : Nat} (room : Room m d (n + 1)) :
    Sat kalloc m (fun r m' => ∃ f, r = some f ∧ Room m' d n) (fun _ _ => False) := by
  unfold kalloc
  rw [sat_bind, sat_get]
  unfold Room at room ⊢
  cases free : m.freelist with
  | nil =>
    rw [free, List.length_nil] at room
    omega
  | cons r rest =>
    rw [free, List.length_cons] at room
    exact ⟨r, rfl, by simp only; omega⟩

/-- A walk finds or adds the page-table page, and adds one as long as there is room. -/
theorem walkpgdirAlloc_room (d : PgDir) (va : Nat) (m : Phys) :
    Sat (walkpgdirAlloc d va) m (fun r m' =>
      (∀ n, Room m d n → ∃ d', r = some d' ∧ Room m' d' n) ∧
      ∀ d', r = some d' → d'.flat = d.flat ∧ ∃ pte, walkpgdir d' va = some pte)
      (fun _ _ => False) := by
  unfold walkpgdirAlloc
  cases tab : d.tabs (pdx va) with
  | some t =>
    refine ⟨fun n room => ⟨d, rfl, room⟩, ?_⟩
    rintro _ ⟨⟩
    exact ⟨rfl, t.ptes (ptx va), by simp only [walkpgdir, tab, Option.map_some]⟩
  | none =>
    have fewer := PgDir.missing_setTab (pdx_lt va) tab
    unfold kalloc
    rw [sat_bind, sat_bind, sat_get]
    cases free : m.freelist with
    | nil =>
      refine ⟨fun n room => ?_, fun d' is => by cases is⟩
      have one := fewer ⟨0, fun _ => .zero⟩
      rw [Room, free, List.length_nil] at room
      omega
    | cons f rest =>
      have one := fewer ⟨f, fun _ => .zero⟩
      simp only [sat_bind, sat_modify, sat_pure, memset]
      constructor
      · intro n room
        rw [Room, free, List.length_cons] at room
        exact ⟨_, rfl, by simp only [Room, Phys.write]; omega⟩
      · rintro _ ⟨⟩
        refine ⟨PgDir.addTab_flat tab, .zero, ?_⟩
        simp only [walkpgdir, PgDir.setTab, Function.update_self, Option.map_some]

/-- On a range with no page mapped the loop maps the pages one after the other. It stops
early only where a page-table page is missing and there is no room for it. -/
theorem mappagesLoop_flat (perm : Flags) (n : Nat) (d : PgDir) (a pa : Nat) (m : Phys)
    (free : ∀ v, a / 4096 ≤ v → v < a / 4096 + n → (d.flat v).mapped = false)
    (aligned : a % 4096 = 0) (high : a + n * 4096 ≤ 2 ^ 32) :
    Sat (mappagesLoop perm n d a pa) m (fun r m' =>
      (∀ k, Room m d k → r.1 = true ∧ Room m' r.2 k) ∧
      ∃ k ≤ n, (r.1 = true ↔ k = n) ∧ ∀ v, r.2.flat v =
        if a / 4096 ≤ v ∧ v < a / 4096 + k
        then mkPte ((fun pa => uint (pa + PGSIZE))^[v - a / 4096] pa) perm else d.flat v)
      (fun _ _ => False) := by
  induction n generalizing d a pa m with
  | zero =>
    refine ⟨fun k room => ⟨rfl, room⟩, 0, le_rfl, by simp, fun v => ?_⟩
    rw [if_neg (by omega)]
  | succ n ih =>
    have page : vpn a = a / 4096 := vpn_of_word (by omega)
    rw [mappagesLoop]
    refine .bind (walkpgdirAlloc_room d a m) ?_
    rintro r m₁ ⟨room, walk⟩
    cases r with
    | none =>
      refine ⟨fun k enough => ?_, 0, Nat.zero_le _, by simp, fun v => ?_⟩
      · obtain ⟨_, ⟨⟩, _⟩ := room k enough
      · rw [if_neg (by omega)]
    | some d₁ =>
      obtain ⟨flat, pte, walk⟩ := walk d₁ rfl
      have fresh : pte.mapped = false := by
        rw [← PgDir.flat_of_walk walk, flat]
        exact free _ (by omega) (by omega)
      have room₁ : ∀ k, Room m d k → Room m₁ (d₁.setPte a (mkPte pa perm)) k := by
        intro k enough
        obtain ⟨_, ⟨⟩, left⟩ := room k enough
        rwa [Room, PgDir.missing_setPte]
      have flat₁ : (d₁.setPte a (mkPte pa perm)).flat =
          Function.update d.flat (a / 4096) (mkPte pa perm) := by
        rw [PgDir.setPte_flat walk, page, flat]
      dsimp only
      rw [walk, Option.any_some, if_neg (by simp [fresh])]
      -- The address may wrap to 0 behind the last page.
      cases n with
      | zero =>
        refine ⟨fun k enough => ⟨rfl, room₁ k enough⟩, 1, le_rfl, by simp, fun v => ?_⟩
        rw [flat₁]
        by_cases here : v = a / 4096
        · rw [here, Function.update_self, if_pos (by omega), Nat.sub_self]
          rfl
        · rw [Function.update_of_ne here, if_neg (by omega)]
      | succ n =>
        have next : (a + 4096) / 4096 = a / 4096 + 1 := by omega
        rw [uint_page (by omega)]
        refine (ih _ (a + 4096) _ m₁ (fun v low high => ?_) (by omega) (by omega)).imp ?_
        · rw [flat₁, Function.update_of_ne (by omega)]
          exact free v (by omega) (by omega)
        · rintro r m₂ ⟨room, k, bound, whole, mapped⟩
          refine ⟨fun j enough => room j (room₁ j enough), k + 1, by omega, whole.trans (by omega), fun v => ?_⟩
          rw [mapped, flat₁, next]
          by_cases here : v = a / 4096
          · rw [here, if_neg (by omega), Function.update_self, if_pos (by omega), Nat.sub_self]
            rfl
          · by_cases inside : a / 4096 + 1 ≤ v ∧ v < a / 4096 + 1 + k
            · rw [if_pos inside, if_pos (by omega), ← Function.iterate_succ_apply]
              congr 2
              omega
            · rw [if_neg inside, if_neg (by omega), Function.update_of_ne here]

theorem mappages_room (perm : Flags) {d : PgDir} {va size : Nat} (pa : Nat) {m : Phys}
    (free : ∀ v, va ≤ v * 4096 → v * 4096 < va + size → (d.flat v).mapped = false)
    (aligned : va % 4096 = 0) (positive : 0 < size) (high : va + size ≤ 2 ^ 32) :
    Sat (mappages d va size pa perm) m (fun r m' =>
      (∀ k, Room m d k → r.1 = true ∧ Room m' r.2 k) ∧
      ∀ v, ¬ (va ≤ v * 4096 ∧ v * 4096 < va + size) → r.2.flat v = d.flat v)
      (fun _ _ => False) := by
  have count : mapCount va size = (size + 4095) / 4096 := by
    simp only [mapCount, pgRoundDown, PGSIZE, uint]
    omega
  rw [mappages, pgRoundDown_of_aligned aligned, count]
  refine (mappagesLoop_flat perm _ d va pa m (fun v low high => free v (by omega) (by omega))
    aligned (by omega)).imp ?_
  rintro r m' ⟨room, k, bound, _, mapped⟩
  refine ⟨room, fun v outside => ?_⟩
  rw [mapped, if_neg (by omega)]

/-- The regions follow one another, from the address `lo` on. -/
def Ascending : Nat → List Kmap → Prop
  | _, [] => True
  | lo, k :: rest =>
    let size := uint (k.physEnd + 2 ^ 32 - k.physStart)
    lo ≤ k.virt ∧ k.virt % 4096 = 0 ∧ 0 < size ∧ k.virt + size ≤ 2 ^ 32 ∧
      Ascending (k.virt + size) rest

theorem kmap_ascending (image : Image) : Ascending KERNBASE (kmap image.data) := by
  have aligned := image.aligned
  have above := image.above
  have below := image.below
  simp only [kmap, Ascending, KERNBASE, KERNLINK, EXTMEM, PHYSTOP, DEVSPACE, uint, and_true, true_and]
  omega

theorem setupkvmLoop_room {n : Nat} (ks : List Kmap) {lo : Nat} (ascending : Ascending lo ks)
    {d : PgDir} {m : Phys} (room : Room m d n)
    (free : ∀ v, lo ≤ v * 4096 → (d.flat v).mapped = false) :
    Sat (setupkvmLoop ks d) m (fun r m' => ∃ d', r = some d' ∧ Room m' d' n)
      (fun _ _ => False) := by
  induction ks generalizing lo d m with
  | nil => exact ⟨d, rfl, room⟩
  | cons k rest ih =>
    obtain ⟨above, aligned, positive, high, others⟩ := ascending
    rw [setupkvmLoop]
    refine .bind (mappages_room k.perm k.physStart (fun v low _ => free v (by omega)) aligned positive
      high) ?_
    rintro ⟨ok, d'⟩ m' ⟨enough, same⟩
    obtain ⟨rfl, room⟩ := enough n room
    refine ih others room fun v low => ?_
    rw [same v (by omega)]
    exact free v (by omega)

theorem setupkvm_room {m : Phys} {n : Nat} (enough : 1025 + n ≤ m.freelist.length) :
    Sat setupkvm m (fun r m' => ∃ d, r = some d ∧ Room m' d n) (fun _ _ => False) := by
  have tables : ∀ frame, (⟨frame, fun _ => none⟩ : PgDir).missing ≤ 1024 := by
    intro frame
    have most := Finset.card_filter_le (Finset.range 1024)
      fun i => ((⟨frame, fun _ => none⟩ : PgDir).tabs i).isNone
    rwa [Finset.card_range] at most
  rw [setupkvm, kalloc, sat_bind, sat_bind, sat_get]
  cases free : m.freelist with
  | nil =>
    rw [free, List.length_nil] at enough
    omega
  | cons f rest =>
    rw [free, List.length_cons] at enough
    have few := tables f
    simp only [sat_bind, sat_modify, sat_pure, memset, sat_get]
    refine setupkvmLoop_room _ (kmap_ascending _) ?_ fun v _ => Pte.zero_mapped
    simp only [Room, Phys.write]
    omega

theorem allocuvmLoop_room {oldsz newsz : Nat} {n : Nat} (k : Nat) (d : PgDir) (a : Nat) (m : Phys)
    (room : Room m d (n + k))
    (free : ∀ v, a ≤ v * 4096 → v * 4096 < a + k * 4096 → (d.flat v).mapped = false)
    (aligned : a % 4096 = 0) (high : a + k * 4096 < 2 ^ 32) :
    Sat (allocuvmLoop oldsz newsz k d a) m (fun r m' => r.1 = newsz ∧ Room m' r.2 n)
      (fun _ _ => False) := by
  induction k generalizing d a m with
  | zero => exact ⟨rfl, room⟩
  | succ k ih =>
    have next : uint (a + PGSIZE) = a + 4096 := uint_page (by omega)
    rw [allocuvmLoop]
    refine .bind (kalloc_room room) ?_
    rintro _ m₁ ⟨f, rfl, room₁⟩
    dsimp only
    rw [sat_bind, memset, sat_modify, sat_bind]
    have room₂ : Room (m₁.write f (Page.fill 0)) d (n + k) := room₁
    refine (mappages_room _ _ (fun v low high => free v low ?_) aligned (by decide) ?_).imp ?_
    · simp only [PGSIZE] at high
      omega
    · simp only [PGSIZE]
      omega
    · rintro ⟨ok, d'⟩ m₂ ⟨enough, same⟩
      obtain ⟨rfl, room⟩ := enough _ room₂
      dsimp only at room same ⊢
      rw [next]
      refine ih d' (a + 4096) m₂ room (fun v low high => ?_) (by omega) (by omega)
      simp only [PGSIZE] at same
      rw [same v (by omega)]
      exact free v (by omega) (by omega)

theorem allocuvm_room {oldsz newsz : Nat} {n : Nat} {d : PgDir} {m : Phys}
    (room : Room m d (n + (newsz - pgRoundUp oldsz + 4095) / 4096)) (grows : oldsz ≤ newsz)
    (user : newsz < KERNBASE)
    (free : ∀ v, oldsz ≤ v * 4096 → v * 4096 < newsz → (d.flat v).mapped = false) :
    Sat (allocuvm d oldsz newsz) m (fun r m' => r.1 = newsz ∧ Room m' r.2 n)
      (fun _ _ => False) := by
  have size : newsz < 2 ^ 31 := user
  have round : pgRoundUp oldsz = (oldsz + 4095) / 4096 * 4096 := by
    simp only [pgRoundUp, PGSIZE, uint]
    omega
  rw [allocuvm, if_neg (by omega), if_neg (by omega)]
  refine allocuvmLoop_room _ d _ m room (fun v low high => free v (by omega) ?_) (by omega) ?_
  · simp only [PGSIZE] at high
    omega
  · simp only [PGSIZE]
    omega

end Xv6
