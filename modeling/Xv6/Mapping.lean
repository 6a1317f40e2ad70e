import Xv6.Capacity
import Xv6.Stops

/-! Mapping pages that are not mapped. `mappages` then writes the pages of its range into
the flat map and nothing else. The routines that add pages to an address space stop for an
ordinary reason at most, as long as the pages they add are not there yet and the pages they
copy are. -/
namespace Xv6
open PteBit Control

/-- The loop of `mappages` as it is written: it ends at the page `last`, and `fuel` bounds
the rounds. -/
def mapUntil (last : Nat) (perm : Flags) : Nat → PgDir → Nat → Nat → M (Bool × PgDir)
  | 0, _, _, _ => throw .spin
  | fuel + 1, d, a, pa => do
    match ← walkpgdirAlloc d a with
    | none => return (false, d)
    | some d =>
      if (walkpgdir d a).any Pte.mapped then
        throw (.panic "p4Debug, remapping page")
      else
        let d := d.setPte a (mkPte pa perm)
        if a = last then return (true, d)
        else mapUntil last perm fuel d (uint (a + PGSIZE)) (uint (pa + PGSIZE))

/-- The address meets `last` after as many rounds as there are pages up to it, modulo
`2 ^ 32`, and not before. -/
theorem mapUntil_eq (perm : Flags) {last : Nat} (page : last % 4096 = 0) (word : last < 2 ^ 32)
    (n fuel : Nat) (enough : n < fuel) (d : PgDir) (a pa : Nat) (aligned : a % 4096 = 0) (low : a < 2 ^ 32)
    (count : uint (last + 2 ^ 32 - a) = n * 4096) :
    mapUntil last perm fuel d a pa = mappagesLoop perm (n + 1) d a pa := by
  induction n generalizing fuel d a pa with
  | zero =>
    obtain ⟨fuel, rfl⟩ := Nat.exists_eq_add_one.mpr enough
    have here : a = last := by
      simp only [uint] at count
      omega
    rw [mapUntil, mappagesLoop]
    refine bind_congr fun r => ?_
    cases r with
    | none => rfl
    | some d => simp only [if_pos here, mappagesLoop]
  | succ n ih =>
    obtain ⟨fuel, rfl⟩ := Nat.exists_eq_add_one.mpr (Nat.zero_lt_of_lt enough)
    simp only [uint] at count
    have before : a ≠ last := by omega
    rw [mapUntil, mappagesLoop]
    refine bind_congr fun r => ?_
    cases r with
    | none => rfl
    | some d =>
      dsimp only
      rw [if_neg before, ih fuel (by omega)]
      · simp only [uint, PGSIZE]
        omega
      · exact Nat.mod_lt _ (by decide)
      · simp only [uint, PGSIZE]
        omega

theorem iterate_page {pa : Nat} (word : pa < 2 ^ 32) (k : Nat) :
    (fun pa => uint (pa + PGSIZE))^[k] pa = uint (pa + k * PGSIZE) := by
  induction k with
  | zero => exact (Nat.mod_eq_of_lt word).symm
  | succ k ih =>
    rw [Function.iterate_succ_apply', ih]
    simp only [uint, PGSIZE]
    omega

theorem mkPte_flags (pa : Nat) (perm : Flags) : (mkPte pa perm).flags =
    perm ||| if perm &&& PTE_E.mask = 0#12 then PTE_P.mask else PTE_E.mask := by
  by_cases coded : perm &&& PTE_E.mask = 0#12
  · simp [mkPte, Pte.has, Pte.set, coded]
  · simp [mkPte, Pte.has, Pte.set, coded]

/-- `mappages` writes the flat map: it returns after the last page at the latest, and has
then mapped a first part of the range, all of it when it succeeds. -/
theorem mappages_flat (d : PgDir) (va size pa : Nat) (perm : Flags) (m : Phys) (positive : 0 < size)
    (whole : va + size - 1 < 2 ^ 32) (aligned : pa % PGSIZE = 0) (word : pa < 2 ^ 32)
    (free : ∀ v, va / PGSIZE ≤ v → v ≤ (va + size - 1) / PGSIZE →
      (d.flat v).has PTE_P = false ∧ (d.flat v).has PTE_E = false) :
    let first := va / PGSIZE
    let last := (va + size - 1) / PGSIZE
    ∃ ok d' m' k,
      (∀ fuel, last - first < fuel →
        (mapUntil (pgRoundDown (uint (va + size + 2 ^ 32 - 1))) perm fuel d (pgRoundDown va) pa).run m =
          .ok (ok, d') m') ∧
      (mappages d va size pa perm).run m = .ok (ok, d') m' ∧
      first + k ≤ last + 1 ∧ (ok = true ↔ first + k = last + 1) ∧
      ∀ v, if first ≤ v ∧ v < first + k then
          (d'.flat v).ppn * PGSIZE = uint (pa + (v - first) * PGSIZE) ∧
          (d'.flat v).flags = perm ||| if perm &&& PTE_E.mask = 0#12 then PTE_P.mask else PTE_E.mask
        else d'.flat v = d.flat v := by
  intro first last
  have order : first ≤ last := Nat.div_le_div_right (by omega)
  have count : mapCount va size = last - first + 1 := by
    simp only [mapCount, pgRoundDown, PGSIZE, uint, first, last]
    omega
  have base : pgRoundDown va / 4096 = first := by
    simp only [pgRoundDown, PGSIZE, first]
    omega
  obtain ⟨⟨ok, d'⟩, m', run, _, k, bound, done, flat⟩ :=
    (mappagesLoop_flat perm (mapCount va size) d (pgRoundDown va) pa m (fun v low high => by
      obtain ⟨absent, plain⟩ := free v (show first ≤ v by omega) (show v ≤ last by omega)
      rw [Pte.mapped, absent, plain, Bool.or_self]) (by simp only [pgRoundDown, PGSIZE]; omega)
      (by rw [count]; simp only [pgRoundDown, PGSIZE, first, last]; omega)).returns
  refine ⟨ok, d', m', k, fun fuel enough => ?_, run, by omega, done.trans (by omega), fun v => ?_⟩
  · rw [← run, count, mapUntil_eq perm _ _ _ fuel enough]
    all_goals
      simp only [pgRoundDown, PGSIZE, uint, first, last]
      omega
  · have entry := flat v
    rw [base, iterate_page word] at entry
    split
    · rename_i inside
      dsimp only at entry
      rw [entry, if_pos inside, mkPte_flags, mkPte_ppn]
      refine ⟨?_, rfl⟩
      simp only [uint, PGSIZE] at aligned ⊢
      omega
    · rename_i outside
      exact entry.trans (if_neg outside)

/-- The last two pages of the address space. -/
theorem mappages_top : ∃ d' m',
    (mappages ⟨0, fun _ => none⟩ 0xffffe123 0x1edd 0xffffe000 PTE_W.mask).run
      ⟨⟨0x80108000, 1000, by decide, by decide, by decide⟩, fun _ => Page.fill 1, [2000]⟩ =
        .ok (true, d') m' ∧ (d'.flat 0xfffff).ppn = 0xfffff ∧ d'.flat 0 = .zero := by
  obtain ⟨ok, d', m', k, _, run, _, done, flat⟩ := mappages_flat ⟨0, fun _ => none⟩ 0xffffe123 0x1edd
    0xffffe000 PTE_W.mask ⟨⟨0x80108000, 1000, by decide, by decide, by decide⟩, fun _ => Page.fill 1, [2000]⟩
    (by decide) (by decide) (by decide) (by decide) fun v _ _ => ⟨Pte.has_zero _, Pte.has_zero _⟩
  have mapped : ok = true := by
    injection run with is
    exact (congrArg Prod.fst is).symm
  have all : k = 2 := by
    have pages : 0xffffe + k = 0xfffff + 1 := done.mp mapped
    omega
  subst all mapped
  refine ⟨d', m', run, ?_, flat 0⟩
  have last := (flat 0xfffff).1
  simp only [PGSIZE, uint] at last
  omega

/-- `kfree` accepts the frame, and the frame is not the null page. -/
def Image.accepts (image : Image) (f : Nat) : Prop :=
  f ≠ 0 ∧ image.end_ ≤ f ∧ f < PHYSTOP / PGSIZE

/-- `kfree` accepts the frame, or may stop. -/
def Image.frees (E : Stop → Prop) (image : Image) (f : Nat) : Prop :=
  image.accepts f ∨ E (.panic "kfree")

/-- No page of the range is mapped. -/
def PgDir.Vacant (d : PgDir) (a b : Nat) : Prop :=
  ∀ v, a ≤ v * 4096 → v * 4096 < b → (d.flat v).mapped = false

/-! The routines that build and free directories stop only in `kfree`, and not there either
as long as the frames they work with are ones that `kfree` accepts. -/

section Ends
variable {E : Stop → Prop} {m : Phys} {d : PgDir}

theorem kfree_ends {f : Nat} (frees : m.image.frees E f) :
    Sat (kfree f) m (fun _ m' => m'.image = m.image) (fun e _ => E e) := by
  unfold kfree
  simp only [sat_bind, sat_get]
  split
  · rename_i bad
    obtain ⟨_, low, high⟩ | stops := frees
    · omega
    · exact stops
  · simp only [sat_bind, memset, sat_modify]
    rfl

theorem PgDir.releaseAll_ends {vs : List Nat} (half : ∀ v ∈ vs, v < 2 ^ 19)
    (frees : ∀ f ∈ d.frames, m.image.frees E f) :
    Sat (vs.foldlM PgDir.release d) m (fun _ _ => True) (fun e _ => E e) := by
  induction vs generalizing d m with
  | nil => trivial
  | cons v vs ih =>
    rw [List.forall_mem_cons] at half
    have free : Sat (d.release v) m (fun _ _ => True) (fun e _ => E e) := by
      unfold PgDir.release
      split
      · rename_i mapped
        have held := frees _ (PgDir.mem_frames half.1 mapped)
        split
        · rename_i null
          obtain accepted | stops := held
          · exact absurd null accepted.1
          · exact stops
        · exact .bind (kfree_ends held) fun _ _ _ => trivial
      · trivial
    rw [List.foldlM_cons]
    refine .seq ((d.release_spec half.1 m).and free) ?_ (fun _ _ stop => stop.2)
    rintro d₁ m₁ ⟨⟨moves, frames, _⟩, _⟩
    refine ih half.2 fun f member => ?_
    rw [moves.image]
    exact frees f (by rw [frames]; exact Multiset.mem_add.mpr (.inl member))

theorem deallocuvm_ends {oldsz newsz : Nat} (user : oldsz ≤ KERNBASE)
    (frees : ∀ f ∈ d.frames, m.image.frees E f) :
    Sat (deallocuvm d oldsz newsz) m (fun r m' => (r.1 = min newsz oldsz ∧ m'.image = m.image) ∧
      ∀ f ∈ r.2.frames, m'.image.frees E f) (fun e _ => E e) := by
  have ends : Sat (deallocuvm d oldsz newsz) m (fun _ _ => True) (fun e _ => E e) := by
    rw [deallocuvm_eq d user]
    refine .bind (PgDir.releaseAll_ends (fun v member => ?_) frees) fun _ _ _ => trivial
    simp only [KERNBASE] at user
    have high := (mem_pagesFrom.mp member).2
    omega
  refine ((deallocuvm_moves d oldsz newsz m user).and ends).mono ?_ (fun _ _ stop => stop.2)
  rintro r m' ⟨⟨size, moves, frames, _⟩, _⟩
  refine ⟨⟨size, moves.image⟩, fun f member => ?_⟩
  rw [moves.image]
  exact frees f (by rw [frames]; exact Multiset.mem_add.mpr (.inl member))

theorem freevmLoop_ends (n : Nat) (bound : n ≤ 1024)
    (frees : ∀ f ∈ d.frames, m.image.frees E f) :
    Sat (freevmLoop d n) m (fun _ m' => m'.image = m.image) (fun e _ => E e) := by
  induction n generalizing m with
  | zero => rfl
  | succ n ih =>
    rw [freevmLoop]
    cases tab : d.tabs (NPDENTRIES - (n + 1)) with
    | none => exact ih (by omega) frees
    | some t =>
      have held : t.frame ∈ d.frames := by
        have listed : t.frame ∈ d.tabFrame (NPDENTRIES - (n + 1)) := by
          simp [PgDir.tabFrame, tab]
        refine Multiset.mem_add.mpr (Or.inl (Multiset.mem_add.mpr (Or.inr ?_)))
        exact Tally.mem_total.mpr ⟨_, by simp only [NPDENTRIES]; omega, listed⟩
      refine .bind (kfree_ends (frees _ held)) fun _ m₁ image => ?_
      refine (ih (by omega) fun f member => ?_).imp (fun _ m' done => done.trans image)
      rw [image]
      exact frees f member

theorem freevm_ends (frees : ∀ f ∈ d.frames, m.image.frees E f) :
    Sat (freevm d) m (fun _ _ => True) (fun e _ => E e) := by
  rw [freevm]
  refine .bind (deallocuvm_ends le_rfl frees) ?_
  rintro ⟨_, d₁⟩ m₁ ⟨_, frees⟩
  dsimp only
  refine .bind (freevmLoop_ends NPDENTRIES le_rfl frees) fun _ m₂ image => ?_
  have own : d₁.frame ∈ d₁.frames :=
    Multiset.mem_add.mpr (Or.inl (Multiset.mem_add.mpr (Or.inl (Multiset.mem_singleton_self _))))
  refine (kfree_ends ?_).imp (fun _ _ _ => trivial)
  rw [image]
  exact frees _ own

/-- Frames that come from the free list are accepted when they go back. -/
theorem Moves.frees {m' : Phys} {A A' : Multiset Nat} (moves : Moves m m' A A')
    (frees : ∀ f ∈ (m.freelist : Multiset Nat) + A, m.image.frees E f) :
    ∀ f ∈ (m'.freelist : Multiset Nat) + A', m'.image.frees E f := by
  intro f member
  rw [moves.image]
  apply frees
  rw [← moves.sum]
  exact member

theorem kalloc_ends (m : Phys) : Sat kalloc m (fun _ _ => True) (fun e _ => E e) := by
  rw [kalloc, sat_bind, sat_get]
  cases m.freelist with
  | nil => trivial
  | cons f rest => trivial

theorem freevm_frees {m : Phys} {d : PgDir}
    (frees : ∀ f ∈ (m.freelist : Multiset Nat) + d.frames, m.image.frees E f) :
    Sat (freevm d) m (fun _ _ => True) (fun e _ => E e) :=
  freevm_ends fun f member => frees f (Multiset.mem_add.mpr (Or.inr member))

theorem setupkvmLoop_ends (ks : List Kmap) {lo : Nat} (ascending : Ascending lo ks)
    (regions : ∀ k ∈ ks, (⟨0, k.perm⟩ : Pte).has PTE_U = false ∧ (⟨0, k.perm⟩ : Pte).has PTE_E = false ∧
      KERNBASE ≤ k.virt)
    (d : PgDir) (m : Phys) (sound : d.Sound) (free : ∀ v, lo ≤ v * 4096 → (d.flat v).mapped = false)
    (frees : ∀ f ∈ (m.freelist : Multiset Nat) + d.frames, m.image.frees E f) :
    Sat (setupkvmLoop ks d) m (fun _ _ => True) (fun e _ => E e) := by
  induction ks generalizing lo d m with
  | nil => trivial
  | cons k rest ih =>
    obtain ⟨above, aligned, positive, high, others⟩ := ascending
    obtain ⟨guard, clear, low⟩ := regions k List.mem_cons_self
    rw [setupkvmLoop, sat_bind]
    apply ((mappages_kernel guard clear d k.virt _ k.physStart m sound aligned low positive high).and
      (mappages_room k.perm k.physStart (fun v from_ _ => free v (by omega)) aligned positive
        high)).mono _ fun _ _ stop => stop.2.elim
    rintro ⟨ok, d₁⟩ m₁ ⟨⟨gains, sound₁, _⟩, _, same⟩
    have frees₁ := gains.moves.frees frees
    cases ok with
    | true =>
      apply ih others (fun k member => regions k (List.mem_cons_of_mem _ member)) d₁ m₁ sound₁ _ frees₁
      intro v from_
      rw [same v (by omega)]
      exact free v (by omega)
    | false =>
      exact .bind (freevm_frees frees₁) fun _ _ _ => trivial

theorem setupkvm_ends {m : Phys} (frees : ∀ f ∈ m.freelist, m.image.frees E f) :
    Sat setupkvm m (fun _ _ => True) (fun e _ => E e) := by
  rw [setupkvm, sat_bind, kalloc, sat_bind, sat_get]
  cases list : m.freelist with
  | nil => trivial
  | cons f rest =>
    simp only [sat_bind, sat_modify, sat_pure, memset, sat_get]
    apply setupkvmLoop_ends _ (kmap_ascending _) _ _ _ (PgDir.blank_new f).sound fun v _ => by simp [PgDir.flat]
    · intro g member
      rw [PgDir.frames_new] at member
      apply frees
      rw [list, List.mem_cons]
      simpa [Phys.write, or_comm] using member
    · have above := m.image.above
      simp only [kmap, List.mem_cons, List.not_mem_nil, or_false, forall_eq_or_imp, forall_eq,
        KERNBASE, KERNLINK, EXTMEM, DEVSPACE]
      refine ⟨⟨by decide, by decide, by omega⟩, ⟨by decide, by decide, by omega⟩,
        ⟨by decide, by decide, ?_⟩, by decide, by decide, by omega⟩
      simp only [Phys.write]
      omega

theorem copyuvmLoop_ends {pgdir : PgDir} {sz : Nat} (size : sz ≤ KERNBASE)
    (mapped : ∀ v, v * 4096 < sz → (pgdir.flat v).mapped = true) (n : Nat) (d : PgDir) (i : Nat)
    (m : Phys) (vacant : d.Vacant i KERNBASE) (aligned : i % 4096 = 0) (inside : i + n * 4096 < sz + 4096)
    (frees : ∀ f ∈ (m.freelist : Multiset Nat) + d.frames, m.image.frees E f) :
    Sat (copyuvmLoop pgdir n d i) m (fun _ _ => True) (fun e _ => E e) := by
  have bound : sz ≤ 2 ^ 31 := size
  induction n generalizing d i m with
  | zero => trivial
  | succ n ih =>
    have page : vpn i = i / 4096 := vpn_of_word (by omega)
    have here : (pgdir.flat (vpn i)).mapped = true := mapped _ (by omega)
    have user : i < KERNBASE := by
      simp only [KERNBASE]
      omega
    rw [copyuvmLoop, PgDir.walk_of_mapped here]
    dsimp only
    rw [if_pos here, sat_bind]
    apply ((kalloc_spec m).and (kalloc_ends m)).mono _ fun _ _ stop => stop.2
    rintro (_ | f) m₁ ⟨taken, _⟩
    · subst taken
      dsimp only
      exact .bind (freevm_frees frees) fun _ _ _ => trivial
    · obtain ⟨free, bytes, image⟩ := taken
      have moved := ((kalloc_moves free bytes image).trans
        (write_moves m₁ f (m₁.bytes (pgdir.flat (vpn i)).ppn))).frame_left d.frames
      rw [add_zero] at moved
      have frees₁ := moved.frees frees
      dsimp only
      rw [sat_bind, sat_modify, sat_bind]
      apply ((mappages_user d i f _ aligned user).and (mappages_room _ (f * PGSIZE)
        (fun v low high => vacant v low (by simp only [PGSIZE, KERNBASE] at *; omega)) aligned (by decide)
        (by simp only [PGSIZE]; omega))).mono _ fun _ _ stop => stop.2.elim
      rintro ⟨ok, d₁⟩ m₂ ⟨filled, _, same⟩
      cases ok with
      | false =>
        obtain ⟨gains, _⟩ := filled
        have frees₂ := (gains.moves.frame {f}).frees frees₁
        dsimp only
        rw [sat_bind]
        apply ((kfree_spec m₂ f).and (kfree_ends (frees₂ f (by simp)))).mono _ fun _ _ stop => stop.2
        rintro _ m₃ ⟨freed, _⟩
        have back := freed.frame_left d₁.frames
        rw [add_zero] at back
        exact .bind (freevm_frees (back.frees frees₂)) fun _ _ _ => trivial
      | true =>
        obtain ⟨_, _, B, moves, frames⟩ := filled
        have next : uint (i + PGSIZE) = i + 4096 := uint_page (by omega)
        have grown := moves.frame_left (d.frames + {f})
        rw [add_zero, ← frames] at grown
        dsimp only
        rw [next]
        apply ih d₁ (i + 4096) m₂ _ (by omega) (by omega) (grown.frees frees₁)
        intro v low high
        rw [same v (by simp only [PGSIZE]; omega)]
        exact vacant v (by omega) high

theorem copyuvm_ends {pgdir : PgDir} {sz : Nat} {m : Phys} (size : sz ≤ KERNBASE)
    (mapped : ∀ v, v * 4096 < sz → (pgdir.flat v).mapped = true)
    (frees : ∀ f ∈ m.freelist, m.image.frees E f) :
    Sat (copyuvm pgdir sz) m (fun _ _ => True) (fun e _ => E e) := by
  rw [copyuvm, sat_bind]
  apply ((setupkvm_spec m).and (setupkvm_ends frees)).mono _ fun _ _ stop => stop.2
  rintro (_ | d) m₁ ⟨built, _⟩
  · trivial
  · obtain ⟨moves, blank⟩ := built
    apply copyuvmLoop_ends size mapped _ d 0 m₁ _ rfl
    · simp only [PGSIZE]
      omega
    · apply moves.frees
      simpa using frees
    · intro v _ user
      simp only [KERNBASE] at user
      rw [blank.empty v (by omega), Pte.zero_mapped]

theorem deallocuvm_frees {oldsz newsz : Nat} (user : oldsz ≤ KERNBASE)
    (frees : ∀ f ∈ (m.freelist : Multiset Nat) + d.frames, m.image.frees E f) :
    Sat (deallocuvm d oldsz newsz) m (fun _ m' => m'.image = m.image) (fun e _ => E e) := by
  exact (deallocuvm_ends user fun f member => frees f (Multiset.mem_add.mpr (Or.inr member))).imp
    fun _ _ done => done.1.2

theorem allocuvmLoop_ends {oldsz newsz : Nat} (user : newsz < KERNBASE) (n : Nat) (d : PgDir) (a : Nat) (m : Phys)
    (vacant : d.Vacant a KERNBASE) (aligned : a % 4096 = 0) (high : a + n * 4096 < newsz + 4096)
    (frees : ∀ f ∈ (m.freelist : Multiset Nat) + d.frames, m.image.frees E f) :
    Sat (allocuvmLoop oldsz newsz n d a) m (fun _ _ => True) (fun e _ => E e) := by
  have bound : newsz < 2 ^ 31 := user
  induction n generalizing d a m with
  | zero => trivial
  | succ n ih =>
    have here : a < KERNBASE := by
      simp only [KERNBASE]
      omega
    rw [allocuvmLoop, sat_bind]
    apply ((kalloc_spec m).and (kalloc_ends m)).mono _ fun _ _ stop => stop.2
    rintro (_ | f) m₁ ⟨taken, _⟩
    · subst taken
      dsimp only
      exact .bind (deallocuvm_frees user.le frees) fun _ _ _ => trivial
    · obtain ⟨free, bytes, image⟩ := taken
      have moved := ((kalloc_moves free bytes image).trans (write_moves m₁ f (Page.fill 0))).frame_left d.frames
      rw [add_zero] at moved
      have frees₁ := moved.frees frees
      dsimp only
      rw [sat_bind, memset, sat_modify, sat_bind]
      apply ((mappages_user d a f _ aligned here).and (mappages_room _ (f * PGSIZE)
        (fun v low high => vacant v low (by simp only [PGSIZE, KERNBASE] at *; omega)) aligned (by decide)
        (by simp only [PGSIZE]; omega))).mono _ fun _ _ stop => stop.2.elim
      rintro ⟨ok, d₁⟩ m₂ ⟨filled, _, same⟩
      cases ok with
      | false =>
        obtain ⟨gains, _⟩ := filled
        have frees₂ := (gains.moves.frame {f}).frees frees₁
        have rest : ∀ g ∈ (m₂.freelist : Multiset Nat) + d₁.frames, m₂.image.frees E g := by
          intro g member
          apply frees₂
          rw [← add_assoc]
          exact Multiset.mem_add.mpr (Or.inl member)
        dsimp only
        rw [sat_bind]
        apply (deallocuvm_frees user.le rest).imp _
        intro r m₃ image
        rw [sat_bind]
        apply (kfree_ends _).imp (fun _ _ _ => trivial)
        rw [image]
        exact frees₂ f (by simp)
      | true =>
        obtain ⟨_, _, B, moves, frames⟩ := filled
        have next : uint (a + PGSIZE) = a + 4096 := uint_page (by omega)
        have grown := moves.frame_left (d.frames + {f})
        rw [add_zero, ← frames] at grown
        dsimp only
        rw [next]
        apply ih d₁ (a + 4096) m₂ _ (by omega) (by omega) (grown.frees frees₁)
        intro v low high
        rw [same v (by simp only [PGSIZE]; omega)]
        exact vacant v (by omega) high

theorem allocuvm_ends {oldsz newsz : Nat}
    (vacant : d.Vacant (pgRoundUp oldsz) KERNBASE)
    (frees : ∀ f ∈ (m.freelist : Multiset Nat) + d.frames, m.image.frees E f) :
    Sat (allocuvm d oldsz newsz) m (fun _ _ => True) (fun e _ => E e) := by
  rw [allocuvm]
  split
  · trivial
  · split
    · trivial
    · rename_i user grows
      have user : newsz < KERNBASE := Nat.lt_of_not_le user
      have bound : newsz < 2 ^ 31 := user
      have round : pgRoundUp oldsz = (oldsz + 4095) / 4096 * 4096 := by
        simp only [pgRoundUp, PGSIZE, uint]
        omega
      apply allocuvmLoop_ends user _ _ _ _ vacant _ _ frees
      · omega
      · simp only [PGSIZE]
        omega

end Ends

theorem frames_of_pages (d : PgDir) (vs : List Nat) : (vs.map fun v => (d.flat v).frames).sum =
    ((vs.filter fun v => (d.flat v).mapped).map fun v => (d.flat v).ppn : List Nat) := by
  induction vs with
  | nil => rfl
  | cons v vs ih =>
    rw [List.map_cons, List.sum_cons, ih, Pte.frames]
    cases mapped : (d.flat v).mapped with
    | false => simp [mapped]
    | true => simp [mapped]

/-- `deallocuvm` is the loop that visits every page in turn. It frees the frames of the
pages that are mapped, and `freevm` frees every frame of the directory, each once. -/
theorem deallocuvm_plain (d : PgDir) (m : Phys) (distinct : d.frames.Nodup)
    (allocated : ∀ f ∈ d.frames, m.image.accepts f ∧ f ∉ m.freelist) (oldsz newsz : Nat)
    (user : oldsz ≤ KERNBASE) :
    let visited := pagesFrom newsz oldsz
    (∀ v, v ∈ visited ↔ newsz ≤ v * PGSIZE ∧ v * PGSIZE < oldsz) ∧
    (deallocuvm d oldsz newsz = do
      let d ← visited.foldlM PgDir.release d
      return (min newsz oldsz, d)) ∧
    (∃ d' m', (deallocuvm d oldsz newsz).run m = .ok (min newsz oldsz, d') m' ∧
      (m'.freelist : Multiset Nat) = m.freelist +
        ((visited.filter fun v => (d.flat v).mapped).map fun v => (d.flat v).ppn : List Nat) ∧
      ((visited.filter fun v => (d.flat v).mapped).map fun v => (d.flat v).ppn).Nodup ∧
      ∀ v, d'.flat v = if v ∈ visited ∧ ((d.flat v).has PTE_P || (d.flat v).has PTE_E) = true then .zero
        else d.flat v) ∧
    ∃ m', (freevm d).run m = .ok () m' ∧ (m'.freelist : Multiset Nat) = m.freelist + d.frames ∧
      ∀ f ∈ d.frames, m'.freelist.count f = 1 := by
  intro visited
  refine ⟨fun v => mem_pagesFrom, deallocuvm_eq d user newsz, ?_, ?_⟩
  · obtain ⟨⟨r, d'⟩, m', run, ⟨size, moves, frames, _, flat⟩, _⟩ :=
      (((deallocuvm_moves d oldsz newsz m user).and
        (deallocuvm_ends user fun f member => .inl (allocated f member).1)).mono (fun _ _ done => done)
        (fun _ _ stop => stop.2)).returns
    dsimp only at size
    subst size
    rw [frames_of_pages] at moves frames
    refine ⟨d', m', run, ?_, ?_, fun v => ?_⟩
    · rw [← moves.sum, add_zero]
    · rw [← Multiset.coe_nodup]
      exact Multiset.nodup_of_le (Multiset.le_add_left _ _) (frames ▸ distinct)
    · rw [show d'.flat v = _ from flat v]
      exact if_congr (and_congr_left' mem_pagesFrom.symm) rfl rfl
  · obtain ⟨_, m', run, moves, _⟩ := (((freevm_spec d m).and
      (freevm_ends fun f member => .inl (allocated f member).1)).mono (fun _ _ done => done)
        (fun _ _ stop => stop.2)).returns
    have sum : (m'.freelist : Multiset Nat) = m.freelist + d.frames := by rw [← moves.sum, add_zero]
    refine ⟨m', run, sum, fun f member => ?_⟩
    rw [← Multiset.coe_count, sum, Multiset.count_add, Multiset.coe_count,
      List.count_eq_zero_of_not_mem (allocated f member).2, zero_add]
    exact Multiset.count_eq_one_of_mem distinct member

/-- A directory with one table and one encrypted page. -/
def onePage : PgDir :=
  ((⟨2000, fun _ => none⟩ : PgDir).setTab 1 ⟨2001, fun _ => .zero⟩).setPte 0x405000 ⟨2002, 0x406#12⟩

theorem onePage_frames : onePage.frames = {2000} + {2001} + {2002} := by
  have table : ((⟨2000, fun _ => none⟩ : PgDir).setTab 1 ⟨2001, fun _ => .zero⟩).frames =
      {2000} + {2001} := (PgDir.addTab_frames (by decide) rfl).trans (by rw [PgDir.frames_new])
  have walk : walkpgdir ((⟨2000, fun _ => none⟩ : PgDir).setTab 1 ⟨2001, fun _ => .zero⟩) 0x405000 =
      some .zero := rfl
  have page := PgDir.setPte_frames_user walk (by decide) ⟨2002, 0x406#12⟩
  rwa [Pte.zero_frames, add_zero, table] at page

theorem deallocuvm_one_page :
    let m : Phys := ⟨⟨0x80108000, 1000, by decide, by decide, by decide⟩, fun _ => Page.fill 1, [3000]⟩
    (∃ d' m', (deallocuvm onePage 0x800000 0x1000).run m = .ok (0x1000, d') m' ∧ d'.flat 0x405 = .zero) ∧
    ∃ m', (freevm onePage).run m = .ok () m' ∧ ∀ f ∈ [2000, 2001, 2002], m'.freelist.count f = 1 := by
  intro m
  obtain ⟨_, _, ⟨d', m₁, run, _, _, flat⟩, m₂, freed, _, once⟩ :=
    deallocuvm_plain onePage m (by rw [onePage_frames]; decide) (fun f member => by
      have range : f = 2000 ∨ f = 2001 ∨ f = 2002 := by simpa [onePage_frames, or_assoc] using member
      obtain rfl | rfl | rfl := range
      all_goals exact ⟨⟨by decide, by decide, by decide⟩, by decide⟩) 0x800000 0x1000 (by decide)
  refine ⟨⟨d', m₁, run, ?_⟩, m₂, freed, fun f member => once f ?_⟩
  · rw [flat, if_pos ⟨mem_pagesFrom.mpr (by decide), by decide⟩]
  · simpa [onePage_frames, or_assoc] using member

section Panics
variable {E : Stop → Prop} [Stop.Panics E]

theorem setupkvm_only : Only E setupkvm := fun _ => setupkvm_ends fun _ _ => .inr Stop.Panics.kfree

omit [Stop.Panics E] in
theorem walkpgdirAlloc_only (d : PgDir) (va : Nat) : Only E (walkpgdirAlloc d va) := by
  unfold walkpgdirAlloc
  split
  · exact .pure _
  · refine .bind kalloc_only fun r => ?_
    cases r with
    | none => exact .pure _
    | some frame => exact .bind (.modify _) fun _ => .pure _

omit [Stop.Panics E] in
theorem mappages_only (remap : E (.panic "p4Debug, remapping page")) (d : PgDir)
    (va size pa : Nat) (perm : Flags) : Only E (mappages d va size pa perm) := by
  have loop : ∀ n d a pa, Only E (mappagesLoop perm n d a pa) := by
    intro n
    induction n with
    | zero => exact fun _ _ _ => .pure _
    | succ n ih =>
      intro d a pa
      rw [mappagesLoop]
      refine .bind (walkpgdirAlloc_only d a) fun r => ?_
      cases r with
      | none => exact .pure _
      | some d' => exact .ite (.throw remap) (ih _ _ _)
  exact loop _ _ _ _

theorem allocuvm_only (remap : E (.panic "p4Debug, remapping page")) (d : PgDir)
    (oldsz newsz : Nat) : Only E (allocuvm d oldsz newsz) := by
  have loop : ∀ n d a, Only E (allocuvmLoop oldsz newsz n d a) := by
    intro n
    induction n with
    | zero => exact fun _ _ => .pure _
    | succ n ih =>
      intro d a
      rw [allocuvmLoop]
      refine .bind kalloc_only fun r => ?_
      cases r with
      | none => exact .bind (deallocuvm_only _ _ _) fun _ => .pure _
      | some mem =>
        refine .bind (.modify _) fun _ => .bind (mappages_only remap _ _ _ _ _) fun r => ?_
        obtain ⟨ok, d'⟩ := r
        cases ok with
        | false =>
          exact .bind (deallocuvm_only _ _ _) fun _ => .bind (kfree_only _) fun _ => .pure _
        | true => exact ih _ _
  exact .ite (.pure _) (.ite (.pure _) (loop _ _ _))

theorem execLoad_only (remap : E (.panic "p4Debug, remapping page")) (ip : Inode)
    (n off sz : Nat) (d : PgDir) : Only E (execLoad ip n off sz d) := by
  induction n generalizing off sz d with
  | zero => exact .pure _
  | succ n ih =>
    rw [execLoad]
    split
    · exact .pure _
    · refine .ite (.pure _) (.ite (ih _ _ _) (.ite (.pure _) (.ite (.pure _) ?_)))
      refine .bind (allocuvm_only remap _ _ _) fun r => .ite (.pure _) (.ite (.pure _) ?_)
      refine .bind (loaduvm_only _ _ _ _ _) fun ok => ?_
      cases ok with
      | false => exact .pure _
      | true => exact ih _ _ _

end Panics

end Xv6
