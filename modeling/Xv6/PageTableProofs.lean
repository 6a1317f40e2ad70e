import Mathlib.Algebra.BigOperators.Intervals
import Xv6.Frames

/-! Specifications of the routines that build and free page tables: where the
frames go, and what the directory maps afterwards. A routine that panics is left
without a postcondition. -/
namespace Xv6
open PteBit Control
open Function (update update_of_ne update_self)

/-- A computation that stops has found a fault of the kernel: it does not end
the process. -/
abbrev noExit {σ : Type} : Stop → σ → Prop := fun e _ => e ≠ .exit

theorem sat_panic {σ α : Type} (msg : String) (s : σ) (Q : α → σ → Prop) :
    Sat (throw (.panic msg) : EStateM Stop σ α) s Q noExit := by
  rw [sat_throw]
  exact nofun

theorem kalloc_spec (m : Phys) : Sat kalloc m (fun r m' => match r with
    | none => m' = m
    | some f => m.freelist = f :: m'.freelist ∧ m'.bytes = m.bytes ∧ m'.image = m.image)
    noExit := by
  unfold kalloc
  simp only [sat_bind, sat_get]
  cases free : m.freelist with
  | nil => simp only [sat_pure]
  | cons r rest => simp only [sat_bind, sat_modify, sat_pure, and_self]

theorem kalloc_moves {m m' : Phys} {f : Nat} (free : m.freelist = f :: m'.freelist)
    (bytes : m'.bytes = m.bytes) (image : m'.image = m.image) : Moves m m' 0 {f} := by
  refine ⟨?_, fun _ _ => by rw [bytes], image⟩
  rw [free, ← Multiset.cons_coe, add_zero, ← Multiset.singleton_add, add_comm]

theorem write_moves (m : Phys) (f : Nat) (page : Page) : Moves m (m.write f page) {f} {f} := by
  refine ⟨rfl, fun g outside => ?_, rfl⟩
  have other : g ≠ f := by
    rintro rfl
    exact outside (by simp)
  simp only [Phys.write, update_of_ne other]

theorem kfree_spec (m : Phys) (f : Nat) :
    Sat (kfree f) m (fun _ m' => Moves m m' {f} 0) noExit := by
  unfold kfree
  simp only [sat_bind, sat_get]
  split
  · exact sat_panic _ _ _
  · simp only [sat_bind, memset, sat_modify]
    refine ⟨?_, (write_moves m f _).bytes, rfl⟩
    simp only [Phys.write, ← Multiset.cons_coe, ← Multiset.singleton_add]
    abel

/-- The directory keeps the frames it had and takes others from the free list. -/
def Gains (m m' : Phys) (d d' : PgDir) : Prop :=
  ∃ B, Moves m m' 0 B ∧ d'.frames = d.frames + B

/-- The directory gives some of its frames back to the free list. -/
def Yields (m m' : Phys) (d d' : PgDir) : Prop :=
  ∃ B, Moves m m' B 0 ∧ d.frames = d'.frames + B

theorem Gains.refl (m : Phys) (d : PgDir) : Gains m m d d := ⟨0, .refl m 0, by simp⟩

theorem Gains.trans {m m' m'' : Phys} {d d' d'' : PgDir} (first : Gains m m' d d')
    (second : Gains m' m'' d' d'') : Gains m m'' d d'' := by
  obtain ⟨B, moves, frames⟩ := first
  obtain ⟨B', moves', frames'⟩ := second
  refine ⟨B + B', moves.trans ?_, by rw [frames', frames, add_assoc]⟩
  simpa only [zero_add, add_zero, add_comm] using moves'.frame_left B

theorem Gains.moves {m m' : Phys} {d d' : PgDir} (h : Gains m m' d d') :
    Moves m m' d.frames d'.frames := by
  obtain ⟨B, moves, frames⟩ := h
  rw [frames]
  simpa only [add_zero] using moves.frame_left d.frames

theorem Yields.moves {m m' : Phys} {d d' : PgDir} (h : Yields m m' d d') :
    Moves m m' d.frames d'.frames := by
  obtain ⟨B, moves, frames⟩ := h
  rw [frames]
  simpa only [add_zero] using moves.frame_left d'.frames

theorem walkpgdirAlloc_spec (d : PgDir) (va : Nat) (m : Phys) :
    Sat (walkpgdirAlloc d va) m (fun r m' => match r with
      | none => m' = m
      | some d' => (∃ pte, walkpgdir d' va = some pte) ∧ d'.flat = d.flat ∧ Gains m m' d d')
      noExit := by
  unfold walkpgdirAlloc
  cases tab : d.tabs (pdx va) with
  | some t =>
    simp only [sat_pure]
    exact ⟨⟨t.ptes (ptx va), by simp only [walkpgdir, tab, Option.map_some]⟩, trivial, .refl m d⟩
  | none =>
    simp only [sat_bind]
    refine (kalloc_spec m).imp (fun r m₁ taken => ?_)
    cases r with
    | none => simpa only [sat_pure] using taken
    | some f =>
      obtain ⟨free, bytes, image⟩ := taken
      simp only [sat_bind, memset, sat_modify, sat_pure]
      refine ⟨⟨.zero, ?_⟩, PgDir.addTab_flat tab, {f}, ?_, PgDir.addTab_frames (pdx_lt va) tab⟩
      · simp only [walkpgdir, PgDir.setTab, update_self, Option.map_some]
      · exact (kalloc_moves free bytes image).trans (write_moves m₁ f _)

/-- User code has no access to what the kernel half maps. -/
def PgDir.Guarded (d : PgDir) : Prop := ∀ v, 2 ^ 19 ≤ v → (d.flat v).has PTE_U = false

/-- An entry is empty, or its page is either present or encrypted, and only
pages of user code are encrypted. -/
def Pte.Tidy (pte : Pte) : Prop :=
  pte = .zero ∨ pte.has PTE_P = !pte.has PTE_E ∧ (pte.has PTE_E = true → pte.has PTE_U = true)

structure PgDir.Sound (d : PgDir) : Prop where
  tidy : ∀ v, (d.flat v).Tidy
  guarded : d.Guarded

theorem mkPte_has_other (pa : Nat) (perm : Flags) (f : PteBit) (p : f ≠ PTE_P) (e : f ≠ PTE_E) :
    (mkPte pa perm).has f = (⟨pa / PGSIZE, perm⟩ : Pte).has f := by
  unfold mkPte
  split <;> simp [Ne.symm p, Ne.symm e]

theorem mkPte_mapped (pa : Nat) (perm : Flags) : (mkPte pa perm).mapped = true := by
  unfold mkPte
  split <;> simp [Pte.mapped]

theorem mkPte_tidy (pa : Nat) {perm : Flags} (clear : (⟨0, perm⟩ : Pte).has PTE_E = false) :
    (mkPte pa perm).Tidy := by
  have clear' : (⟨pa / PGSIZE, perm⟩ : Pte).has PTE_E = false := clear
  refine Or.inr ⟨?_, fun coded => ?_⟩
  · unfold mkPte
    rw [clear']
    simp [clear']
  · unfold mkPte at coded
    rw [clear'] at coded
    simp [clear'] at coded

theorem mkPte_ppn (pa : Nat) (perm : Flags) : (mkPte pa perm).ppn = pa / PGSIZE := by
  unfold mkPte
  split <;> rfl

/-- Mapping pages of the kernel half touches no user page. -/
theorem mappagesLoop_kernel {perm : Flags} (guard : (⟨0, perm⟩ : Pte).has PTE_U = false)
    (clear : (⟨0, perm⟩ : Pte).has PTE_E = false) (n : Nat)
    (d : PgDir) (a pa : Nat) (m : Phys) (sound : d.Sound) (low : n = 0 ∨ KERNBASE ≤ a)
    (high : a + n * 4096 ≤ 2 ^ 32) :
    Sat (mappagesLoop perm n d a pa) m (fun r m' => Gains m m' d r.2 ∧ r.2.Sound ∧
      ∀ v < 2 ^ 19, r.2.flat v = d.flat v) noExit := by
  induction n generalizing d a pa m with
  | zero =>
    rw [mappagesLoop, sat_pure]
    exact ⟨.refl m d, sound, fun _ _ => rfl⟩
  | succ n ih =>
    have low : KERNBASE ≤ a := by omega
    have page : 2 ^ 19 ≤ vpn a := by
      simp only [KERNBASE] at low
      simp only [vpn, PGSIZE]
      omega
    simp only [mappagesLoop, sat_bind]
    refine (walkpgdirAlloc_spec d a m).imp (fun r m₁ found => ?_)
    cases r with
    | none =>
      subst found
      exact ⟨.refl m₁ d, sound, fun _ _ => rfl⟩
    | some d₁ =>
      obtain ⟨⟨pte, walk⟩, flat, gains⟩ := found
      dsimp only
      split
      · exact sat_panic _ _ _
      · have flat' := PgDir.setPte_flat walk (mkPte pa perm)
        have sound' : (d₁.setPte a (mkPte pa perm)).Sound := by
          refine ⟨fun v => ?_, fun v hv => ?_⟩
          all_goals
            rw [flat']
            by_cases same : v = vpn a
          · rw [same, update_self]
            exact mkPte_tidy pa clear
          · rw [update_of_ne same, flat]
            exact sound.tidy v
          · rw [same, update_self, mkPte_has_other _ _ _ (by decide) (by decide)]
            exact guard
          · rw [update_of_ne same, flat]
            exact sound.guarded v hv
        have next : n = 0 ∨ KERNBASE ≤ uint (a + PGSIZE) := by
          simp only [KERNBASE, PGSIZE, uint] at low ⊢
          omega
        have next' : uint (a + PGSIZE) + n * 4096 ≤ 2 ^ 32 := by
          simp only [PGSIZE, uint]
          omega
        refine (ih _ _ (uint (pa + PGSIZE)) m₁ sound' next next').imp ?_
        rintro ⟨ok, d₂⟩ m₂ ⟨gains', sound₂, same⟩
        have kept : Gains m₁ m₁ d₁ (d₁.setPte a (mkPte pa perm)) :=
          ⟨0, .refl m₁ 0, by rw [PgDir.setPte_frames_kernel page, add_zero]⟩
        refine ⟨(gains.trans kept).trans gains', sound₂, fun v hv => ?_⟩
        have other : v ≠ vpn a := by omega
        rw [same v hv, flat', update_of_ne other, flat]

theorem mappages_kernel {perm : Flags} (guard : (⟨0, perm⟩ : Pte).has PTE_U = false)
    (clear : (⟨0, perm⟩ : Pte).has PTE_E = false)
    (d : PgDir) (va size pa : Nat) (m : Phys) (sound : d.Sound) (aligned : va % 4096 = 0)
    (low : KERNBASE ≤ va) (positive : 0 < size) (high : va + size ≤ 2 ^ 32) :
    Sat (mappages d va size pa perm) m (fun r m' => Gains m m' d r.2 ∧ r.2.Sound ∧
      ∀ v < 2 ^ 19, r.2.flat v = d.flat v) noExit := by
  simp only [KERNBASE] at low
  apply mappagesLoop_kernel guard clear _ _ _ _ _ sound
  · right
    simp only [pgRoundDown, PGSIZE, KERNBASE]
    omega
  · simp only [mapCount, pgRoundDown, PGSIZE, uint]
    omega

/-- Mapping one user page at `a` to the frame `f`. -/
theorem mappages_user {perm : Flags} (d : PgDir) (a f : Nat) (m : Phys) (aligned : a % 4096 = 0)
    (user : a < KERNBASE) :
    Sat (mappages d a PGSIZE (f * PGSIZE) perm) m (fun r m' => match r.1 with
      | false => Gains m m' d r.2 ∧ r.2.flat = d.flat
      | true => (d.flat (vpn a)).mapped = false ∧
          r.2.flat = update d.flat (vpn a) (mkPte (f * PGSIZE) perm) ∧
          ∃ B, Moves m m' 0 B ∧ r.2.frames = d.frames + {f} + B) noExit := by
  simp only [KERNBASE] at user
  have one : mapCount a PGSIZE = 1 := by
    simp only [mapCount, pgRoundDown, PGSIZE, uint]
    omega
  have base : pgRoundDown a = a := pgRoundDown_of_aligned (by omega)
  have page : vpn a < 2 ^ 19 := by
    simp only [vpn, PGSIZE]
    omega
  rw [mappages, one, base, mappagesLoop]
  refine .bind (walkpgdirAlloc_spec d a m) fun r m₁ found => ?_
  cases r with
  | none =>
    subst found
    exact ⟨.refl m₁ d, rfl⟩
  | some d₁ =>
    obtain ⟨⟨pte, walk⟩, flat, B, moves, frames⟩ := found
    dsimp only
    split
    · exact sat_panic _ _ _
    · rename_i fresh
      have unmapped : pte.mapped = false := by simpa [walk] using fresh
      have same : d.flat (vpn a) = pte := by rw [← flat]; exact PgDir.flat_of_walk walk
      have exchange := PgDir.setPte_frames_user walk page (mkPte (f * PGSIZE) perm)
      have taken : (mkPte (f * PGSIZE) perm).frames = {f} := by
        simp [Pte.frames, mkPte_mapped, mkPte_ppn, PGSIZE]
      have none : pte.frames = 0 := by simp [Pte.frames, unmapped]
      rw [mappagesLoop, sat_pure]
      refine ⟨by rw [same, unmapped], ?_, B, moves, ?_⟩
      · rw [PgDir.setPte_flat walk, flat]
      · rw [none, taken, add_zero] at exchange
        rw [exchange, frames]
        abel

/-- What `deallocuvm` does for the page `v` alone. -/
def PgDir.release (d : PgDir) (v : Nat) : M PgDir := do
  if (d.flat v).mapped then
    if (d.flat v).ppn = 0 then
      throw (.panic "kfree")
    else
      kfree (d.flat v).ppn
      return d.setPte (v * PGSIZE) .zero
  else return d

theorem PgDir.release_blank {d : PgDir} {vs : List Nat} (blank : ∀ v ∈ vs, d.flat v = .zero) :
    vs.foldlM PgDir.release d = pure d := by
  induction vs with
  | nil => rfl
  | cons v vs ih =>
    rw [List.forall_mem_cons] at blank
    rw [List.foldlM_cons, PgDir.release, blank.1, if_neg (by simp), pure_bind, ih blank.2]

/-- The pages that `deallocuvm` skips where a page-table page is missing map nothing. -/
theorem skip_table {d : PgDir} {a : Nat} (aligned : a % 4096 = 0) (user : a < 2 ^ 31)
    (walk : walkpgdir d a = none) :
    ∃ b, uint (uint (pgAddr (pdx a + 1) + 2 ^ 32 - PGSIZE) + PGSIZE) = b ∧ b % 4096 = 0 ∧ a + 4096 ≤ b ∧
      ∀ v, a ≤ v * 4096 → v * 4096 < b → d.flat v = .zero := by
  have index : pdx a = a / 4194304 := by
    simp only [pdx]
    omega
  refine ⟨(pdx a + 1) * 4194304, ?_, by omega, by omega, fun v low high => ?_⟩
  · simp only [uint, pgAddr, PGSIZE]
    omega
  · exact PgDir.flat_of_walk_none walk (by omega)

/-- The pages that start in `[a, b)`. -/
def pagesFrom (a b : Nat) : List Nat :=
  List.range' ((a + 4095) / 4096) ((b + 4095) / 4096 - (a + 4095) / 4096)

theorem mem_pagesFrom {a b v : Nat} : v ∈ pagesFrom a b ↔ a ≤ v * 4096 ∧ v * 4096 < b := by
  rw [pagesFrom, List.mem_range'_1]
  omega

theorem pagesFrom_empty {a b : Nat} (past : b ≤ a) : pagesFrom a b = [] := by
  rw [pagesFrom, Nat.sub_eq_zero_of_le (by omega)]
  rfl

theorem pagesFrom_split {a b : Nat} (up : a ≤ b) (c : Nat) :
    pagesFrom a c = pagesFrom a (min b c) ++ pagesFrom b c := by
  by_cases past : c ≤ b
  · rw [min_eq_right past, pagesFrom_empty past, List.append_nil]
  · rw [min_eq_left (by omega), pagesFrom, pagesFrom, pagesFrom,
      show (b + 4095) / 4096 = (a + 4095) / 4096 + ((b + 4095) / 4096 - (a + 4095) / 4096) by omega,
      Nat.add_sub_cancel_left, List.range'_append_1]
    congr 1
    omega

/-- `deallocuvm` visits the pages one by one. -/
theorem deallocuvmLoop_eq {oldsz : Nat} (user : oldsz ≤ KERNBASE) (n : Nat) (d : PgDir) (a : Nat)
    (aligned : a % 4096 = 0) (enough : oldsz ≤ a + n * 4096) :
    deallocuvmLoop oldsz n d a = (pagesFrom a oldsz).foldlM PgDir.release d := by
  simp only [KERNBASE] at user
  induction n generalizing d a with
  | zero =>
    rw [deallocuvmLoop, pagesFrom_empty (by omega)]
    rfl
  | succ n ih =>
    rw [deallocuvmLoop]
    by_cases more : a < oldsz
    · rw [if_pos more]
      cases walk : walkpgdir d a with
      | none =>
        obtain ⟨b, jump, page, up, blank⟩ := skip_table aligned (by omega) walk
        have skipped : (pagesFrom a (min b oldsz)).foldlM PgDir.release d = pure d := by
          refine PgDir.release_blank fun v member => ?_
          obtain ⟨low, high⟩ := mem_pagesFrom.mp member
          exact blank v low (by omega)
        dsimp only
        rw [jump, ih d b page (by omega), pagesFrom_split (by omega : a ≤ b) oldsz,
          List.foldlM_append, skipped, pure_bind]
      | some pte =>
        have entry : d.flat (a / 4096) = pte := by
          rw [← vpn_of_word (by omega : a < 2 ^ 32)]
          exact PgDir.flat_of_walk walk
        have first : pagesFrom a oldsz = a / 4096 :: pagesFrom (a + 4096) oldsz := by
          rw [pagesFrom, pagesFrom, show (a + 4096 + 4095) / 4096 = (a + 4095) / 4096 + 1 by omega,
            show (a + 4095) / 4096 = a / 4096 by omega, ← List.range'_succ]
          congr 1
          omega
        have here : a / 4096 * PGSIZE = a := by
          simp only [PGSIZE]
          omega
        rw [first, List.foldlM_cons, PgDir.release, entry, here, uint_page (by omega)]
        simp only [ih _ (a + 4096) (by omega) (by omega)]
        split
        · split
          · rfl
          · rw [bind_assoc]
            simp only [pure_bind]
        · rw [pure_bind]
    · rw [if_neg more, pagesFrom_empty (by omega)]
      rfl

/-- The address does not wrap on the way up. -/
theorem deallocuvm_eq (d : PgDir) {oldsz : Nat} (user : oldsz ≤ KERNBASE) (newsz : Nat) :
    deallocuvm d oldsz newsz =
      (pagesFrom newsz oldsz).foldlM PgDir.release d >>= fun d' => pure (min newsz oldsz, d') := by
  rw [deallocuvm]
  split
  · rw [pagesFrom_empty ‹_›, min_eq_right ‹_›]
    rfl
  · simp only [KERNBASE] at user
    have round : pgRoundUp newsz = (newsz + 4095) / 4096 * 4096 := by
      simp only [pgRoundUp, uint, PGSIZE]
      omega
    have same : pagesFrom (pgRoundUp newsz) oldsz = pagesFrom newsz oldsz := by
      rw [pagesFrom, pagesFrom, round, show ((newsz + 4095) / 4096 * 4096 + 4095) / 4096 = (newsz + 4095) / 4096 by
        omega]
    dsimp only
    rw [min_eq_left (by omega), deallocuvmLoop_eq user _ d _ (by omega) (by simp only [PGSIZE]; omega), same]

theorem PgDir.release_spec (d : PgDir) {v : Nat} (half : v < 2 ^ 19) (m : Phys) :
    Sat (d.release v) m (fun d' m' => Moves m m' (d.flat v).frames 0 ∧
      d.frames = d'.frames + (d.flat v).frames ∧ (∀ i, (d'.tabs i).isSome = (d.tabs i).isSome) ∧
      ∀ w, d'.flat w = if w = v ∧ (d.flat w).mapped then .zero else d.flat w) noExit := by
  have page : vpn (v * PGSIZE) = v := by
    simp only [vpn, PGSIZE]
    omega
  unfold PgDir.release
  split
  · rename_i mapped
    split
    · exact sat_panic _ _ _
    · have walk : walkpgdir d (v * PGSIZE) = some (d.flat (vpn (v * PGSIZE))) :=
        PgDir.walk_of_mapped (by rwa [page])
      have exchange := PgDir.setPte_frames_user walk (by omega) .zero
      rw [page] at walk exchange
      have held : (d.flat v).frames = {(d.flat v).ppn} := by simp only [Pte.frames, mapped, if_true]
      refine .bind (kfree_spec m _) fun _ m₁ freed => ⟨by rwa [held], ?_, ?_, fun w => ?_⟩
      · rw [exchange, Pte.zero_frames, add_zero]
      · exact fun i => PgDir.setPte_isSome _ i
      · rw [PgDir.setPte_flat walk, page]
        by_cases same : w = v
        · rw [same, update_self, if_pos ⟨rfl, mapped⟩]
        · rw [update_of_ne same, if_neg fun both => same both.1]
  · rename_i unmapped
    have none : (d.flat v).frames = 0 := by rw [Pte.frames, if_neg unmapped]
    rw [none]
    refine ⟨.refl m 0, (add_zero _).symm, fun _ => rfl, fun w => ?_⟩
    rw [if_neg]
    rintro ⟨rfl, mapped⟩
    exact unmapped mapped

theorem PgDir.releaseAll_spec {vs : List Nat} (nodup : vs.Nodup) (half : ∀ v ∈ vs, v < 2 ^ 19) (d : PgDir)
    (m : Phys) :
    Sat (vs.foldlM PgDir.release d) m (fun d' m' =>
      Moves m m' (vs.map fun v => (d.flat v).frames).sum 0 ∧
      d.frames = d'.frames + (vs.map fun v => (d.flat v).frames).sum ∧
      (∀ i, (d'.tabs i).isSome = (d.tabs i).isSome) ∧
      ∀ v, d'.flat v = if v ∈ vs ∧ (d.flat v).mapped then .zero else d.flat v) noExit := by
  induction vs generalizing d m with
  | nil => exact ⟨.refl m 0, (add_zero _).symm, fun _ => rfl, fun v => by simp⟩
  | cons v vs ih =>
    rw [List.nodup_cons] at nodup
    rw [List.forall_mem_cons] at half
    rw [List.foldlM_cons]
    refine .bind (d.release_spec half.1 m) ?_
    rintro d₁ m₁ ⟨freed, frames, tabs, flat⟩
    have rest : (vs.map fun w => (d₁.flat w).frames) = vs.map fun w => (d.flat w).frames := by
      refine List.map_congr_left fun w member => ?_
      rw [flat w, if_neg]
      rintro ⟨rfl, _⟩
      exact nodup.1 member
    refine (ih nodup.2 half.2 d₁ m₁).imp ?_
    rintro d₂ m₂ ⟨freed', frames', tabs', flat'⟩
    rw [rest] at freed' frames'
    rw [List.map_cons, List.sum_cons]
    refine ⟨?_, ?_, fun i => (tabs' i).trans (tabs i), fun w => ?_⟩
    · exact (freed.frame _).trans (by rwa [zero_add])
    · rw [frames, frames']
      abel
    · rw [flat' w, flat w]
      by_cases here : w = v
      · subst here
        simp [nodup.1]
      · simp [here]

theorem deallocuvm_moves (d : PgDir) (oldsz newsz : Nat) (m : Phys) (user : oldsz ≤ KERNBASE) :
    Sat (deallocuvm d oldsz newsz) m (fun r m' => r.1 = min newsz oldsz ∧
      Moves m m' ((pagesFrom newsz oldsz).map fun v => (d.flat v).frames).sum 0 ∧
      d.frames = r.2.frames + ((pagesFrom newsz oldsz).map fun v => (d.flat v).frames).sum ∧
      (∀ i, (r.2.tabs i).isSome = (d.tabs i).isSome) ∧
      ∀ v, r.2.flat v = if (newsz ≤ v * 4096 ∧ v * 4096 < oldsz) ∧ (d.flat v).mapped
        then .zero else d.flat v) noExit := by
  rw [deallocuvm_eq d user]
  refine .bind (PgDir.releaseAll_spec List.nodup_range' (fun v member => ?_) d m) ?_
  · simp only [KERNBASE] at user
    have high := (mem_pagesFrom.mp member).2
    omega
  · rintro d' m' ⟨moves, frames, tabs, flat⟩
    refine ⟨rfl, moves, frames, tabs, fun v => ?_⟩
    rw [flat v]
    exact if_congr (and_congr_left' mem_pagesFrom) rfl rfl

theorem deallocuvm_spec (d : PgDir) (oldsz newsz : Nat) (m : Phys) (user : oldsz ≤ KERNBASE)
    (shrinks : newsz < oldsz) :
    Sat (deallocuvm d oldsz newsz) m (fun r m' => r.1 = newsz ∧ Yields m m' d r.2 ∧
      (∀ i, (r.2.tabs i).isSome = (d.tabs i).isSome) ∧
      ∀ v, r.2.flat v = if pgRoundUp newsz ≤ v * 4096 ∧ v * 4096 < oldsz ∧ (d.flat v).mapped
        then .zero else d.flat v) noExit := by
  refine (deallocuvm_moves d oldsz newsz m user).imp ?_
  rintro r m' ⟨size, moves, frames, tabs, flat⟩
  refine ⟨by omega, ⟨_, moves, frames⟩, tabs, fun v => (flat v).trans (if_congr ?_ rfl rfl)⟩
  rw [and_assoc]
  refine and_congr_left fun _ => ?_
  simp only [KERNBASE] at user
  simp only [pgRoundUp, PGSIZE, uint]
  omega

theorem freevmLoop_spec (d : PgDir) (n : Nat) (bound : n ≤ 1024) (m : Phys) :
    Sat (freevmLoop d n) m
      (fun _ m' => Moves m m' (∑ i ∈ Finset.Ico (1024 - n) 1024, d.tabFrame i) 0) noExit := by
  induction n generalizing m with
  | zero =>
    rw [freevmLoop, sat_pure]
    simpa using Moves.refl m 0
  | succ n ih =>
    have first : ∑ i ∈ Finset.Ico (1024 - (n + 1)) 1024, d.tabFrame i =
        d.tabFrame (1024 - (n + 1)) + ∑ i ∈ Finset.Ico (1024 - n) 1024, d.tabFrame i := by
      have next : 1024 - n = 1024 - (n + 1) + 1 := by omega
      rw [next]
      exact Finset.sum_eq_sum_Ico_succ_bot (by omega) _
    rw [first, freevmLoop]
    cases tab : d.tabs (NPDENTRIES - (n + 1)) with
    | none =>
      simpa only [PgDir.tabFrame, tab, Option.elim_none, zero_add] using ih (by omega) m
    | some t =>
      refine .bind (kfree_spec m t.frame) fun _ m₁ freed => ?_
      refine (ih (by omega) m₁).imp (fun _ m₂ rest => ?_)
      simp only [PgDir.tabFrame, tab, Option.elim_some] at rest ⊢
      exact (freed.frame _).trans (by simpa only [zero_add] using rest)

/-- `freevm` gives every frame of the directory back. -/
theorem freevm_spec (d : PgDir) (m : Phys) :
    Sat (freevm d) m (fun _ m' => Moves m m' d.frames 0) noExit := by
  rw [freevm]
  refine .bind (deallocuvm_moves d KERNBASE 0 m le_rfl) ?_
  rintro ⟨r, d₁⟩ m₁ ⟨_, moves, frames, _, flat⟩
  have yields : Yields m m₁ d d₁ := ⟨_, moves, frames⟩
  have empty : (Tally.total (2 ^ 19) fun v => (d₁.flat v).frames) = 0 := by
    refine Tally.total_eq_zero fun v hv => ?_
    have user : v * 4096 < KERNBASE := by
      simp only [KERNBASE]
      omega
    rw [show d₁.flat v = _ from flat v]
    split
    · exact Pte.zero_frames
    · rename_i unmapped
      rw [Pte.frames, if_neg fun mapped => unmapped ⟨⟨Nat.zero_le _, user⟩, mapped⟩]
  refine .bind (freevmLoop_spec d₁ NPDENTRIES le_rfl m₁) fun _ m₂ tables => ?_
  refine (kfree_spec m₂ d₁.frame).imp (fun _ m₃ freed => ?_)
  simp only [Nat.sub_self, Nat.Ico_zero_eq_range, ← Tally.total_eq] at tables
  refine yields.moves.trans ?_
  rw [PgDir.frames, empty, add_zero]
  exact (tables.frame_left _).trans (by simpa only [add_zero] using freed)

/-- The kernel half is what `kmap` says, and nothing is mapped below it. -/
structure PgDir.Blank (d : PgDir) : Prop where
  sound : d.Sound
  empty : ∀ v < 2 ^ 19, d.flat v = .zero

theorem setupkvmLoop_spec (ks : List Kmap) (range : ∀ k ∈ ks,
      (⟨0, k.perm⟩ : Pte).has PTE_U = false ∧ (⟨0, k.perm⟩ : Pte).has PTE_E = false ∧
      k.virt % 4096 = 0 ∧ KERNBASE ≤ k.virt ∧
      0 < uint (k.physEnd + 2 ^ 32 - k.physStart) ∧
      k.virt + uint (k.physEnd + 2 ^ 32 - k.physStart) ≤ 2 ^ 32)
    (d : PgDir) (blank : d.Blank) (m : Phys) :
    Sat (setupkvmLoop ks d) m (fun r m' => match r with
      | none => Moves m m' d.frames 0
      | some d' => Moves m m' d.frames d'.frames ∧ d'.Blank) noExit := by
  induction ks generalizing d m with
  | nil =>
    rw [setupkvmLoop, sat_pure]
    exact ⟨.refl m _, blank⟩
  | cons k rest ih =>
    obtain ⟨guard, clear, aligned, low, positive, high⟩ := range k (by simp)
    rw [setupkvmLoop]
    refine .bind (mappages_kernel guard clear d k.virt _ k.physStart m blank.sound aligned low positive
      high) ?_
    rintro ⟨ok, d₁⟩ m₁ ⟨gains, sound, same⟩
    have blank₁ : d₁.Blank := ⟨sound, fun v hv => (same v hv).trans (blank.empty v hv)⟩
    cases ok with
    | false =>
      dsimp only
      refine .bind (freevm_spec d₁ m₁) fun _ m₂ freed => ?_
      exact gains.moves.trans freed
    | true =>
      refine (ih (fun k hk => range k (by simp [hk])) d₁ blank₁ m₁).imp ?_
      intro r m₂ done
      cases r with
      | none => exact gains.moves.trans done
      | some d₂ => exact ⟨gains.moves.trans done.1, done.2⟩

theorem PgDir.frames_new (f : Nat) : PgDir.frames ⟨f, fun _ => none⟩ = {f} := by
  have tables : Tally.total 1024 (PgDir.tabFrame ⟨f, fun _ => none⟩) = 0 :=
    Tally.total_eq_zero fun _ _ => rfl
  have pages : (Tally.total (2 ^ 19) fun v => (PgDir.flat ⟨f, fun _ => none⟩ v).frames) = 0 :=
    Tally.total_eq_zero fun _ _ => Pte.zero_frames
  rw [PgDir.frames, tables, pages, add_zero, add_zero]

theorem PgDir.blank_new (f : Nat) : PgDir.Blank ⟨f, fun _ => none⟩ :=
  ⟨⟨fun _ => Or.inl rfl, fun _ _ => Pte.has_zero _⟩, fun _ _ => rfl⟩

theorem setupkvm_spec (m : Phys) : Sat setupkvm m (fun r m' => match r with
    | none => Moves m m' 0 0
    | some d => Moves m m' 0 d.frames ∧ d.Blank) noExit := by
  rw [setupkvm]
  refine .bind (kalloc_spec m) fun r m₁ taken => ?_
  cases r with
  | none =>
    subst taken
    exact .refl _ 0
  | some f =>
    obtain ⟨free, bytes, image⟩ := taken
    have moved := (kalloc_moves free bytes image).trans (write_moves m₁ f (Page.fill 0))
    simp only [sat_bind, memset, sat_modify, sat_get]
    refine (setupkvmLoop_spec _ ?_ _ (PgDir.blank_new f) _).imp ?_
    · have aligned := m₁.image.aligned
      have above := m₁.image.above
      have below := m₁.image.below
      simp only [kmap, Phys.write, List.mem_cons, List.not_mem_nil, or_false, forall_eq_or_imp,
        forall_eq, true_and, KERNBASE, KERNLINK, EXTMEM, PHYSTOP, DEVSPACE, uint]
      exact ⟨⟨by decide, by decide, by omega⟩, ⟨by decide, by decide, by omega⟩,
        ⟨by decide, by decide, by omega⟩, by decide, by decide, by omega⟩
    · intro r m₂ done
      rw [PgDir.frames_new] at done
      cases r with
      | none => exact moved.trans done
      | some d => exact ⟨moved.trans done.1, done.2⟩

end Xv6
