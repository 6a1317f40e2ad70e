import Xv6.PageTableProofs

/-! The routines that fill an address space: `allocuvm` adds zeroed user pages,
and `copyuvm` gives a child its own copy of every page below the size, with the
flags of the parent's entries. -/
namespace Xv6
open PteBit Control
open Function (update_of_ne update_self)

theorem Moves.free_le {m m' : Phys} {B : Multiset Nat} (h : Moves m m' 0 B) :
    (m'.freelist : Multiset Nat) ≤ m.freelist := by
  have sum := h.sum
  rw [add_zero] at sum
  rw [← sum]
  exact Multiset.le_add_right _ _

theorem Gains.free_le {m m' : Phys} {d d' : PgDir} (h : Gains m m' d d') :
    (m'.freelist : Multiset Nat) ≤ m.freelist := h.choose_spec.1.free_le

theorem Gains.bytes {m m' : Phys} {d d' : PgDir} (h : Gains m m' d d') {f : Nat}
    (taken : f ∉ m.freelist) : m'.bytes f = m.bytes f :=
  h.choose_spec.1.bytes f (by simpa using taken)

/-- One page is taken from the free list, filled and mapped at `a`. -/
theorem page_added {m m₁ m₂ : Phys} {d d₁ : PgDir} {f : Nat} {page : Page} {B : Multiset Nat}
    (free : m.freelist = f :: m₁.freelist) (bytes : m₁.bytes = m.bytes) (image : m₁.image = m.image)
    (moves : Moves (m₁.write f page) m₂ 0 B) (frames : d₁.frames = d.frames + {f} + B)
    (nodup : m.freelist.Nodup) : Gains m m₂ d d₁ ∧ m₂.bytes f = page ∧ f ∉ m₂.freelist := by
  have fresh : f ∉ m₁.freelist := by
    rw [free] at nodup
    exact (List.nodup_cons.mp nodup).1
  refine ⟨⟨{f} + B, ?_, by rw [frames, add_assoc]⟩, ?_, ?_⟩
  · refine ((kalloc_moves free bytes image).trans (write_moves m₁ f page)).trans ?_
    simpa only [add_zero] using moves.frame_left {f}
  · rw [moves.bytes f (by simpa [Phys.write] using fresh)]
    simp only [Phys.write, update_self]
  · intro member
    exact fresh (Multiset.mem_of_le moves.free_le (Multiset.mem_coe.mpr member))

theorem nodup_of_le {m m' : Phys} (le : (m'.freelist : Multiset Nat) ≤ m.freelist)
    (nodup : m.freelist.Nodup) : m'.freelist.Nodup :=
  Multiset.coe_nodup.mp (Multiset.nodup_of_le le (Multiset.coe_nodup.mpr nodup))

/-- What `allocuvm` and `growproc` map: a writable user page in the clear. -/
abbrev userPte (f : Nat) : Pte := mkPte (f * PGSIZE) (PTE_W.mask ||| PTE_U.mask)

/-- The pages from `a` on, `n` of them, were unmapped and are now zero-filled
user pages on frames that were free; all other entries are unchanged. -/
structure Grown (m m' : Phys) (d d' : PgDir) (a n : Nat) : Prop where
  gains : Gains m m' d d'
  fresh : ∀ v, a ≤ v * 4096 → v * 4096 < a + n * 4096 → (d.flat v).mapped = false ∧
    ∃ f ∈ m.freelist, d'.flat v = userPte f ∧ m'.bytes f = Page.fill 0
  same : ∀ v, ¬ (a ≤ v * 4096 ∧ v * 4096 < a + n * 4096) → d'.flat v = d.flat v

/-- A failed `allocuvm` keeps the account of frames, and among the pages it was to
add it may leave entries empty. -/
structure Ungrown (m m' : Phys) (d d' : PgDir) (oldsz newsz : Nat) : Prop where
  moves : Moves m m' d.frames d'.frames
  pages : ∀ v, d'.flat v = d.flat v ∨
    d'.flat v = .zero ∧ pgRoundUp oldsz ≤ v * 4096 ∧ v * 4096 < newsz

theorem ungrow_spec {oldsz newsz : Nat} (user : newsz < KERNBASE) (grows : oldsz ≤ newsz) (d : PgDir) (m : Phys) :
    Sat (deallocuvm d newsz oldsz) m (fun r m' => Ungrown m m' d r.2 oldsz newsz ∧
      ∀ v, pgRoundUp oldsz ≤ v * 4096 → v * 4096 < newsz → (r.2.flat v).mapped = false)
      noExit := by
  by_cases shrinks : oldsz < newsz
  · refine (deallocuvm_spec d newsz oldsz m (le_of_lt user) shrinks).imp ?_
    rintro ⟨r, d'⟩ m' ⟨_, yields, _, flat⟩
    refine ⟨⟨yields.moves, fun v => ?_⟩, fun v low high => ?_⟩
    · rw [show d'.flat v = _ from flat v]
      split
      · rename_i freed
        exact Or.inr ⟨rfl, freed.1, freed.2.1⟩
      · exact Or.inl rfl
    · rw [show d'.flat v = _ from flat v]
      split
      · exact Pte.zero_mapped
      · rename_i unmapped
        simpa [low, high] using unmapped
  · rw [deallocuvm, if_pos (by omega), sat_pure]
    refine ⟨⟨.refl m _, fun _ => Or.inl rfl⟩, fun v low high => ?_⟩
    simp only [pgRoundUp, PGSIZE, uint, KERNBASE] at low user
    omega

theorem allocuvmLoop_spec {oldsz newsz : Nat} (user : newsz < KERNBASE) (grows : oldsz ≤ newsz)
    (n : Nat) (d : PgDir) (a : Nat) (m : Phys) (nodup : m.freelist.Nodup) (aligned : a % 4096 = 0)
    (low : pgRoundUp oldsz ≤ a) (high : n = 0 ∨ a + n * 4096 < newsz + 4096) :
    Sat (allocuvmLoop oldsz newsz n d a) m (fun r m' =>
      r.1 = newsz ∧ Grown m m' d r.2 a n ∨ r.1 = 0 ∧ Ungrown m m' d r.2 oldsz newsz ∧
        ∀ v, pgRoundUp oldsz ≤ v * 4096 → v * 4096 < newsz → (r.2.flat v).mapped = false)
      noExit := by
  simp only [KERNBASE] at user
  induction n generalizing d a m with
  | zero =>
    rw [allocuvmLoop, sat_pure]
    exact Or.inl ⟨rfl, .refl m d, fun v _ _ => by omega, fun _ _ => rfl⟩
  | succ n ih =>
    have page : vpn a = a / 4096 := vpn_of_word (by omega)
    rw [allocuvmLoop]
    refine .bind (kalloc_spec m) fun r m₁ taken => ?_
    cases r with
    | none =>
      subst taken
      dsimp only
      exact .bind (ungrow_spec user grows d m₁) fun r m₂ undone => Or.inr ⟨rfl, undone⟩
    | some f =>
      obtain ⟨free, bytes, image⟩ := taken
      simp only [sat_bind, memset, sat_modify]
      refine (mappages_user d a f _ aligned (by simp only [KERNBASE]; omega)).imp ?_
      rintro ⟨ok, d₁⟩ m₂ mapped
      cases ok with
      | false =>
        obtain ⟨gains, flat⟩ := mapped
        dsimp only at flat ⊢
        refine .bind (ungrow_spec user grows d₁ m₂) fun r m₃ undone => ?_
        refine .bind (kfree_spec m₃ f) fun _ m₄ freed => ?_
        refine Or.inr ⟨rfl, ⟨?_, fun v => flat ▸ undone.1.pages v⟩, undone.2⟩
        · have taken := (kalloc_moves free bytes image).trans (write_moves m₁ f (Page.fill 0))
          have undo := ((gains.moves.trans undone.1.moves).frame {f}).trans
            (by simpa only [add_zero] using freed.frame_left r.2.frames)
          exact (by simpa only [add_zero] using taken.frame_left d.frames : Moves m _ d.frames _).trans undo
      | true =>
        obtain ⟨unmapped, flat, B, moves, frames⟩ := mapped
        dsimp only at flat frames ⊢
        obtain ⟨gains, zeroed, gone⟩ := page_added free bytes image moves frames nodup
        have step : uint (a + PGSIZE) = a + 4096 := uint_page (by omega)
        rw [step]
        refine (ih d₁ (a + 4096) m₂ (nodup_of_le gains.free_le nodup) (by omega) (by omega)
          (by omega)).imp (fun r m₃ rest => ?_)
        rcases rest with ⟨size, grown⟩ | ⟨size, undone, gone⟩
        · refine Or.inl ⟨size, gains.trans grown.gains, fun v above below => ?_, fun v outside => ?_⟩
          · by_cases here : v = vpn a
            · subst here
              refine ⟨unmapped, f, by simp [free], ?_, ?_⟩
              · rw [grown.same _ (by omega), flat, update_self]
              · rw [grown.gains.bytes gone, zeroed]
            · obtain ⟨unmapped', g, member, entry, zero⟩ := grown.fresh v (by omega) (by omega)
              rw [flat, update_of_ne here] at unmapped'
              exact ⟨unmapped', g, Multiset.mem_coe.mp (Multiset.mem_of_le gains.free_le
                (Multiset.mem_coe.mpr member)), entry, zero⟩
          · rw [grown.same v (by omega), flat, update_of_ne (by omega)]
        · refine Or.inr ⟨size, ⟨gains.moves.trans undone.moves, fun v => ?_⟩, gone⟩
          obtain same | freed := undone.pages v
          · by_cases here : v = vpn a
            · have unmapped := gone v (by omega) (by omega)
              rw [same, flat, here, update_self, mkPte_mapped] at unmapped
              cases unmapped
            · rw [same, flat, update_of_ne here]
              exact Or.inl rfl
          · exact Or.inr freed

/-- `allocuvm` on a size that does not shrink. -/
theorem allocuvm_spec (d : PgDir) (oldsz newsz : Nat) (m : Phys) (nodup : m.freelist.Nodup)
    (grows : oldsz ≤ newsz) :
    Sat (allocuvm d oldsz newsz) m (fun r m' =>
      r.1 = newsz ∧ newsz < KERNBASE ∧
        Grown m m' d r.2 (pgRoundUp oldsz) ((newsz - pgRoundUp oldsz + 4095) / 4096) ∨
      r.1 = 0 ∧ Ungrown m m' d r.2 oldsz newsz) noExit := by
  rw [allocuvm]
  by_cases large : newsz ≥ KERNBASE
  · rw [if_pos large, sat_pure]
    exact Or.inr ⟨rfl, .refl m _, fun _ => Or.inl rfl⟩
  · rw [if_neg large, if_neg (by omega)]
    have user : newsz < KERNBASE := by omega
    have small : newsz < 2 ^ 31 := user
    refine (allocuvmLoop_spec user grows _ d _ m nodup ?_ le_rfl ?_).imp ?_
    · simp only [pgRoundUp, PGSIZE]
      omega
    · simp only [pgRoundUp, PGSIZE, uint]
      omega
    · rintro ⟨r, d'⟩ m' (⟨size, grown⟩ | failed)
      · exact Or.inl ⟨size, user, grown⟩
      · exact Or.inr ⟨failed.1, failed.2.1⟩

/-- A mapped entry is copied with its flags. -/
theorem mkPte_of_mapped {pte : Pte} (mapped : pte.mapped = true) (f : Nat) :
    mkPte (f * PGSIZE) pte.flags = ⟨f, pte.flags⟩ := by
  have frame : f * PGSIZE / PGSIZE = f := Nat.mul_div_cancel f (by decide)
  unfold mkPte
  rw [frame]
  split
  · rename_i coded
    exact Pte.set_of_has coded
  · rename_i clear
    have clear' : pte.has PTE_E = false := by simpa [Pte.has] using clear
    have present : pte.has PTE_P = true := by simpa [Pte.mapped, clear'] using mapped
    exact Pte.set_of_has (by simpa [Pte.has] using present)

/-- The `n` pages from `a` on are copies of the pages of `pgdir`, on frames that
were free, with the same flags; all other entries are unchanged. -/
structure Copied (pgdir : PgDir) (m m' : Phys) (d d' : PgDir) (a n : Nat) : Prop where
  gains : Gains m m' d d'
  pages : ∀ v, a ≤ v * 4096 → v * 4096 < a + n * 4096 → (pgdir.flat v).mapped = true ∧
    ∃ f ∈ m.freelist, d'.flat v = ⟨f, (pgdir.flat v).flags⟩ ∧
      m'.bytes f = m.bytes (pgdir.flat v).ppn
  same : ∀ v, ¬ (a ≤ v * 4096 ∧ v * 4096 < a + n * 4096) → d'.flat v = d.flat v

theorem copyuvmLoop_spec (pgdir : PgDir) (n : Nat) (d : PgDir) (a : Nat) (m : Phys)
    (nodup : m.freelist.Nodup)
    (apart : ∀ v, v < 2 ^ 19 → (pgdir.flat v).mapped = true → (pgdir.flat v).ppn ∉ m.freelist)
    (aligned : a % 4096 = 0) (user : a + n * 4096 ≤ KERNBASE) :
    Sat (copyuvmLoop pgdir n d a) m (fun r m' => match r with
      | none => Moves m m' d.frames 0
      | some d' => Copied pgdir m m' d d' a n) noExit := by
  simp only [KERNBASE] at user
  induction n generalizing d a m with
  | zero =>
    rw [copyuvmLoop, sat_pure]
    exact ⟨.refl m d, fun v _ _ => by omega, fun _ _ => rfl⟩
  | succ n ih =>
    have page : vpn a = a / 4096 := vpn_of_word (by omega)
    rw [copyuvmLoop]
    cases walk : walkpgdir pgdir a with
    | none => exact sat_panic _ _ _
    | some pte =>
      have entry := PgDir.flat_of_walk walk
      dsimp only
      split
      · rename_i mapped
        refine .bind (kalloc_spec m) fun r m₁ taken => ?_
        cases r with
        | none =>
          subst taken
          dsimp only
          exact .bind (freevm_spec d m₁) fun _ _ freed => freed
        | some f =>
          obtain ⟨free, bytes, image⟩ := taken
          dsimp only
          rw [sat_bind, sat_modify]
          refine .bind (mappages_user d a f _ aligned (by simp only [KERNBASE]; omega)) ?_
          rintro ⟨ok, d₁⟩ m₂ filled
          cases ok with
          | false =>
            obtain ⟨gains, flat⟩ := filled
            dsimp only at flat ⊢
            refine .bind (kfree_spec m₂ f) fun _ m₃ freed => ?_
            refine .bind (freevm_spec d₁ m₃) fun _ m₄ gone => ?_
            have taken := (kalloc_moves free bytes image).trans
              (write_moves m₁ f (m₁.bytes pte.ppn))
            have undo : Moves _ m₄ (d.frames + {f}) 0 := (gains.moves.frame {f}).trans
              ((by simpa only [add_zero] using freed.frame_left d₁.frames :
                Moves m₂ m₃ (d₁.frames + {f}) d₁.frames).trans gone)
            exact (by simpa only [add_zero] using taken.frame_left d.frames :
              Moves m _ d.frames (d.frames + {f})).trans undo
          | true =>
            obtain ⟨_, flat, B, moves, frames⟩ := filled
            dsimp only at flat frames ⊢
            obtain ⟨gains, copied, gone⟩ := page_added free bytes image moves frames nodup
            have step : uint (a + PGSIZE) = a + 4096 := uint_page (by omega)
            have within : ∀ g, g ∈ m₂.freelist → g ∈ m.freelist := fun g member =>
              Multiset.mem_coe.mp (Multiset.mem_of_le gains.free_le (Multiset.mem_coe.mpr member))
            rw [step]
            refine (ih d₁ (a + 4096) m₂ (nodup_of_le gains.free_le nodup)
              (fun v hv mapped member => apart v hv mapped (within _ member)) (by omega)
              (by omega)).imp (fun r m₃ rest => ?_)
            cases r with
            | none => exact gains.moves.trans rest
            | some d₂ =>
              refine ⟨gains.trans rest.gains, fun v above below => ?_, fun v outside => ?_⟩
              · by_cases here : v = vpn a
                · subst here
                  rw [entry]
                  refine ⟨mapped, f, by simp [free], ?_, ?_⟩
                  · rw [rest.same _ (by omega), flat, update_self, mkPte_of_mapped mapped]
                  · rw [rest.gains.bytes gone, copied, bytes]
                · obtain ⟨mapped', g, member, copy, same⟩ := rest.pages v (by omega) (by omega)
                  refine ⟨mapped', g, within g member, copy, ?_⟩
                  rw [same, gains.bytes (apart v (by omega) mapped')]
              · rw [rest.same v (by omega), flat, update_of_ne (by omega)]
      · exact sat_panic _ _ _

/-- `copyuvm` gives everything back or returns a directory of its own that maps a
copy of each page below `sz` and no other user page. -/
theorem copyuvm_spec (pgdir : PgDir) (sz : Nat) (m : Phys) (nodup : m.freelist.Nodup)
    (apart : ∀ v, v < 2 ^ 19 → (pgdir.flat v).mapped = true → (pgdir.flat v).ppn ∉ m.freelist)
    (user : sz ≤ KERNBASE) :
    Sat (copyuvm pgdir sz) m (fun r m' => match r with
      | none => Moves m m' 0 0
      | some d => Moves m m' 0 d.frames ∧ (∀ v, 2 ^ 19 ≤ v → (d.flat v).Tidy ∧
            (d.flat v).has PTE_U = false) ∧
          (∀ v, v * 4096 < sz → (pgdir.flat v).mapped = true ∧
            ∃ f ∈ m.freelist, d.flat v = ⟨f, (pgdir.flat v).flags⟩ ∧
              m'.bytes f = m.bytes (pgdir.flat v).ppn) ∧
          ∀ v < 2 ^ 19, sz ≤ v * 4096 → d.flat v = .zero) noExit := by
  simp only [KERNBASE] at user
  rw [copyuvm]
  refine .bind (setupkvm_spec m) fun r m₁ made => ?_
  cases r with
  | none => exact made
  | some d =>
    obtain ⟨moves, blank⟩ := made
    have within : ∀ g, g ∈ m₁.freelist → g ∈ m.freelist := fun g member =>
      Multiset.mem_coe.mp (Multiset.mem_of_le moves.free_le (Multiset.mem_coe.mpr member))
    refine (copyuvmLoop_spec pgdir _ d 0 m₁ (nodup_of_le moves.free_le nodup)
      (fun v hv mapped member => apart v hv mapped (within _ member)) (by decide) ?_).imp
      (fun r m₂ rest => ?_)
    · simp only [KERNBASE, PGSIZE]
      omega
    · cases r with
      | none => exact moves.trans rest
      | some d₁ =>
        have size : (sz + PGSIZE - 1) / PGSIZE = (sz + 4095) / 4096 := rfl
        rw [size] at rest
        refine ⟨moves.trans rest.gains.moves, fun v kernel => ?_, fun v below => ?_,
          fun v half above => ?_⟩
        · rw [rest.same v (by omega)]
          exact ⟨blank.sound.tidy v, blank.sound.guarded v kernel⟩
        · obtain ⟨mapped, f, member, copy, same⟩ := rest.pages v (by omega) (by omega)
          refine ⟨mapped, f, within f member, copy, ?_⟩
          rw [same, moves.bytes _ (by simpa using apart v (by omega) mapped)]
        · rw [rest.same v (by omega)]
          exact blank.empty v half

end Xv6
