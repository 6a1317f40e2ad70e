import Xv6.Plain

/-! `growproc`: which pages it adds and encrypts, and which it frees. The loop
that encrypts the new pages starts at the old size, so it sweeps the pages from
the one that holds the old end on. -/
namespace Xv6
open PteBit Control

/-- The `k` pages from `a` on are encrypted where they are usable. -/
structure Swept (s t : St) (a k : Nat) : Prop where
  recrypt : s.Sound → Recrypt s t
  clock : t.proc.clock = s.proc.clock
  head : t.proc.head = s.proc.head
  sealed : ∀ v, (∃ j < k, v = vpn (a + j * 4096)) → (s.proc.pgdir.flat v).usable = true →
    (t.proc.pgdir.flat v).has PTE_E = true
  changed : ∀ v, t.proc.pgdir.flat v = s.proc.pgdir.flat v ∨
    (∃ j < k, v = vpn (a + j * 4096)) ∧ (s.proc.pgdir.flat v).usable = true ∧
      (s.proc.pgdir.flat v).has PTE_E = false ∧
      t.proc.pgdir.flat v = (s.proc.pgdir.flat v).sealed

theorem mencrypted_clock (s : St) (va : Nat) (len : Int) :
    (s.mencrypted va len).proc.clock = s.proc.clock := by
  unfold St.mencrypted
  split
  · split <;> rfl
  · rfl

theorem Swept.page (s : St) (a : Nat) : Swept s (s.mencrypted a 1) a 1 := by
  have flat := mencrypted_one_flat s a
  refine ⟨fun sound => .mencrypted sound a 1, mencrypted_clock s a 1, mencrypted_head s a 1,
    fun v inside usable => ?_, fun v => ?_⟩
  · obtain ⟨j, hj, rfl⟩ := inside
    obtain rfl : j = 0 := by omega
    rw [Nat.zero_mul, Nat.add_zero] at usable ⊢
    rw [flat]
    cases clear : (s.proc.pgdir.flat (vpn a)).has PTE_E with
    | true => simpa using clear
    | false => simp [usable]
  · rw [flat]
    split
    · rename_i sealing
      by_cases here : v = vpn a
      · subst here
        rw [Function.update_self]
        exact Or.inr ⟨⟨0, by omega, by simp⟩, sealing.1, sealing.2, rfl⟩
      · exact Or.inl (Function.update_of_ne here _ _)
    · exact Or.inl rfl

theorem Swept.next {s t u : St} {a k : Nat} (first : Swept s t a 1)
    (rest : Swept t u (a + 4096) k) : Swept s u a (k + 1) := by
  have shift : ∀ v, (∃ j < k, v = vpn (a + 4096 + j * 4096)) →
      ∃ j < k + 1, v = vpn (a + j * 4096) := by
    rintro v ⟨j, hj, rfl⟩
    refine ⟨j + 1, by omega, ?_⟩
    rw [Nat.add_mul, Nat.one_mul, Nat.add_assoc, Nat.add_comm 4096]
  have start : ∀ v, (∃ j < 1, v = vpn (a + j * 4096)) → ∃ j < k + 1, v = vpn (a + j * 4096) := by
    rintro v ⟨j, hj, rfl⟩
    exact ⟨j, by omega, rfl⟩
  have sealed_usable : ∀ v, (s.proc.pgdir.flat v).usable = true →
      (t.proc.pgdir.flat v).usable = true := by
    intro v usable
    obtain same | ⟨_, _, _, sealed⟩ := first.changed v
    · rwa [same]
    · rw [sealed]
      simpa [Pte.usable, Pte.mapped] using (Pte.usable_iff.mp usable).2
  refine ⟨fun sound => ?_, rest.clock.trans first.clock, rest.head.trans first.head,
    fun v inside usable => ?_, fun v => ?_⟩
  · have before := first.recrypt sound
    exact before.trans (rest.recrypt (before.sound sound))
  · obtain ⟨j, hj, rfl⟩ := inside
    cases j with
    | zero =>
      have sealed := first.sealed _ ⟨0, by omega, rfl⟩ usable
      obtain same | ⟨_, _, _, again⟩ := rest.changed (vpn (a + 0 * 4096))
      · rwa [same]
      · rw [again]
        simp
    | succ j =>
      refine rest.sealed _ ⟨j, by omega, ?_⟩ (sealed_usable _ usable)
      rw [Nat.add_mul, Nat.one_mul, Nat.add_assoc, Nat.add_comm 4096]
  · obtain same | ⟨inside, usable, clear, sealed⟩ := rest.changed v
    · rw [same]
      obtain same' | ⟨inside, rest⟩ := first.changed v
      · exact Or.inl same'
      · exact Or.inr ⟨start v inside, rest⟩
    · obtain same' | ⟨_, _, _, sealed'⟩ := first.changed v
      · rw [same'] at usable clear sealed
        exact Or.inr ⟨shift v inside, usable, clear, sealed⟩
      · rw [sealed'] at clear
        simp at clear

theorem growprocLoop_spec (k a : Nat) (s : St) (bound : a + k * 4096 ≤ 2 ^ 32) :
    Sat (growprocLoop k a) s (fun _ t => Swept s t a k) noExit := by
  induction k generalizing a s with
  | zero =>
    rw [growprocLoop, sat_pure]
    exact ⟨fun _ => .refl s, rfl, rfl, fun v inside => by omega, fun v => Or.inl rfl⟩
  | succ k ih =>
    rw [growprocLoop]
    refine .seq (mencrypt_spec a 1 s) ?_ (fun e _ failed => by rw [failed.1]; exact nofun)
    rintro r t ⟨_, rfl⟩
    cases k with
    | zero =>
      rw [growprocLoop, sat_pure]
      exact .page s a
    | succ k =>
      have step : uint (a + PGSIZE) = a + 4096 := uint_page (by omega)
      rw [step]
      refine (ih (a + 4096) _ (by omega)).imp (fun _ u rest => ?_)
      exact (Swept.page s a).next rest

/-- `deallocuvm` has freed the mapped pages from `newsz` up to `oldsz`. -/
structure Shrunk (m m' : Phys) (d d' : PgDir) (oldsz newsz : Nat) : Prop where
  yields : Yields m m' d d'
  flat : ∀ v, d'.flat v =
    if pgRoundUp newsz ≤ v * 4096 ∧ v * 4096 < oldsz ∧ (d.flat v).mapped then .zero else d.flat v

/-- The process with other memory and another page table. -/
def St.withDir (s : St) (m : Phys) (d : PgDir) : St := ⟨m, { s.proc with pgdir := d }⟩

/-- The process with another size, after `switchuvm`. -/
def St.resized (s : St) (sz : Nat) : St :=
  { s with proc := { s.proc with sz := sz, tlb := fun _ => false } }

/-- The pages `growproc` adds, and those it sweeps to encrypt them. -/
abbrev addedPages (sz newsz : Nat) : Nat := (newsz - pgRoundUp sz + 4095) / 4096
abbrev sweptPages (n : Int) : Nat := (n.toNat + 4095) / 4096

/-- What `growproc(n)` can do: its result and the state after it. -/
inductive Resize (s : St) (n : Int) : Int → St → Prop where
  | grow {m : Phys} {d : PgDir} {u : St} : 0 < n → s.proc.sz + n.toNat < KERNBASE →
      Grown s.phys m s.proc.pgdir d (pgRoundUp s.proc.sz)
        (addedPages s.proc.sz (s.proc.sz + n.toNat)) →
      Swept (s.withDir m d) u s.proc.sz (sweptPages n) →
      Resize s n 0 (u.resized (s.proc.sz + n.toNat))
  | short {m : Phys} {d : PgDir} : 0 < n →
      Ungrown s.phys m s.proc.pgdir d s.proc.sz (s.proc.sz + n.toNat) →
      Resize s n (-1) (s.withDir m d)
  | shrink {m : Phys} {d : PgDir} {newsz : Nat} : n < 0 → s.proc.sz + n = newsz → 0 < newsz →
      Shrunk s.phys m s.proc.pgdir d s.proc.sz newsz →
      Resize s n 0 ((s.withDir m d).resized newsz)
  | drop {m : Phys} {d : PgDir} : n < 0 → s.proc.sz + n = 0 →
      Shrunk s.phys m s.proc.pgdir d s.proc.sz 0 → Resize s n (-1) (s.withDir m d)
  | stay : n ≤ 0 → n = 0 ∨ s.proc.sz + n < 0 ∧ 0 < s.proc.sz → Resize s n 0 s.flushed
  | none : n < 0 → s.proc.sz = 0 → Resize s n (-1) s

theorem growproc_spec {s : St} (sound : s.Sound) (n : Int) (low : -2 ^ 31 ≤ n) (high : n < 2 ^ 31) :
    Sat (growproc n) s (Resize s n) noExit := by
  have size : s.proc.sz ≤ 2 ^ 31 := sound.size
  have nodup : s.phys.freelist.Nodup := sound.free
  rw [growproc, sat_bind, sat_get]
  dsimp only
  by_cases grows : 0 < n
  · have newsz : addInt s.proc.sz n = s.proc.sz + n.toNat := by
      unfold addInt
      omega
    rw [if_pos grows, sat_bind, onPhys, sat_zoom, newsz]
    refine (allocuvm_spec s.proc.pgdir s.proc.sz _ s.phys nodup (by omega)).imp ?_
    rintro ⟨sz, d⟩ m outcome
    dsimp only at outcome ⊢
    rw [sat_bind, modifyProc, sat_modify]
    obtain ⟨rfl, user, grown⟩ | ⟨rfl, ungrown⟩ := outcome
    · have swept : (if n % PGSIZE ≠ 0 then pgRoundUp n.toNat else n.toNat) / PGSIZE =
          sweptPages n := by
        simp only [KERNBASE, pgRoundUp, sweptPages, PGSIZE, uint] at user ⊢
        split <;> omega
      have bound : s.proc.sz + sweptPages n * 4096 ≤ 2 ^ 32 := by
        simp only [KERNBASE, sweptPages] at user ⊢
        omega
      rw [if_neg (by omega), swept]
      refine .bind (growprocLoop_spec _ _ (s.withDir m d) bound) fun _ u sweep => ?_
      simp only [sat_bind, switchuvm, modifyProc, sat_modify, sat_pure]
      exact .grow grows user grown sweep
    · rw [if_pos rfl, sat_pure]
      exact .short grows ungrown
  · rw [if_neg grows]
    by_cases shrinks : n < 0
    · rw [if_pos shrinks, sat_bind, onPhys, sat_zoom]
      by_cases wraps : s.proc.sz + n < 0
      · have large : addInt s.proc.sz n ≥ s.proc.sz := by
          unfold addInt
          omega
        rw [deallocuvm, if_pos large, sat_pure]
        simp only [sat_bind, modifyProc, sat_modify]
        by_cases empty : s.proc.sz = 0
        · rw [if_pos empty, sat_pure]
          exact .none shrinks empty
        · rw [if_neg empty]
          simp only [sat_bind, switchuvm, modifyProc, sat_modify, sat_pure]
          exact .stay (le_of_lt shrinks) (Or.inr ⟨wraps, by omega⟩)
      · obtain ⟨newsz, value⟩ : ∃ newsz : Nat, s.proc.sz + n = newsz :=
          ⟨(s.proc.sz + n).toNat, by omega⟩
        have same : addInt s.proc.sz n = newsz := by
          unfold addInt
          omega
        rw [same]
        refine (deallocuvm_spec s.proc.pgdir s.proc.sz newsz s.phys sound.size (by omega)).imp ?_
        rintro ⟨sz, d⟩ m ⟨rfl, yields, _, flat⟩
        dsimp only at flat ⊢
        rw [sat_bind, modifyProc, sat_modify]
        by_cases empty : sz = 0
        · subst empty
          rw [if_pos rfl, sat_pure]
          exact .drop shrinks value ⟨yields, flat⟩
        · rw [if_neg empty]
          simp only [sat_bind, switchuvm, modifyProc, sat_modify, sat_pure]
          exact .shrink shrinks value (by omega) ⟨yields, flat⟩
    · rw [if_neg shrinks]
      simp only [sat_bind, switchuvm, modifyProc, sat_modify, sat_pure]
      exact .stay (by omega) (Or.inl (by omega))

theorem userPte_has (f : Nat) (bit : PteBit) :
    (userPte f).has bit = (bit = PTE_P || bit = PTE_W || bit = PTE_U) := by
  have bits : ∀ g, (⟨f * PGSIZE / PGSIZE, PTE_W.mask ||| PTE_U.mask⟩ : Pte).has g =
      (g = PTE_W || g = PTE_U) := by
    intro g
    simp only [Pte.has]
    cases g <;> decide
  unfold userPte mkPte
  rw [bits, if_neg (by decide), Pte.has_set, bits]
  cases bit <;> decide

theorem userPte_tidy (f : Nat) : (userPte f).Tidy :=
  Or.inr ⟨by simp [userPte_has], by simp [userPte_has]⟩

/-- Where an added page lies. -/
theorem added_page {sz newsz v : Nat} (user : newsz < KERNBASE) (low : pgRoundUp sz ≤ v * 4096)
    (high : v * 4096 < pgRoundUp sz + addedPages sz newsz * 4096) :
    v < 2 ^ 19 ∧ v * 4096 < newsz := by
  have aligned : pgRoundUp sz % 4096 = 0 := by
    simp only [pgRoundUp, PGSIZE]
    omega
  simp only [KERNBASE, addedPages] at user high
  omega

namespace Grown
variable {s : St} {m : Phys} {d : PgDir} {newsz : Nat}

/-- After `allocuvm` the process still has its frames to itself. -/
theorem sound (grown : Grown s.phys m s.proc.pgdir d (pgRoundUp s.proc.sz)
      (addedPages s.proc.sz newsz)) (user : newsz < KERNBASE) (before : s.Sound) :
    (s.withDir m d).Sound := by
  refine ⟨⟨fun v => ?_, fun v kernel => ?_⟩, before.size, ?_⟩
  · by_cases added : pgRoundUp s.proc.sz ≤ v * 4096 ∧
        v * 4096 < pgRoundUp s.proc.sz + addedPages s.proc.sz newsz * 4096
    · obtain ⟨_, f, _, entry, _⟩ := grown.fresh v added.1 added.2
      change (d.flat v).Tidy
      rw [entry]
      exact userPte_tidy f
    · change (d.flat v).Tidy
      rw [grown.same v added]
      exact before.dir.tidy v
  · change (d.flat v).has PTE_U = false
    rw [grown.same v]
    · exact before.dir.guarded v kernel
    · rintro ⟨low, high⟩
      have := added_page user low high
      omega
  · change ((m.freelist : Multiset Nat) + d.frames).Nodup
    rw [grown.gains.moves.sum]
    exact before.nodup

/-- The pages the process had keep their plaintext, and the others are zero. -/
theorem plain (grown : Grown s.phys m s.proc.pgdir d (pgRoundUp s.proc.sz)
      (addedPages s.proc.sz newsz)) (before : s.Sound) {v : Nat} (half : v < 2 ^ 19)
    (mapped : (d.flat v).mapped = true) :
    (s.withDir m d).plain v =
      if (s.proc.pgdir.flat v).mapped then s.plain v else Page.fill 0 := by
  by_cases added : pgRoundUp s.proc.sz ≤ v * 4096 ∧
      v * 4096 < pgRoundUp s.proc.sz + addedPages s.proc.sz newsz * 4096
  · obtain ⟨unmapped, f, _, entry, zero⟩ := grown.fresh v added.1 added.2
    have frame : (userPte f).ppn = f := by
      rw [userPte, mkPte_ppn]
      exact Nat.mul_div_cancel f (by decide)
    have clear : (userPte f).has PTE_E = false := by simp [userPte_has]
    simp only [unmapped, St.plain, St.withDir, entry, clear, frame, zero]
    rfl
  · have same := grown.same v added
    rw [same] at mapped
    rw [mapped, if_pos rfl]
    simp only [St.plain, St.withDir, same, grown.gains.bytes (before.not_free half mapped)]

end Grown

namespace Shrunk
variable {s : St} {m : Phys} {d : PgDir} {newsz : Nat}

theorem sound (shrunk : Shrunk s.phys m s.proc.pgdir d s.proc.sz newsz) (before : s.Sound) :
    (s.withDir m d).Sound := by
  have pages : ∀ v, d.flat v = .zero ∨ d.flat v = s.proc.pgdir.flat v := by
    intro v
    rw [shrunk.flat v]
    split
    · exact Or.inl rfl
    · exact Or.inr rfl
  refine ⟨⟨fun v => ?_, fun v kernel => ?_⟩, before.size, ?_⟩
  · obtain zero | same := pages v
    · exact Or.inl zero
    · change (d.flat v).Tidy
      rw [same]
      exact before.dir.tidy v
  · change (d.flat v).has PTE_U = false
    obtain zero | same := pages v
    · rw [zero]
      exact Pte.has_zero _
    · rw [same]
      exact before.dir.guarded v kernel
  · change ((m.freelist : Multiset Nat) + d.frames).Nodup
    rw [shrunk.yields.moves.sum]
    exact before.nodup

theorem kept (shrunk : Shrunk s.phys m s.proc.pgdir d s.proc.sz newsz) {v : Nat}
    (mapped : (d.flat v).mapped = true) : d.flat v = s.proc.pgdir.flat v := by
  rw [shrunk.flat v] at mapped ⊢
  split at mapped
  · simp at mapped
  · rename_i outside
    rw [if_neg outside]

theorem plain (shrunk : Shrunk s.phys m s.proc.pgdir d s.proc.sz newsz) (before : s.Sound)
    {v : Nat} (half : v < 2 ^ 19) (mapped : (d.flat v).mapped = true) :
    (s.withDir m d).plain v = s.plain v := by
  have same := shrunk.kept mapped
  obtain ⟨B, moves, frames⟩ := shrunk.yields
  have nodup := before.frames_nodup
  rw [frames] at nodup
  have held : (d.flat v).ppn ∉ B := fun freed =>
    Multiset.disjoint_left.mp (Multiset.nodup_add.mp nodup).2.2 (PgDir.mem_frames half mapped) freed
  have free := before.not_free half (by rwa [← same])
  rw [← same] at free
  have bytes := moves.bytes (d.flat v).ppn (by simp [held, free])
  simp only [St.plain, St.withDir, ← same, bytes]

end Shrunk

namespace Resize
variable {s t : St} {n r : Int}

theorem moves (resize : Resize s n r t) (sound : s.Sound) :
    Moves s.phys t.phys s.proc.pgdir.frames t.proc.pgdir.frames := by
  cases resize with
  | grow _ user grown swept =>
    exact grown.gains.moves.trans (swept.recrypt (grown.sound user sound)).moves
  | short _ ungrown => exact ungrown.moves
  | shrink _ _ _ shrunk => exact shrunk.yields.moves
  | drop _ _ shrunk => exact shrunk.yields.moves
  | stay => exact .refl _ _
  | none => exact .refl _ _

theorem sound (resize : Resize s n r t) (before : s.Sound) : t.Sound := by
  cases resize with
  | grow _ user grown swept =>
    have after := (swept.recrypt (grown.sound user before)).sound (grown.sound user before)
    exact ⟨after.dir, le_of_lt user, after.nodup⟩
  | short _ ungrown =>
    refine ⟨⟨fun v => ?_, fun v kernel => ?_⟩, before.size, ?_⟩
    · obtain same | ⟨zero, _⟩ := ungrown.pages v
      · exact same ▸ before.dir.tidy v
      · exact Or.inl zero
    · obtain same | ⟨zero, _⟩ := ungrown.pages v
      · exact (congrArg (Pte.has · PTE_U) same).trans (before.dir.guarded v kernel)
      · exact (congrArg (Pte.has · PTE_U) zero).trans (Pte.has_zero _)
    · exact ungrown.moves.sum ▸ before.nodup
  | shrink _ value _ shrunk =>
    have after := shrunk.sound before
    refine ⟨after.dir, le_trans ?_ before.size, after.nodup⟩
    simp only [St.resized]
    omega
  | drop _ _ shrunk => exact shrunk.sound before
  | stay => exact (Recrypt.flushed s).sound before
  | none => exact before

/-- A successful `growproc` keeps the plaintext of the pages that stay, and adds
pages of zeros. -/
theorem plain (resize : Resize s n 0 t) (before : s.Sound) {v : Nat} (half : v < 2 ^ 19)
    (mapped : (t.proc.pgdir.flat v).mapped = true) :
    t.plain v = if (s.proc.pgdir.flat v).mapped then s.plain v else Page.fill 0 := by
  cases resize with
  | @grow m d u _ user grown swept =>
    have recrypt := swept.recrypt (grown.sound user before)
    have mapped' : ((s.withDir m d).proc.pgdir.flat v).mapped = true := by
      rw [← recrypt.dir.mapped]
      exact mapped
    exact (recrypt.plain v half mapped').trans (grown.plain before half mapped')
  | shrink _ _ _ shrunk =>
    have same := shrunk.kept mapped
    rw [if_pos (by rw [← same]; exact mapped)]
    exact shrunk.plain before half mapped
  | stay =>
    rw [if_pos (by exact mapped)]
    rfl

end Resize
end Xv6
