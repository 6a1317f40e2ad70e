import Xv6.WorkingSet
import Xv6.Shape

/-! What `growproc` leaves. The pages it adds are encrypted, except where its loop,
which starts at the old size and not at a page boundary, stops one page short. Its
result and the size it leaves agree, except where the memory is to shrink to
nothing or below: `deallocuvm` answers with the new size, and 0 stands for failure. -/
namespace Xv6
open PteBit Control

/-- Every page that is mapped now and was not before is a writable user page of
encrypted zeros. -/
def NewEncrypted (s t : St) : Prop :=
  ∀ v, (s.proc.pgdir.flat v).mapped = false → (t.proc.pgdir.flat v).mapped = true →
    (t.proc.pgdir.flat v).has PTE_E = true ∧ (t.proc.pgdir.flat v).has PTE_P = false ∧
    (t.proc.pgdir.flat v).has PTE_U = true ∧ (t.proc.pgdir.flat v).has PTE_W = true ∧
    t.phys.bytes (t.proc.pgdir.flat v).ppn = Page.fill 0xFF

theorem Page.fill_zero_flip : (Page.fill 0).flip = Page.fill 0xFF := by
  funext k
  exact (by decide : (0 : UInt8) ^^^ 0xFF = 0xFF)

/-- The bytes of an encrypted page whose plaintext is zero. -/
theorem St.bytes_of_plain_zero {s : St} {v : Nat} (coded : (s.proc.pgdir.flat v).has PTE_E = true)
    (plain : s.plain v = Page.fill 0) :
    s.phys.bytes (s.proc.pgdir.flat v).ppn = Page.fill 0xFF := by
  rw [St.plain, if_pos coded] at plain
  rw [← Page.fill_zero_flip, ← plain, Page.flip_flip]

section Grow
variable {s u : St} {n : Int} {m : Phys} {d : PgDir}

/-- The pages above the old size and below the new one are those `allocuvm` adds. -/
theorem added_of_new {sz newsz v : Nat} (user : newsz < KERNBASE) (low : sz ≤ v * 4096)
    (high : v * 4096 < newsz) :
    pgRoundUp sz ≤ v * 4096 ∧ v * 4096 < pgRoundUp sz + addedPages sz newsz * 4096 := by
  simp only [pgRoundUp, addedPages, PGSIZE, uint, KERNBASE] at *
  omega

/-- The page of the last new bytes, when the loop does not reach it. -/
theorem unreached_new {sz : Nat} (positive : 0 < n) (user : sz + n.toNat < KERNBASE)
    (short : ¬ reachesNew sz n) :
    sz ≤ (sz / 4096 + sweptPages n) * 4096 ∧
    (sz / 4096 + sweptPages n) * 4096 < sz + n.toNat ∧
    ¬ ∃ j < sweptPages n, sz / 4096 + sweptPages n = vpn (sz + j * 4096) := by
  refine ⟨?_, ?_, ?_⟩
  · simp only [sweptPages]
    omega
  · simp only [reachesNew, pgRoundUp, pgRoundDown, sweptPages, KERNBASE, PGSIZE, uint] at *
    omega
  · rintro ⟨j, hj, page⟩
    simp only [vpn, PGSIZE] at page
    omega

theorem Grown.new_encrypted (sound : s.Sound) (user : s.proc.sz + n.toNat < KERNBASE)
    (reaches : reachesNew s.proc.sz n)
    (grown : Grown s.phys m s.proc.pgdir d (pgRoundUp s.proc.sz)
      (addedPages s.proc.sz (s.proc.sz + n.toNat)))
    (swept : Swept (s.withDir m d) u s.proc.sz (sweptPages n))
    (plain : ∀ v < 2 ^ 19, (u.proc.pgdir.flat v).mapped = true → u.plain v =
      if (s.proc.pgdir.flat v).mapped then s.plain v else Page.fill 0) :
    NewEncrypted s u := by
  have size : s.proc.sz ≤ 2 ^ 31 := sound.size
  have recrypt := swept.recrypt (grown.sound user sound)
  have dir : Remarks d u.proc.pgdir := recrypt.dir
  intro v unmapped mapped
  have added : pgRoundUp s.proc.sz ≤ v * 4096 ∧ v * 4096 < pgRoundUp s.proc.sz +
      addedPages s.proc.sz (s.proc.sz + n.toNat) * 4096 := by
    by_contra outside
    rw [dir.mapped, grown.same v outside, unmapped] at mapped
    cases mapped
  obtain ⟨half, high⟩ := added_page user added.1 added.2
  obtain ⟨_, f, _, entry, _⟩ := grown.fresh v added.1 added.2
  have open_ : (d.flat v).has PTE_U = true := by
    rw [entry]
    simp [userPte_has]
  have coded : (u.proc.pgdir.flat v).has PTE_E = true := by
    refine swept.sealed v (swept_new reaches user ?_ high) ?_
    · exact le_trans (le_pgRoundUp size) added.1
    · change (d.flat v).usable = true
      exact Pte.usable_iff.mpr ⟨by rw [entry]; exact userPte_mapped f, open_⟩
  have zero := plain v half mapped
  rw [unmapped, if_neg (by decide)] at zero
  refine ⟨coded, ?_, by rw [dir.user]; exact open_, ?_, St.bytes_of_plain_zero coded zero⟩
  · obtain empty | ⟨either, _⟩ := (recrypt.sound (grown.sound user sound)).dir.tidy v
    · exact absurd empty (Pte.mapped_ne_zero mapped)
    · rw [either, coded]
      rfl
  · obtain same | ⟨_, _, _, sealed⟩ := swept.changed v
    · rw [same]
      change (d.flat v).has PTE_W = true
      rw [entry]
      simp [userPte_has]
    · rw [sealed]
      change (d.flat v).sealed.has PTE_W = true
      rw [entry]
      simp [Pte.sealed, userPte_has]

theorem Grown.new_clear (positive : 0 < n)
    (user : s.proc.sz + n.toNat < KERNBASE) (short : ¬ reachesNew s.proc.sz n)
    (grown : Grown s.phys m s.proc.pgdir d (pgRoundUp s.proc.sz)
      (addedPages s.proc.sz (s.proc.sz + n.toNat)))
    (swept : Swept (s.withDir m d) u s.proc.sz (sweptPages n)) :
    ∃ v, (s.proc.pgdir.flat v).mapped = false ∧ (u.proc.pgdir.flat v).mapped = true ∧
      (u.proc.pgdir.flat v).has PTE_E = false := by
  obtain ⟨low, high, unswept⟩ := unreached_new positive user short
  obtain ⟨added, added'⟩ := added_of_new user low high
  obtain ⟨unmapped, f, _, entry, _⟩ := grown.fresh _ added added'
  have same : u.proc.pgdir.flat (s.proc.sz / 4096 + sweptPages n) = userPte f := by
    obtain same | ⟨inside, _⟩ := swept.changed (s.proc.sz / 4096 + sweptPages n)
    · exact same.trans entry
    · exact absurd inside unswept
  refine ⟨_, unmapped, ?_, ?_⟩
  · rw [same]
    exact userPte_mapped f
  · rw [same]
    simp [userPte_has]

end Grow

/-- `growproc` encrypts every page it adds exactly when its loop reaches the last of
them: `n` rounded up to pages, counted from the page of the old end, covers the new
end. -/
theorem growproc_encrypts_iff {s t : St} (sound : s.Sound) {n : Int} (positive : 0 < n)
    (bound : n < 2 ^ 31) (run : (growproc n).run s = .ok 0 t) :
    NewEncrypted s t ↔
      pgRoundUp (s.proc.sz + n.toNat) ≤ pgRoundDown s.proc.sz + pgRoundUp n.toNat := by
  have resize := (growproc_spec sound n (by omega) bound).of_ok run
  have plain := fun v half mapped => resize.plain sound (v := v) half mapped
  cases resize with
  | grow _ user grown swept =>
    constructor
    · intro all
      by_contra short
      obtain ⟨v, unmapped, mapped, clear⟩ := grown.new_clear positive user short swept
      have coded := (all v unmapped mapped).1
      rw [St.resized, clear] at coded
      cases coded
    · intro reaches
      have encrypted := grown.new_encrypted sound user reaches swept plain
      exact encrypted
  | shrink negative => omega
  | stay none => omega

theorem elevenPageSys_sound : (elevenPageSys.view 0).Sound :=
  (elevenPages_small.owned (m := elevenPageSys.phys)
    (p := (elevenPageSys.slots 0).proc) rfl rfl (by omega) (by decide)).view (by decide) (by decide)

/-- The process grows by a page from a page boundary. -/
theorem aligned_growth_encrypted : ∃ t, (growproc 0x1000).run (elevenPageSys.view 0) = .ok 0 t ∧
    NewEncrypted (elevenPageSys.view 0) t := by
  obtain ⟨s, is⟩ : ∃ s, s = elevenPageSys.view 0 := ⟨_, rfl⟩
  have sound : s.Sound := is ▸ elevenPageSys_sound
  have returns : value (growproc 0x1000) s = some 0 := by
    rw [is]
    decide +kernel
  have reaches : pgRoundUp (s.proc.sz + (0x1000 : Int).toNat) ≤
      pgRoundDown s.proc.sz + pgRoundUp (0x1000 : Int).toNat := by
    rw [is]
    decide +kernel
  rw [← is]
  have run := run_of_value returns
  exact ⟨_, run, (growproc_encrypts_iff sound (by decide) (by decide) run).mpr reaches⟩

/-- The process has grown by half a page and grows by a page: of the two pages the
second call adds to, the last is new, present and in the clear. -/
theorem ragged_growth_plain : ∃ s t, (growproc 0x800).run (elevenPageSys.view 0) = .ok 0 s ∧
    (growproc 0x1000).run s = .ok 0 t ∧ (s.proc.pgdir.flat 12).mapped = false ∧
    (t.proc.pgdir.flat 12).has PTE_P = true ∧ (t.proc.pgdir.flat 12).has PTE_E = false ∧
    ¬ NewEncrypted s t := by
  obtain ⟨r, start⟩ : ∃ r, r = elevenPageSys.view 0 := ⟨_, rfl⟩
  obtain ⟨s, is⟩ : ∃ s, s = final (growproc 0x800) r := ⟨_, rfl⟩
  obtain ⟨t, is'⟩ : ∃ t, t = final (growproc 0x1000) s := ⟨_, rfl⟩
  have first : value (growproc 0x800) r = some 0 := by
    rw [start]
    decide +kernel
  have second : value (growproc 0x1000) s = some 0 := by
    rw [is, start]
    decide +kernel
  have unmapped : (s.proc.pgdir.flat 12).mapped = false := by
    rw [is, start]
    decide +kernel
  have left : (t.proc.pgdir.flat 12).has PTE_P = true ∧ (t.proc.pgdir.flat 12).has PTE_E = false := by
    rw [is', is, start]
    decide +kernel
  rw [← start]
  refine ⟨s, t, is ▸ run_of_value first, is' ▸ run_of_value second, unmapped, left.1, left.2, fun all => ?_⟩
  have coded := (all 12 unmapped (Pte.mapped_of_present left.1)).1
  rw [left.2] at coded
  cases coded

section Undo
variable {m m' m'' : Phys} {d d' d'' : PgDir}

/-- The frames the address space had and still has keep their bytes. -/
def Undisturbed (m m' : Phys) (d d' : PgDir) : Prop :=
  ∀ f ∈ d.frames, f ∈ d'.frames → m'.bytes f = m.bytes f

theorem Yields.spared (yields : Yields m m' d d')
    (nodup : ((m.freelist : Multiset Nat) + d.frames).Nodup) : Undisturbed m m' d d' := by
  obtain ⟨B, moves, frames⟩ := yields
  intro f before after
  rw [frames] at nodup before
  obtain ⟨_, inner, apart⟩ := Multiset.nodup_add.mp nodup
  refine moves.bytes f fun member => ?_
  rcases Multiset.mem_add.mp member with free | freed
  · exact Multiset.disjoint_left.mp apart free before
  · exact Multiset.disjoint_left.mp (Multiset.nodup_add.mp inner).2.2 after freed

theorem Gains.nodup (gains : Gains m m' d d')
    (nodup : ((m.freelist : Multiset Nat) + d.frames).Nodup) :
    ((m'.freelist : Multiset Nat) + d'.frames).Nodup := by
  rw [gains.moves.sum]
  exact nodup

/-- What the address space takes it takes from the free list, so it may go on. -/
theorem Gains.spared (gains : Gains m m' d d')
    (nodup : ((m.freelist : Multiset Nat) + d.frames).Nodup) (rest : Undisturbed m' m'' d' d'') :
    Undisturbed m m'' d d'' := by
  intro f before after
  have held : f ∈ d'.frames := by
    obtain ⟨B, _, frames⟩ := gains
    rw [frames]
    exact Multiset.mem_add.mpr (Or.inl before)
  have taken : f ∉ m.freelist := fun free =>
    Multiset.disjoint_left.mp (Multiset.nodup_add.mp nodup).2.2 (Multiset.mem_coe.mpr free) before
  rw [rest f held after, gains.bytes taken]

theorem ungrow_yields {oldsz newsz : Nat} (user : newsz < KERNBASE) (d : PgDir) (m : Phys) :
    Sat (deallocuvm d newsz oldsz) m (fun r m' => Yields m m' d r.2) noExit :=
  (deallocuvm_moves d newsz oldsz m (le_of_lt user)).imp
    fun _ _ ⟨_, moves, frames, _⟩ => ⟨_, moves, frames⟩

/-- Whether `allocuvm` succeeds or undoes what it did, the pages the process had keep
their contents. -/
theorem allocuvmLoop_spared {oldsz newsz : Nat} (user : newsz < KERNBASE) (n : Nat) (d : PgDir)
    (a : Nat) (m : Phys) (nodup : ((m.freelist : Multiset Nat) + d.frames).Nodup)
    (aligned : a % 4096 = 0) (high : n = 0 ∨ a + n * 4096 < newsz + 4096) :
    Sat (allocuvmLoop oldsz newsz n d a) m (fun r m' => Undisturbed m m' d r.2) noExit := by
  have half := user
  simp only [KERNBASE] at half
  induction n generalizing d a m with
  | zero =>
    rw [allocuvmLoop, sat_pure]
    exact fun _ _ _ => rfl
  | succ n ih =>
    rw [allocuvmLoop]
    refine .bind (kalloc_spec m) fun r m₁ taken => ?_
    cases r with
    | none =>
      subst taken
      dsimp only
      exact .bind (ungrow_yields user d m₁) fun r m₂ yields => yields.spared nodup
    | some f =>
      obtain ⟨free, bytes, image⟩ := taken
      simp only [sat_bind, memset, sat_modify]
      refine (mappages_user d a f _ aligned (by simp only [KERNBASE]; omega)).imp ?_
      rintro ⟨ok, d₁⟩ m₂ mapped
      have split : ((m.freelist : Multiset Nat) + d.frames) = {f} + (m₁.freelist + d.frames) := by
        rw [free, ← Multiset.cons_coe, ← Multiset.singleton_add, add_assoc]
      cases ok with
      | false =>
        dsimp only at mapped ⊢
        refine .bind (ungrow_yields user d₁ m₂) fun r m₃ yields => ?_
        refine .bind (kfree_spec m₃ f) fun _ m₄ freed => ?_
        rw [split] at nodup
        obtain ⟨_, rest, apart⟩ := Multiset.nodup_add.mp nodup
        have after := mapped.1.nodup rest
        have spared : Undisturbed (m₁.write f (Page.fill 0)) m₃ d r.2 :=
          mapped.1.spared rest (yields.spared after)
        intro g before still
        have other : g ≠ f := by
          rintro rfl
          exact Multiset.disjoint_left.mp apart (Multiset.mem_singleton_self g)
            (Multiset.mem_add.mpr (Or.inr before))
        have taken : g ∉ (m₃.freelist : Multiset Nat) := by
          rw [← yields.moves.sum] at after
          exact fun free => Multiset.disjoint_left.mp (Multiset.nodup_add.mp after).2.2 free still
        calc m₄.bytes g
            = m₃.bytes g := freed.bytes g (by simpa [other] using taken)
          _ = (m₁.write f (Page.fill 0)).bytes g := spared g before still
          _ = m.bytes g := by rw [← bytes]; exact Function.update_of_ne other _ _
      | true =>
        obtain ⟨_, _, B, moves, frames⟩ := mapped
        dsimp only at frames ⊢
        have step : uint (a + PGSIZE) = a + 4096 := uint_page (by omega)
        rw [step]
        have list : m.freelist.Nodup := Multiset.coe_nodup.mp (Multiset.nodup_add.mp nodup).1
        obtain ⟨gains, _⟩ := page_added free bytes image moves frames list
        exact (ih d₁ (a + 4096) m₂ (gains.nodup nodup) (by omega) (by omega)).imp
          (fun r m₃ spared => gains.spared nodup spared)

theorem allocuvm_spared {oldsz newsz : Nat} (d : PgDir) (m : Phys)
    (nodup : ((m.freelist : Multiset Nat) + d.frames).Nodup) (grows : oldsz ≤ newsz) :
    Sat (allocuvm d oldsz newsz) m (fun r m' => Undisturbed m m' d r.2) noExit := by
  rw [allocuvm]
  by_cases large : newsz ≥ KERNBASE
  · rw [if_pos large, sat_pure]
    exact fun _ _ _ => rfl
  · rw [if_neg large, if_neg (by omega)]
    have small : newsz < 2 ^ 31 := by simpa [KERNBASE] using large
    refine allocuvmLoop_spared (by omega) _ d _ m nodup ?_ ?_
    · simp only [pgRoundUp, PGSIZE]
      omega
    · simp only [pgRoundUp, PGSIZE, uint]
      omega

end Undo

/-- The pages a `growproc` keeps when it fails keep their bytes. -/
theorem growproc_spared {s : St} (sound : s.Sound) {n : Int} (positive : 0 < n)
    (bound : n < 2 ^ 31) :
    Sat (growproc n) s
      (fun r t => r = -1 → Undisturbed s.phys t.phys s.proc.pgdir t.proc.pgdir) noExit := by
  have size : s.proc.sz ≤ 2 ^ 31 := sound.size
  have newsz : addInt s.proc.sz n = s.proc.sz + n.toNat := by
    unfold addInt
    omega
  have list : s.phys.freelist.Nodup := sound.free
  rw [growproc, sat_bind, sat_get]
  dsimp only
  rw [if_pos positive, sat_bind, onPhys, sat_zoom, newsz]
  refine ((allocuvm_spared s.proc.pgdir s.phys sound.nodup (by omega)).and
    (allocuvm_spec s.proc.pgdir s.proc.sz _ s.phys list (by omega))).mono ?_
    (fun _ _ stop => stop.1)
  rintro ⟨sz, d⟩ m ⟨spared, outcome⟩
  dsimp only at spared outcome ⊢
  rw [sat_bind, modifyProc, sat_modify]
  obtain ⟨rfl, user, _⟩ | ⟨rfl, _⟩ := outcome
  · rw [if_neg (by omega)]
    refine .bind (growprocLoop_spec _ _ (s.withDir m d) ?_) fun _ u _ => ?_
    · simp only [KERNBASE, pgRoundUp, PGSIZE, uint] at user ⊢
      split <;> omega
    · simp only [sat_bind, switchuvm, modifyProc, sat_modify, sat_pure]
      rintro ⟨⟩
  · rw [if_pos rfl, sat_pure]
    exact fun _ => spared

/-- No user page is mapped above the size of the process. -/
def Proc.Capped (p : Proc) : Prop :=
  ∀ v < 2 ^ 19, p.sz ≤ v * 4096 → (p.pgdir.flat v).mapped = false

namespace Proc.Capped
variable {p q : Proc}

theorem remarks (capped : p.Capped) (dir : Remarks p.pgdir q.pgdir) (sz : q.sz = p.sz) :
    q.Capped := by
  intro v half above
  rw [dir.mapped]
  exact capped v half (by rwa [sz] at above)

theorem child {m m' : Phys} {d : PgDir} (space : ChildSpace m m' p.pgdir d p.sz) :
    (p.child d).Capped := by
  intro v half above
  change (d.flat v).mapped = false
  rw [space.rest v half above, Pte.zero_mapped]

end Proc.Capped

theorem Proc.Shaped.capped {p : Proc} (shaped : p.Shaped) : p.Capped := by
  intro v half above
  rw [Bool.eq_false_iff, ne_eq, shaped.mapped v half]
  omega

/-- What lay above the new size is gone. -/
theorem Shrunk.capped {m m' : Phys} {p : Proc} {d : PgDir} {newsz : Nat} (capped : p.Capped)
    (shrunk : Shrunk m m' p.pgdir d p.sz newsz) (size : p.sz ≤ 2 ^ 31) (less : newsz ≤ p.sz)
    {v : Nat} (half : v < 2 ^ 19) (above : newsz ≤ v * 4096) : (d.flat v).mapped = false := by
  rw [shrunk.flat v]
  split
  · exact Pte.zero_mapped
  · rename_i kept
    by_cases below : v * 4096 < p.sz
    · have round : pgRoundUp newsz ≤ v * 4096 := by
        simp only [pgRoundUp, PGSIZE, uint]
        omega
      simpa [round, below] using kept
    · exact capped v half (by omega)

theorem Resize.capped {s t : St} {n r : Int} (resize : Resize s n r t) (sound : s.Sound)
    (capped : s.proc.Capped) : t.proc.Capped := by
  have size : s.proc.sz ≤ 2 ^ 31 := sound.size
  cases resize with
  | @grow m d u _ user grown swept =>
    have dir : Remarks d u.proc.pgdir := (swept.recrypt (grown.sound user sound)).dir
    intro v half above
    change s.proc.sz + n.toNat ≤ v * 4096 at above
    change (u.proc.pgdir.flat v).mapped = false
    rw [dir.mapped, grown.same v fun inside => ?_]
    · exact capped v half (by omega)
    · have := (added_page user inside.1 inside.2).2
      omega
  | short _ ungrown =>
    intro v half above
    obtain same | ⟨zero, _⟩ := ungrown.pages v
    · exact (congrArg Pte.mapped same).trans (capped v half above)
    · exact (congrArg Pte.mapped zero).trans Pte.zero_mapped
  | @shrink m d newsz _ value _ shrunk =>
    intro v half above
    exact shrunk.capped capped size (by omega) half above
  | drop _ _ shrunk =>
    intro v half above
    exact shrunk.capped capped size (by omega) half (by omega)
  | stay => exact capped
  | none => exact capped

section Run
variable {pool lost : Multiset Nat} {s t : Sys} {i : Nat}

theorem Outcome.capped {call : Call} {r : Option Int} (outcome : Outcome i s call r t)
    (owned : s.Owned pool lost) (hi : i < NPROC) (live : (s.slots i).state.live = true)
    (each : s.Each Proc.Capped) : t.Each Proc.Capped := by
  have sound := owned.view hi (live_used live)
  have mine : (s.view i).proc.Capped := each i hi live
  have touched : ∀ {st : St}, Touches (s.view i) st → (s.put i st).Each Proc.Capped :=
    fun touches => each.put (mine.remarks touches.dir touches.sz)
  cases outcome with
  | load run => exact touched ((load_spec sound true _).of_ok run).1.toTouches
  | store run => exact touched ((store_spec sound true _ _ (Or.inl rfl)).of_ok run).toTouches
  | mencrypt => exact touched (Recrypt.mencrypted sound _ _).toTouches
  | growproc resize => exact each.put (resize.capped sound mine)
  | exec done =>
    obtain ⟨_, w⟩ | ⟨_, settles, _, _, _, _, loaded⟩ := done
    · exact each.put (mine.remarks w.dir w.sz)
    · exact each.put (loaded.shaped settles.dir).capped
  | unforked failed => exact each.unforked failed
  | forked _ forked => exact each.forked forked fun d space => Proc.Capped.child space
  | waited => exact each
  | reaped _ reaped => exact each.reaped reaped
  | piped piped =>
    obtain ⟨u, st, files, touches, _, rfl⟩ := piped
    have view : (u.view i).proc = (s.view i).proc := files.proc i
    rw [← view] at mine
    exact (each.fileStep files).put (mine.remarks touches.dir touches.sz)
  | closed step => exact each.fileStep step
  | ended files _ _ exited => exact each.ended files exited

theorem step_capped (pool : Multiset Nat) :
    Transition.Keeps Step fun s => (∃ lost, s.Owned pool lost) ∧ s.Each Proc.Capped := by
  rintro s e t step ⟨⟨lost, owned⟩, each⟩
  exact ⟨step_owned pool s e t step ⟨lost, owned⟩,
    (step.outcome owned).capped owned step.1 step.2.1 each⟩

end Run

/-- The result of `growproc(n)` tells what it did: 0 that the size changed by `n`, and
-1 that the size, the user mappings and the pages are as before. -/
structure Truthful (s : St) (n r : Int) (t : St) : Prop where
  results : r = 0 ∨ r = -1
  done : r = 0 → (t.proc.sz : Int) = s.proc.sz + n
  size : r = -1 → t.proc.sz = s.proc.sz
  dir : r = -1 → ∀ v < 2 ^ 19, t.proc.pgdir.flat v = s.proc.pgdir.flat v
  pages : r = -1 → ∀ v < 2 ^ 19, (s.proc.pgdir.flat v).mapped = true →
    t.phys.bytes (s.proc.pgdir.flat v).ppn = s.phys.bytes (s.proc.pgdir.flat v).ppn

/-- The call takes away as much as the process has and finds a page to free, or takes
away more. -/
def Proc.Overdrawn (p : Proc) (n : Int) : Prop :=
  n < 0 ∧ 0 < p.sz ∧
    (p.sz + n < 0 ∨ p.sz + n = 0 ∧ ∃ v, v * 4096 < p.sz ∧ (p.pgdir.flat v).mapped = true)

section Result
variable {s t : St} {n r : Int} {m : Phys} {d : PgDir}

/-- A failed growth leaves the entries as they were. -/
theorem Ungrown.same {newsz : Nat} (sound : s.Sound) (capped : s.proc.Capped)
    (ungrown : Ungrown s.phys m s.proc.pgdir d s.proc.sz newsz) {v : Nat}
    (half : v < 2 ^ 19) : d.flat v = s.proc.pgdir.flat v := by
  obtain same | ⟨zero, low, _⟩ := ungrown.pages v
  · exact same
  · have size : s.proc.sz ≤ 2 ^ 31 := sound.size
    have unmapped := capped v half (le_trans (le_pgRoundUp size) low)
    obtain empty | ⟨either, _⟩ := sound.dir.tidy v
    · rw [zero, empty]
    · rw [Pte.mapped, either] at unmapped
      simp at unmapped

theorem Resize.truthful_iff (resize : Resize s n r t) (sound : s.Sound) (capped : s.proc.Capped)
    (spared : 0 < n → r = -1 → Undisturbed s.phys t.phys s.proc.pgdir t.proc.pgdir) :
    Truthful s n r t ↔ ¬ s.proc.Overdrawn n := by
  have size : s.proc.sz ≤ 2 ^ 31 := sound.size
  cases resize with
  | grow positive =>
    refine ⟨fun _ bad => by have := bad.1; omega, fun _ => ⟨Or.inl rfl, fun _ => ?_, ?_, ?_, ?_⟩⟩
    · change ((s.proc.sz + n.toNat : Nat) : Int) = s.proc.sz + n
      omega
    all_goals rintro ⟨⟩
  | short positive ungrown =>
    refine ⟨fun _ bad => by have := bad.1; omega, fun _ => ⟨Or.inr rfl, ?_, ?_, ?_, ?_⟩⟩
    · rintro ⟨⟩
    · exact fun _ => rfl
    · exact fun _ v half => ungrown.same sound capped half
    · intro failed v half mapped
      have still := ungrown.same sound capped half
      refine spared positive failed _ (PgDir.mem_frames half mapped) ?_
      have held := PgDir.mem_frames (d := _) half (by rw [still]; exact mapped)
      rwa [still] at held
  | @shrink m d newsz negative value positive =>
    refine ⟨fun _ bad => by have := bad.2.2; omega, fun _ => ⟨Or.inl rfl, fun _ => value.symm, ?_, ?_, ?_⟩⟩
    all_goals rintro ⟨⟩
  | @drop m d negative value shrunk =>
    constructor
    · rintro truthful ⟨_, _, below | ⟨_, v, low, mapped⟩⟩
      · omega
      · have half : v < 2 ^ 19 := by omega
        have gone := shrunk.capped capped size (by omega) half (Nat.zero_le _)
        have same := truthful.dir rfl v half
        change d.flat v = _ at same
        rw [same, mapped] at gone
        cases gone
    · intro fine
      have bare : ∀ v < 2 ^ 19, (s.proc.pgdir.flat v).mapped = false := by
        intro v half
        by_cases low : v * 4096 < s.proc.sz
        · rw [Bool.eq_false_iff]
          intro mapped
          exact fine ⟨negative, by omega, Or.inr ⟨value, v, low, mapped⟩⟩
        · exact capped v half (by omega)
      refine ⟨Or.inr rfl, ?_, fun _ => rfl, fun _ v half => ?_, fun _ v half mapped => ?_⟩
      · rintro ⟨⟩
      · change d.flat v = _
        rw [shrunk.flat v, bare v half, if_neg (by simp)]
      · rw [bare v half] at mapped
        cases mapped
  | stay _ why =>
    constructor
    · rintro truthful ⟨negative, some, _⟩
      have done : (s.proc.sz : Int) = s.proc.sz + n := truthful.done rfl
      omega
    · intro fine
      refine ⟨Or.inl rfl, fun _ => ?_, ?_, ?_, ?_⟩
      · change (s.proc.sz : Int) = s.proc.sz + n
        rcases why with rfl | ⟨below, some⟩
        · omega
        · exact absurd ⟨by omega, some, Or.inl below⟩ fine
      all_goals rintro ⟨⟩
  | none negative empty =>
    refine ⟨fun _ bad => by have := bad.2.1; omega, fun _ => ⟨Or.inr rfl, ?_, ?_, ?_, ?_⟩⟩
    · rintro ⟨⟩
    all_goals exact fun _ => by intros; rfl

end Result

/-- In every state a run reaches, `growproc(n)` does what its result tells, and has no
effect when it fails, exactly when it does not take away all the memory of a process
that has pages, or more than all. -/
theorem growproc_truthful_iff {pool lost : Multiset Nat} {s₀ s : Sys} {es : List Event}
    (owned : s₀.Owned pool lost) (capped : s₀.Each Proc.Capped) (run : Transition.Run Step s₀ es s)
    {i : Nat} (hi : i < NPROC) (live : (s.slots i).state.live = true) {n r : Int} {t : St}
    (low : -2 ^ 31 ≤ n) (high : n < 2 ^ 31) (returns : (growproc n).run (s.view i) = .ok r t) :
    Truthful (s.view i) n r t ↔ ¬ (s.view i).proc.Overdrawn n := by
  obtain ⟨⟨_, owned⟩, capped⟩ := run.kept (step_capped pool) ⟨⟨lost, owned⟩, capped⟩
  have sound := owned.view hi (live_used live)
  have resize := (growproc_spec sound n low high).of_ok returns
  refine resize.truthful_iff sound (capped i hi live) fun positive => ?_
  exact (growproc_spared sound positive high).of_ok returns

theorem Small.capped {ptes : Nat → Pte} {n : Nat} (small : Small ptes n) {p : Proc}
    (dir : p.pgdir = .single 1001 1002 ptes) (size : p.sz = n * 4096) : p.Capped := by
  intro v _ above
  rw [dir, PgDir.single_flat]
  split
  · rw [small.empty v (by omega)]
    exact Pte.zero_mapped
  · exact Pte.zero_mapped

theorem elevenPageSys_capped : elevenPageSys.Each Proc.Capped :=
  fun _ _ _ => elevenPages_small.capped rfl rfl

/-- The process uses a page and then gives one back. -/
theorem page_given_back_truthful : ∃ s t,
    Transition.Run Step elevenPageSys [⟨0, .load 0x1004, some 97⟩] s ∧
    (growproc (-0x1000)).run (s.view 0) = .ok 0 t ∧ Truthful (s.view 0) (-0x1000) 0 t := by
  have owned := elevenPages_small.owned (m := elevenPageSys.phys)
    (p := (elevenPageSys.slots 0).proc) rfl rfl (by omega) (by decide)
  obtain ⟨s, is⟩ : ∃ s, s = after 0 (.load 0x1004) elevenPageSys := ⟨_, rfl⟩
  have step : Step elevenPageSys ⟨0, .load 0x1004, some 97⟩ s := by
    rw [is]
    exact step_after (by decide) (by decide) (by decide +kernel)
  have live : (s.slots 0).state.live = true := by
    rw [is]
    decide +kernel
  have size : (s.view 0).proc.sz = 0xB000 := by
    rw [is]
    decide +kernel
  have value : value (growproc (-0x1000)) (s.view 0) = some 0 := by
    rw [is]
    decide +kernel
  have run : Transition.Run Step elevenPageSys [⟨0, .load 0x1004, some 97⟩] s := .next step (.refl s)
  have returns := run_of_value value
  refine ⟨s, _, run, returns, ?_⟩
  refine (growproc_truthful_iff owned elevenPageSys_capped run (by decide) live (by decide)
    (by decide) returns).mpr ?_
  rintro ⟨_, _, below | ⟨empty, _⟩⟩
  · rw [size] at below
    omega
  · rw [size] at empty
    omega

/-- Taking away all eleven pages returns -1 with the pages gone, and taking away more
returns 0 with the size as it was. -/
theorem emptying_untruthful :
    (∃ t, (growproc (-0xB000)).run (elevenPageSys.view 0) = .ok (-1) t ∧
      ¬ Truthful (elevenPageSys.view 0) (-0xB000) (-1) t) ∧
    ∃ t, (growproc (-0xC000)).run (elevenPageSys.view 0) = .ok 0 t ∧
      ¬ Truthful (elevenPageSys.view 0) (-0xC000) 0 t := by
  obtain ⟨s, is⟩ : ∃ s, s = elevenPageSys.view 0 := ⟨_, rfl⟩
  rw [← is]
  have all : value (growproc (-0xB000)) s = some (-1) := by
    rw [is]
    decide +kernel
  have more : value (growproc (-0xC000)) s = some 0 := by
    rw [is]
    decide +kernel
  refine ⟨⟨_, run_of_value all, fun truthful => ?_⟩, _, run_of_value more, fun truthful => ?_⟩
  · have gone : ((final (growproc (-0xB000)) s).proc.pgdir.flat 1).mapped = false ∧
        (s.proc.pgdir.flat 1).mapped = true := by
      rw [is]
      decide +kernel
    rw [truthful.dir rfl 1 (by decide), gone.2] at gone
    cases gone.1
  · have size : (final (growproc (-0xC000)) s).proc.sz = 0xB000 ∧ s.proc.sz = 0xB000 := by
      rw [is]
      decide +kernel
    have done := truthful.done rfl
    rw [size.1, size.2] at done
    omega

end Xv6
