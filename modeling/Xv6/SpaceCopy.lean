import Xv6.GrownPages
import Xv6.ForkReturns
import Xv6.Mapping

/-! `copyuvm` copies an address space exactly, or fails and gives back every frame it
took. However many frames are free, it returns: what it frees again on the way came from
the free list, and `kfree` accepts it. -/
namespace Xv6
open PteBit Control

/-- The directory maps copies of the pages of `pgdir` below `sz`, on frames that were free
and that nobody else uses, and no other user page. -/
structure ExactCopy (pgdir : PgDir) (sz : Nat) (m m' : Phys) (d : PgDir) : Prop where
  pages : ∀ v, v * 4096 < sz → (d.flat v).flags = (pgdir.flat v).flags ∧
    m'.bytes (d.flat v).ppn = m.bytes (pgdir.flat v).ppn
  fresh : ∀ v, v * 4096 < sz → (d.flat v).ppn ∈ m.freelist ∧ (d.flat v).ppn ∉ m'.freelist
  distinct : ∀ v w, v * 4096 < sz → w * 4096 < sz → (d.flat v).ppn = (d.flat w).ppn → v = w
  others : ∀ v < 2 ^ 19, sz ≤ v * 4096 → d.flat v = .zero
  apart : Disjoint d.frames pgdir.frames

/-- However many frames are free, `copyuvm` copies the address space or takes no frame,
and the memory of the parent is as before. -/
theorem copyuvm_exact (pgdir : PgDir) (sz : Nat) (m : Phys) (size : sz ≤ KERNBASE)
    (pages : ∀ v, v * 4096 < sz → (pgdir.flat v).has PTE_P = !(pgdir.flat v).has PTE_E)
    (nodup : ((m.freelist : Multiset Nat) + pgdir.frames).Nodup)
    (accepts : ∀ f ∈ m.freelist, m.image.accepts f) :
    ∃ r m', (copyuvm pgdir sz).run m = .ok r m' ∧ (∀ f ∈ pgdir.frames, m'.bytes f = m.bytes f) ∧
      match r with
      | none => (m'.freelist : Multiset Nat) = m.freelist
      | some d => ExactCopy pgdir sz m m' d := by
  have mapped : ∀ v, v * 4096 < sz → (pgdir.flat v).mapped = true := by
    intro v below
    rw [Pte.mapped, pages v below]
    exact Bool.not_or_self _
  have taken : ∀ f ∈ pgdir.frames, f ∉ m.freelist := by
    intro f member free
    exact Multiset.disjoint_left.mp (Multiset.nodup_add.mp nodup).2.2 (Multiset.mem_coe.mpr free) member
  have free := Multiset.coe_nodup.mp (Multiset.nodup_add.mp nodup).1
  have apart : ∀ v, v < 2 ^ 19 → (pgdir.flat v).mapped = true → (pgdir.flat v).ppn ∉ m.freelist :=
    fun v half mapped => taken _ (PgDir.mem_frames half mapped)
  obtain ⟨r, m', run, copied, _⟩ :=
    (((copyuvm_spec pgdir sz m free apart size).and (copyuvm_ends size mapped fun f member => .inl (accepts f member))).mono
      (fun _ _ both => both) fun _ _ stop => stop.2).returns
  refine ⟨r, m', run, ?_⟩
  cases r with
  | none =>
    constructor
    · intro f member
      exact copied.bytes f (by simpa using taken f member)
    · simpa using copied.sum
  | some d =>
    obtain ⟨moves, _, copies, others⟩ := copied
    have sum : (m'.freelist : Multiset Nat) + d.frames = m.freelist := by simpa using moves.sum
    have split : ((m'.freelist : Multiset Nat) + d.frames).Nodup := by
      rw [sum]
      exact Multiset.coe_nodup.mpr free
    have half : ∀ v, v * 4096 < sz → v < 2 ^ 19 := by
      simp only [KERNBASE] at size
      omega
    have copy : ∀ v, v * 4096 < sz → (d.flat v).mapped = true := by
      intro v below
      obtain ⟨mapped, f, _, entry, _⟩ := copies v below
      rw [entry]
      exact mapped
    have owned : ∀ v, v * 4096 < sz → (d.flat v).ppn ∈ d.frames :=
      fun v below => PgDir.mem_frames (half v below) (copy v below)
    constructor
    · intro f member
      exact moves.bytes f (by simpa using taken f member)
    constructor
    · intro v below
      obtain ⟨_, f, _, entry, bytes⟩ := copies v below
      rw [entry]
      exact ⟨rfl, bytes⟩
    · intro v below
      constructor
      · rw [← Multiset.mem_coe, ← sum]
        exact Multiset.mem_add.mpr (Or.inr (owned v below))
      · intro left
        exact Multiset.disjoint_left.mp (Multiset.nodup_add.mp split).2.2 (Multiset.mem_coe.mpr left) (owned v below)
    · intro v w belowV belowW same
      exact PgDir.page_unique (Multiset.nodup_add.mp split).2.1 (half v belowV) (half w belowW) (copy v belowV)
        (copy w belowW) same
    · exact others
    · apply Multiset.disjoint_left.mpr
      intro f member parent
      apply taken f parent
      rw [← Multiset.mem_coe, ← sum]
      exact Multiset.mem_add.mpr (Or.inr member)

theorem smallImage_accepts {f : Nat} (member : f ∈ List.range' 2000 1100) : smallImage.accepts f := by
  obtain ⟨low, high⟩ := List.mem_range'_1.mp member
  have last : smallImage.end_ ≤ 2000 := by decide
  refine ⟨by omega, by omega, ?_⟩
  simp only [PHYSTOP, PGSIZE]
  omega

/-- Eleven encrypted pages are copied. -/
theorem eleven_pages_copied :
    ∃ d m', (copyuvm (elevenPageSys.view 0).proc.pgdir 45056).run (elevenPageSys.view 0).phys = .ok (some d) m' ∧
      ExactCopy (elevenPageSys.view 0).proc.pgdir 45056 (elevenPageSys.view 0).phys m' d := by
  obtain ⟨s, is⟩ : ∃ s, s = elevenPageSys.view 0 := ⟨_, rfl⟩
  have sound : s.Sound := is ▸ elevenPageSys_sound
  have free : s.phys.freelist = List.range' 2000 1100 := by rw [is]; rfl
  have image : s.phys.image = smallImage := by rw [is]; rfl
  have flags : ∀ v < 11, (s.proc.pgdir.flat v).has PTE_P = !(s.proc.pgdir.flat v).has PTE_E := by
    rw [is]
    decide +kernel
  have pages : ∀ v, v * 4096 < 45056 → (s.proc.pgdir.flat v).has PTE_P = !(s.proc.pgdir.flat v).has PTE_E :=
    fun v below => flags v (by omega)
  have mapped : ∀ v, v * 4096 < 45056 → (s.proc.pgdir.flat v).mapped = true := by
    intro v below
    rw [Pte.mapped, pages v below]
    exact Bool.not_or_self _
  have accepts : ∀ f ∈ s.phys.freelist, s.phys.image.accepts f := by
    rw [free, image]
    exact fun f member => smallImage_accepts member
  have enough : 1025 + (45056 + 4095) / 4096 ≤ s.phys.freelist.length := by
    rw [free, List.length_range']
    decide
  rw [← is]
  obtain ⟨r, m', run, _, copied⟩ :=
    copyuvm_exact s.proc.pgdir 45056 s.phys (by decide) pages sound.nodup accepts
  cases r with
  | none => exact absurd rfl ((copyuvm_room (by decide) mapped enough).of_ok run)
  | some d => exact ⟨d, m', run, copied⟩

end Xv6
