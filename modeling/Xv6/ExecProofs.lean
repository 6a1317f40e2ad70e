import Xv6.ExecStack

/-! `exec`: the image it builds in a page directory of its own, and what becomes
of the frames of both address spaces on every way out of it. -/
namespace Xv6
open PteBit Control
open Function (update_of_ne update_self)

/-- A program of `sz` bytes in a new page directory: its pages are user pages in
the clear, and nothing else is mapped below the kernel. -/
structure Program (d : PgDir) (sz : Nat) : Prop where
  sound : d.Sound
  pages : ∀ v, v * 4096 < sz → ∃ f, d.flat v = userPte f
  rest : ∀ v < 2 ^ 19, sz ≤ v * 4096 → d.flat v = .zero
  low : sz ≤ KERNBASE

theorem PgDir.Blank.image {d : PgDir} (blank : d.Blank) : Program d 0 :=
  ⟨blank.sound, fun v below => by omega, fun v half _ => blank.empty v half, by decide⟩

theorem userPte_mapped (f : Nat) : (userPte f).mapped = true := by
  simp [Pte.mapped, userPte_has]

theorem userPte_usable (f : Nat) : (userPte f).usable = true :=
  Pte.usable_iff.mpr ⟨userPte_mapped f, by simp [userPte_has]⟩

theorem Program.held {d : PgDir} {sz : Nat} (program : Program d sz) {v : Nat} (below : v * 4096 < sz) :
    v < 2 ^ 19 ∧ (d.flat v).mapped = true ∧ (d.flat v).ppn ∈ d.frames := by
  have low : sz ≤ 2 ^ 31 := program.low
  obtain ⟨f, entry⟩ := program.pages v below
  have mapped : (d.flat v).mapped = true := by
    rw [entry]
    exact userPte_mapped f
  exact ⟨by omega, mapped, PgDir.mem_frames (by omega) mapped⟩

/-- The program grows. -/
theorem Grown.image {m m' : Phys} {d d' : PgDir} {sz newsz : Nat}
    (grown : Grown m m' d d' (pgRoundUp sz) (addedPages sz newsz)) (image : Program d sz)
    (grows : sz ≤ newsz) (user : newsz < KERNBASE) : Program d' newsz := by
  have size : newsz < 2 ^ 31 := user
  have round : pgRoundUp sz = (sz + 4095) / 4096 * 4096 := by
    simp only [pgRoundUp, PGSIZE, uint]
    omega
  have inside : ∀ v, pgRoundUp sz ≤ v * 4096 →
      v * 4096 < pgRoundUp sz + addedPages sz newsz * 4096 → v < 2 ^ 19 ∧ v * 4096 < newsz :=
    fun v low high => added_page user low high
  refine ⟨⟨fun v => ?_, fun v kernel => ?_⟩, fun v below => ?_, fun v half above => ?_,
    le_of_lt user⟩
  · by_cases added : pgRoundUp sz ≤ v * 4096 ∧
        v * 4096 < pgRoundUp sz + addedPages sz newsz * 4096
    · obtain ⟨_, f, _, entry, _⟩ := grown.fresh v added.1 added.2
      rw [entry]
      exact userPte_tidy f
    · rw [grown.same v added]
      exact image.sound.tidy v
  · rw [grown.same v]
    · exact image.sound.guarded v kernel
    · rintro ⟨low, high⟩
      have := inside v low high
      omega
  · by_cases old : v * 4096 < sz
    · rw [grown.same v (by omega)]
      exact image.pages v old
    · obtain ⟨_, f, _, entry, _⟩ := grown.fresh v (by omega) (by
        simp only [addedPages]
        omega)
      exact ⟨f, entry⟩
  · rw [grown.same v]
    · exact image.rest v half (by omega)
    · rintro ⟨low, high⟩
      have := inside v low high
      omega

theorem Moves.nodup {m m' : Phys} {A B : Multiset Nat} (moves : Moves m m' A B)
    (nodup : ((m.freelist : Multiset Nat) + A).Nodup) :
    ((m'.freelist : Multiset Nat) + B).Nodup := by
  rw [moves.sum]
  exact nodup

theorem allocuvm_image {d : PgDir} {sz : Nat} (image : Program d sz) (newsz : Nat) (m : Phys)
    (nodup : ((m.freelist : Multiset Nat) + d.frames).Nodup) :
    Sat (allocuvm d sz newsz) m (fun r m' => Moves m m' d.frames r.2.frames ∧
      (r.1 ≠ 0 → r.1 = max sz newsz ∧ Program r.2 r.1)) noExit := by
  have free : m.freelist.Nodup := Multiset.coe_nodup.mp (Multiset.nodup_add.mp nodup).1
  by_cases grows : sz ≤ newsz
  · refine (allocuvm_spec d sz newsz m free grows).imp ?_
    rintro ⟨r, d'⟩ m' (⟨rfl, user, grown⟩ | ⟨rfl, ungrown⟩)
    · exact ⟨grown.gains.moves, fun _ => ⟨(max_eq_right grows).symm, grown.image image grows user⟩⟩
    · exact ⟨ungrown.moves, fun filled => absurd rfl filled⟩
  · rw [allocuvm]
    split
    · exact ⟨.refl _ _, fun filled => absurd rfl filled⟩
    · rw [if_pos (by omega)]
      exact ⟨.refl _ _, fun _ => ⟨(max_eq_left (by omega)).symm, image⟩⟩

theorem blit_moves (m : Phys) {f : Nat} {X : Multiset Nat} (held : f ∈ X) (bs : List UInt8) :
    Moves m (m.blit f bs) X X := by
  refine ⟨rfl, fun g outside => ?_, rfl⟩
  have other : g ≠ f := by
    rintro rfl
    exact outside (Multiset.mem_add.mpr (Or.inr held))
  simp only [Phys.blit, Phys.write, update_of_ne other]

theorem loaduvmLoop_spec {d : PgDir} {size addr sz : Nat} (image : Program d size)
    (inside : addr + sz ≤ size) (ip : Inode) (off k i : Nat)
    (enough : k = 0 ∨ i + k * 4096 < sz + 4096) (m : Phys) :
    Sat (loaduvmLoop d addr ip off sz k i) m (fun _ m' => Moves m m' d.frames d.frames) noExit := by
  have low : size ≤ 2 ^ 31 := image.low
  induction k generalizing i m with
  | zero => exact .refl m _
  | succ k ih =>
    have here : vpn (uint (addr + i)) * 4096 < size := by
      simp only [vpn, uint, PGSIZE]
      omega
    obtain ⟨f, entry⟩ := image.pages _ here
    have half : vpn (uint (addr + i)) < 2 ^ 19 := by omega
    have mapped : (d.flat (vpn (uint (addr + i)))).mapped = true := by
      rw [entry]
      exact userPte_mapped f
    have held := PgDir.mem_frames half mapped
    rw [loaduvmLoop, PgDir.walk_of_mapped mapped]
    dsimp only
    cases readi ip (uint (off + i)) (min (sz - i) PGSIZE) with
    | none => exact .refl m _
    | some bs =>
      dsimp only
      rw [sat_bind, sat_modify]
      have filled := blit_moves m held bs
      split
      · exact filled
      · refine (ih (i + PGSIZE) ?_ _).imp (fun _ m' rest => filled.trans rest)
        simp only [PGSIZE]
        omega

theorem loaduvm_spec {d : PgDir} {size addr sz : Nat} (image : Program d size)
    (inside : addr + sz ≤ size) (ip : Inode) (off : Nat) (m : Phys) :
    Sat (loaduvm d addr ip off sz) m (fun _ m' => Moves m m' d.frames d.frames) noExit := by
  rw [loaduvm]
  split
  · exact sat_panic _ _ _
  · refine loaduvmLoop_spec image inside ip off _ 0 ?_ m
    simp only [PGSIZE]
    omega

theorem le_lt (bs : List UInt8) (off n : Nat) : le bs off n < 256 ^ n := by
  induction n generalizing off with
  | zero => simp [le]
  | succ n ih =>
    have byte := (bs.getD off 0).toNat_lt
    have rest := ih (off + 1)
    rw [le, pow_succ]
    omega

/-- The size of the program after the segments of the program headers that follow. -/
def imageSize (ip : Inode) : Nat → Nat → Nat → Nat
  | 0, _, sz => sz
  | n + 1, off, sz =>
    match readi ip off 32 with
    | none => sz
    | some bs =>
      let ph := ProgHdr.parse bs
      if ph.type ≠ ELF_PROG_LOAD then imageSize ip n (uint (off + 32)) sz
      else imageSize ip n (uint (off + 32)) (max sz (uint (ph.vaddr + ph.memsz)))

theorem execLoad_spec (ip : Inode) (n off : Nat) {sz : Nat} {d : PgDir} (image : Program d sz)
    (m : Phys) (nodup : ((m.freelist : Multiset Nat) + d.frames).Nodup) :
    Sat (execLoad ip n off sz d) m (fun r m' => Moves m m' d.frames r.2.frames ∧
      ∀ size, r.1 = some size → size = imageSize ip n off sz ∧ Program r.2 size) noExit := by
  induction n generalizing off sz d m with
  | zero =>
    refine ⟨.refl m _, fun size is => ?_⟩
    cases is
    exact ⟨rfl, image⟩
  | succ n ih =>
    rw [execLoad, imageSize]
    cases readi ip off 32 with
    | none => exact ⟨.refl m _, nofun⟩
    | some bs =>
      dsimp only
      split
      · exact ⟨.refl m _, nofun⟩
      split
      · exact ih (uint (off + 32)) image m nodup
      split
      · exact ⟨.refl m _, nofun⟩
      split
      · exact ⟨.refl m _, nofun⟩
      rename_i whole wraps
      refine .bind (allocuvm_image image _ m nodup) ?_
      rintro ⟨size, d₁⟩ m₁ ⟨moves, grown⟩
      dsimp only at moves grown ⊢
      split
      · exact ⟨moves, nofun⟩
      rename_i filled
      obtain ⟨value, image₁⟩ := grown filled
      split
      · exact ⟨moves, nofun⟩
      refine .bind (loaduvm_spec image₁ ?_ ip _ m₁) fun ok m₂ filled => ?_
      · have word : (ProgHdr.parse bs).memsz < 256 ^ 4 := le_lt bs 20 4
        simp only [uint] at wraps value
        omega
      · cases ok with
        | false => exact ⟨moves.trans filled, nofun⟩
        | true =>
          rw [if_pos rfl, ← value]
          refine (ih (uint (off + 32)) image₁ m₂ ((moves.trans filled).nodup nodup)).imp ?_
          rintro r m₃ ⟨rest, result⟩
          exact ⟨(moves.trans filled).trans rest, result⟩

/-- A program of `n` pages, with the guard page and the stack page above it. -/
structure Stacked (d : PgDir) (n : Nat) : Prop where
  sound : d.Sound
  text : ∀ v < n, ∃ f, d.flat v = userPte f
  guard : ∃ f, d.flat n = (userPte f).clear PTE_U
  stack : ∃ f, d.flat (n + 1) = userPte f
  rest : ∀ v < 2 ^ 19, n + 2 ≤ v → d.flat v = .zero
  low : (n + 2) * 4096 ≤ KERNBASE

/-- The whole image is in the clear. -/
theorem Stacked.clear {d : PgDir} {n v : Nat} (stacked : Stacked d n) (half : v < 2 ^ 19) :
    (d.flat v).has PTE_E = false := by
  by_cases text : v < n
  · obtain ⟨f, entry⟩ := stacked.text v text
    rw [entry]
    simp [userPte_has]
  by_cases guard : v = n
  · obtain ⟨f, entry⟩ := stacked.guard
    rw [guard, entry]
    simp [userPte_has]
  by_cases stack : v = n + 1
  · obtain ⟨f, entry⟩ := stacked.stack
    rw [stack, entry]
    simp [userPte_has]
  · rw [stacked.rest v half (by omega)]
    exact Pte.has_zero _

theorem Program.aligned {d : PgDir} {sz : Nat} (program : Program d sz) :
    Program d (pgRoundUp sz) := by
  have low : sz ≤ 2 ^ 31 := program.low
  have round : pgRoundUp sz = (sz + 4095) / 4096 * 4096 := by
    simp only [pgRoundUp, PGSIZE, uint]
    omega
  refine ⟨program.sound, fun v below => program.pages v (by omega),
    fun v half above => program.rest v half (by omega), ?_⟩
  simp only [KERNBASE]
  omega

theorem clearpteu_spec {d : PgDir} {n : Nat} (program : Program d ((n + 2) * 4096)) (m : Phys) :
    Sat (clearpteu d (n * 4096)) m (fun d' m' => m' = m ∧ d'.frames = d.frames ∧
      (∀ v, (d'.flat v).ppn = (d.flat v).ppn) ∧ Stacked d' n) (fun _ _ => False) := by
  have low : (n + 2) * 4096 ≤ 2 ^ 31 := program.low
  have page : vpn (n * 4096) = n := by
    simp only [vpn, PGSIZE]
    omega
  obtain ⟨f, entry⟩ := program.pages n (by omega)
  have mapped : (d.flat (vpn (n * 4096))).mapped = true := by
    rw [page, entry]
    exact userPte_mapped f
  have walk := PgDir.walk_of_mapped mapped
  rw [clearpteu, walk]
  have flat := PgDir.setPte_flat walk ((d.flat (vpn (n * 4096))).clear PTE_U)
  have other : ∀ v, v ≠ n → (d.setPte (n * 4096) ((d.flat (vpn (n * 4096))).clear PTE_U)).flat v =
      d.flat v := by
    intro v ne
    rw [flat, page, update_of_ne ne]
  have here : (d.setPte (n * 4096) ((d.flat (vpn (n * 4096))).clear PTE_U)).flat n =
      (userPte f).clear PTE_U := by
    rw [flat, page, update_self, entry]
  refine ⟨rfl, ?_, fun v => ?_, ⟨fun v => ?_, fun v kernel => ?_⟩, fun v below => ?_, ⟨f, here⟩, ?_,
    fun v half above => ?_, program.low⟩
  · have frames := PgDir.setPte_frames_user walk (by omega)
      ((d.flat (vpn (n * 4096))).clear PTE_U)
    have same : ((d.flat (vpn (n * 4096))).clear PTE_U).frames =
        (d.flat (vpn (n * 4096))).frames := by
      simp [Pte.frames, Pte.mapped]
    rw [same] at frames
    exact add_right_cancel frames
  · by_cases guard : v = n
    · rw [guard, here, entry]
      rfl
    · rw [other v guard]
  · by_cases guard : v = n
    · subst guard
      rw [here]
      exact Or.inr ⟨by simp [userPte_has], by simp [userPte_has]⟩
    · rw [other v guard]
      exact program.sound.tidy v
  · rw [other v (by omega)]
    exact program.sound.guarded v kernel
  · rw [other v (by omega)]
    exact program.pages v (by omega)
  · rw [other (n + 1) (by omega)]
    exact program.pages (n + 1) (by omega)
  · rw [other v (by omega)]
    exact program.rest v half (by omega)

/-- The process after a successful `exec` of a program of `n` pages: the clock is
empty, and of the pages of the program only the first is encrypted, as is the
stack. -/
structure Loaded (t : St) (n : Nat) : Prop where
  sz : t.proc.sz = (n + 2) * 4096
  clock : ∀ k, t.proc.clock k = 0
  head : t.proc.head = 0
  text : ∀ v < n, (t.proc.pgdir.flat v).usable = true ∧
    ((t.proc.pgdir.flat v).has PTE_E = true ↔ v = 0)
  guard : (t.proc.pgdir.flat n).has PTE_U = false
  guarded : (t.proc.pgdir.flat n).mapped = true
  stack : (t.proc.pgdir.flat (n + 1)).has PTE_E = true
  rest : ∀ v < 2 ^ 19, n + 2 ≤ v → t.proc.pgdir.flat v = .zero

theorem usableRange_of {d : PgDir} (n a : Nat) (bound : a + n * 4096 < 2 ^ 32)
    (usable : ∀ j < n, (d.flat (vpn (a + j * 4096))).usable = true) : usableRange d n a = true := by
  induction n generalizing a with
  | zero => rfl
  | succ n ih =>
    have step : uint (a + PGSIZE) = a + 4096 := uint_page (by omega)
    rw [usableRange, Bool.and_eq_true, step]
    refine ⟨by simpa using usable 0 (by omega), ih _ (by omega) fun j hj => ?_⟩
    have next := usable (j + 1) (by omega)
    rwa [Nat.add_mul, Nat.one_mul, Nat.add_comm (j * 4096), ← Nat.add_assoc] at next

section Commitment
variable {s t : St} {d : PgDir} {n : Nat}

theorem tabledRange_of_usable {d : PgDir} {n a : Nat}
    (usable : usableRange d n a = true) : tabledRange d n a = true := by
  induction n generalizing a with
  | zero => rfl
  | succ n ih =>
    rw [usableRange, Bool.and_eq_true] at usable
    have walk := PgDir.walk_of_mapped (Pte.usable_iff.mp usable.1).1
    rw [tabledRange, walk, ih usable.2]
    rfl

theorem Stacked.usable (stacked : Stacked d n) : usableRange d n 0 = true := by
  have low : (n + 2) * 4096 ≤ 2 ^ 31 := stacked.low
  have page : ∀ j, j < n → vpn (0 + j * 4096) = j := by
    intro j hj
    simp only [vpn, PGSIZE]
    omega
  refine usableRange_of n 0 (by omega) fun j hj => ?_
  obtain ⟨f, entry⟩ := stacked.text j hj
  rw [page j hj, entry]
  exact userPte_usable f

/-- Encrypting the text of a fresh program seals its first page only. -/
theorem Stacked.sealed_text (stacked : Stacked d n) (dir : s.proc.pgdir = d) (v : Nat) :
    (s.mencrypted 0 n).proc.pgdir.flat v =
      if v = 0 ∧ 0 < n then (d.flat v).sealed else d.flat v := by
  unfold St.mencrypted
  rw [dir, Int.toNat_natCast, show pgRoundDown 0 = 0 from rfl, if_pos stacked.usable]
  cases n with
  | zero =>
    rw [if_neg (by omega), ← dir]
    rfl
  | succ n =>
    obtain ⟨f, entry⟩ := stacked.text 0 (by omega)
    have first : d.flat (vpn 0) = userPte f := entry
    have clear : (d.flat (vpn 0)).has PTE_E = false := by
      rw [first]
      simp [userPte_has]
    have mapped : (d.flat (vpn 0)).mapped = true := by
      rw [first]
      exact userPte_mapped f
    have flat := PgDir.setPte_flat (PgDir.walk_of_mapped mapped) (d.flat (vpn 0)).sealed
    rw [target, clear]
    simp only [Bool.false_eq_true, if_false, St.encryptPage, dir, flat]
    by_cases here : v = 0
    · subst here
      rw [if_pos ⟨rfl, by omega⟩]
      exact update_self 0 _ _
    · rw [if_neg (by omega)]
      exact update_of_ne here _ _

/-- The two encryptions at the end of `exec`, from a state in which the process
has the new image. -/
theorem Stacked.loaded (stacked : Stacked d n) (dir : s.proc.pgdir = d)
    (size : s.proc.sz = (n + 2) * 4096) (clock : s.proc.clock = fun _ => 0)
    (head : s.proc.head = 0) (sound : s.Sound) :
    Recrypt s ((s.mencrypted 0 n).mencrypted ((n + 1) * 4096) 1) ∧
      Loaded ((s.mencrypted 0 n).mencrypted ((n + 1) * 4096) 1) n := by
  have low : (n + 2) * 4096 ≤ 2 ^ 31 := stacked.low
  have first := Recrypt.mencrypted sound 0 n
  have recrypt := first.trans (.mencrypted (first.sound sound) ((n + 1) * 4096) 1)
  have page : vpn ((n + 1) * 4096) = n + 1 := by
    simp only [vpn, PGSIZE]
    omega
  have text := stacked.sealed_text dir
  obtain ⟨f, entry⟩ := stacked.stack
  have flat : ∀ v, ((s.mencrypted 0 n).mencrypted ((n + 1) * 4096) 1).proc.pgdir.flat v =
      if v = n + 1 then (userPte f).sealed
      else if v = 0 ∧ 0 < n then (d.flat v).sealed else d.flat v := by
    intro v
    have plain : (s.mencrypted 0 n).proc.pgdir.flat (n + 1) = userPte f := by
      rw [text, if_neg (by omega), entry]
    rw [mencrypted_one_flat, page, plain, if_pos ⟨userPte_usable f, by simp [userPte_has]⟩]
    by_cases top : v = n + 1
    · rw [if_pos top, top, update_self]
    · rw [if_neg top, update_of_ne top, text]
  refine ⟨recrypt, recrypt.sz.trans size, fun k => ?_, ?_, fun v below => ?_, ?_, ?_, ?_,
    fun v half above => ?_⟩
  · rw [mencrypted_clock, mencrypted_clock, clock]
  · rw [mencrypted_head, mencrypted_head, head]
  · obtain ⟨g, entry⟩ := stacked.text v below
    rw [flat, if_neg (by omega), entry]
    split
    · rename_i start
      refine ⟨Pte.usable_iff.mpr ⟨by simp [Pte.mapped], by simp [userPte_has]⟩, ?_⟩
      simp [start.1]
    · rename_i later
      refine ⟨userPte_usable g, ?_⟩
      simp only [userPte_has]
      refine ⟨by simp, fun zero => absurd ⟨zero, by omega⟩ later⟩
  · obtain ⟨g, entry⟩ := stacked.guard
    rw [flat, if_neg (by omega), if_neg (by omega), entry]
    simp
  · obtain ⟨g, entry⟩ := stacked.guard
    rw [flat, if_neg (by omega), if_neg (by omega), entry]
    simp [Pte.mapped, userPte_has]
  · rw [flat, if_pos rfl]
    simp
  · rw [flat, if_neg (by omega), if_neg (by omega)]
    exact stacked.rest v half above

/-- The process as `exec` commits it to a new image. -/
def Proc.launched (p : Proc) (d : PgDir) (sz sp entry : Nat) (name : List UInt8) : Proc :=
  { p with
    pgdir := d, sz := sz, eip := entry, esp := sp, name := name, tlb := fun _ => false
    clock := fun _ => 0, head := 0 }

/-- The process in its new image, with the pages encrypted that `exec` encrypts. -/
def St.committed (t : St) (d : PgDir) (n sp entry : Nat) (name : List UInt8) : St :=
  ((⟨t.phys, t.proc.launched d ((n + 2) * 4096) sp entry name⟩ : St).mencrypted 0 n).mencrypted
    ((n + 1) * 4096) 1

/-- The commitment has the tables of all pages that it encrypts, so that only freeing the old
image may stop it. -/
theorem execCommit_through (stacked : Stacked d n) (sp entry : Nat) (name : List UInt8)
    {Q : Unit → St → Prop} {E : Stop → St → Prop}
    (nodup : ((t.phys.freelist : Multiset Nat) + d.frames).Nodup)
    (frees : Sat (onPhys (freevm t.proc.pgdir)) (t.committed d n sp entry name) Q E) :
    Sat (execCommit d ((n + 2) * 4096) sp entry name) t Q E := by
  have low : (n + 2) * 4096 ≤ 2 ^ 31 := stacked.low
  have count : (((n + 2) * 4096 : Nat) : Int) / (PGSIZE : Nat) +
      (if (n + 2) * 4096 % PGSIZE ≠ 0 then 1 else 0) = n + 2 := by
    simp only [PGSIZE]
    split <;> omega
  have text : ((n : Int) + 2 - 2) = n := by omega
  have stack : (((n : Int) + 2 - 1) * (PGSIZE : Nat)).toNat = (n + 1) * 4096 := by
    simp only [PGSIZE]
    omega
  rw [execCommit, sat_bind, sat_get]
  simp only [sat_bind, modifyProc, switchuvm, sat_modify]
  rw [count, text, stack]
  rw [St.committed] at frees
  obtain ⟨s₁, is⟩ : ∃ s₁ : St, s₁ = ⟨t.phys, t.proc.launched d ((n + 2) * 4096) sp entry name⟩ :=
    ⟨_, rfl⟩
  change Sat _ (⟨t.phys, t.proc.launched d ((n + 2) * 4096) sp entry name⟩ : St) _ _
  rw [← is] at frees ⊢
  have dir : s₁.proc.pgdir = d := by rw [is]; rfl
  have sound₁ : s₁.Sound := by
    subst is
    exact ⟨stacked.sound, low, nodup⟩
  refine (mencrypt_spec 0 n s₁).mono ?_ (fun e u failed => ?_)
  · rintro _ _ ⟨_, rfl⟩
    have page : vpn ((n + 1) * 4096) = n + 1 := by
      simp only [vpn, PGSIZE]
      omega
    have mapped : ((s₁.mencrypted 0 n).proc.pgdir.flat (vpn ((n + 1) * 4096))).mapped = true := by
      obtain ⟨f, entry⟩ := stacked.stack
      rw [(Recrypt.mencrypted sound₁ 0 n).dir.mapped, dir, page, entry]
      exact userPte_mapped f
    have table : (walkpgdir (s₁.mencrypted 0 n).proc.pgdir ((n + 1) * 4096)).isSome :=
      Option.isSome_iff_exists.mpr ⟨_, PgDir.walk_of_mapped mapped⟩
    refine (mencrypt_one table).mono ?_ (fun _ _ stop => stop.elim)
    rintro _ _ rfl
    exact frees
  · have missing := failed.2.2
    rw [dir, Int.toNat_natCast, show pgRoundDown 0 = 0 from rfl,
      tabledRange_of_usable stacked.usable] at missing
    cases missing

theorem execCommit_spec (sound : s.Sound) (stacked : Stacked d n) (w : Working s t d.frames)
    (sp entry : Nat) (name : List UInt8) :
    Sat (execCommit d ((n + 2) * 4096) sp entry name) t
      (fun _ u => Settles s u 0 ∧ Loaded u n ∧
        ∀ v < 2 ^ 19, (d.flat v).mapped = true →
          u.plain v = t.phys.bytes (d.flat v).ppn) noExit := by
  have low : (n + 2) * 4096 ≤ 2 ^ 31 := stacked.low
  have nodup : ((t.phys.freelist : Multiset Nat) + d.frames).Nodup :=
    Multiset.nodup_of_le (add_le_add (Multiset.le_add_right _ _) le_rfl) (w.all_nodup sound)
  apply execCommit_through stacked sp entry name nodup
  rw [St.committed]
  obtain ⟨s₁, is⟩ : ∃ s₁ : St, s₁ = ⟨t.phys, t.proc.launched d ((n + 2) * 4096) sp entry name⟩ :=
    ⟨_, rfl⟩
  rw [← is]
  have sound₁ : s₁.Sound := by
    subst is
    exact ⟨stacked.sound, low, nodup⟩
  obtain ⟨recrypt, loaded⟩ := stacked.loaded (s := s₁) (by rw [is]; rfl) (by rw [is]; rfl)
    (by rw [is]; rfl) (by rw [is]; rfl) sound₁
  have start : Moves s.phys s₁.phys s.proc.pgdir.frames
      (t.proc.pgdir.frames + s₁.proc.pgdir.frames) := by
    subst is
    exact w.moves
  rw [onPhys, sat_zoom]
  refine (freevm_spec _ _).imp (fun _ m freed => ?_)
  have swapped := start.trans (recrypt.moves.frame_left t.proc.pgdir.frames)
  refine ⟨⟨?_, recrypt.dir.sound sound₁.dir, loaded.sz.trans_le low⟩, ⟨loaded.sz, loaded.clock,
    loaded.head, loaded.text, loaded.guard, loaded.guarded, loaded.stack, loaded.rest⟩,
    fun v half mapped => ?_⟩
  · have dropped := swapped.trans (freed.frame _)
    rw [zero_add] at dropped
    rw [add_zero]
    exact dropped
  · have entry : s₁.proc.pgdir.flat v = d.flat v := by rw [is]; rfl
    have kept := recrypt.plain v half (by rw [entry]; exact mapped)
    have held := PgDir.mem_frames half (by rw [recrypt.dir.mapped, entry]; exact mapped)
    obtain ⟨_, inner, apart⟩ := Multiset.nodup_add.mp (swapped.nodup sound.nodup)
    have bytes := freed.bytes _ fun member => (Multiset.mem_add.mp member).elim
      (fun free => Multiset.disjoint_left.mp apart free (Multiset.mem_add.mpr (Or.inr held)))
      (fun old => Multiset.disjoint_left.mp (Multiset.nodup_add.mp inner).2.2 old held)
    calc St.plain _ v
        = ((s₁.mencrypted 0 n).mencrypted ((n + 1) * 4096) 1).plain v := by
          simp only [St.plain, bytes]
      _ = s₁.plain v := kept
      _ = t.phys.bytes (d.flat v).ppn := by
          rw [St.plain, entry, stacked.clear half, if_neg (by decide), is]

end Commitment
/-- The pages of the program in a file. -/
def Inode.imagePages (ip : Inode) : Nat :=
  let elf := ElfHdr.parse (ip.data.take 52)
  pgRoundUp (imageSize ip elf.phnum elf.phoff 0) / PGSIZE

/-- What `exec` can return: on failure the process is as it was, up to page
faults, and on success it runs the program. -/
def ExecDone (namei : List UInt8 → Option Inode) (s : St) (path : Nat) (r : Int) (t : St) : Prop :=
  r = -1 ∧ Working s t 0 ∨
  r = 0 ∧ Settles s t 0 ∧ ∃ n ip, s.IsStr path n ∧ namei (s.text path 0 n) = some ip ∧
    Loaded t ip.imagePages

/-- The process ends in `exec`: the frames of a half-built image are lost, and
then one of the strings has a page that makes a fault fatal. -/
def ExecCut (s : St) (strings : List Nat) : Stop → St → Prop := fun e u =>
  e = .exit → ∃ L, Settles s u L ∧
    (L = 0 ∨ ∃ a ∈ strings, ∃ n, s.IsStr a n ∧ ∃ k ≤ n, s.fatal (a + k))

section Exec
variable {s t : St}

/-- `execImage` up to the arguments: the new directory with the program and the two stack pages,
and its size. -/
def execSpace (ip : Inode) (elf : ElfHdr) : M (Option (Nat × PgDir)) := do
  match ← setupkvm with
  | none => return none
  | some d =>
    match ← execLoad ip elf.phnum elf.phoff 0 d with
    | (none, d) =>
      freevm d
      return none
    | (some sz, d) =>
      let sz := pgRoundUp sz
      let (sz, d) ← allocuvm d sz (uint (sz + 2 * PGSIZE))
      if sz = 0 then
        freevm d
        return none
      else return some (sz, ← clearpteu d (sz - 2 * PGSIZE))

/-- `execImage` from the arguments on. -/
def execRest [NullPte] (d : PgDir) (sz entry path : Nat) (argv : List Nat) : K Int := do
  match ← execStack d sz path argv with
  | none =>
    onPhys (freevm d)
    return -1
  | some (sp, name) =>
    execCommit d sz sp entry name
    return 0

theorem execImage_eq [NullPte] (ip : Inode) (elf : ElfHdr) (path : Nat) (argv : List Nat) :
    execImage ip elf path argv = (do
      match ← onPhys (execSpace ip elf) with
      | none => return -1
      | some (sz, d) => execRest d sz elf.entry path argv) := by
  refine eq_of_sat fun t Q E => ?_
  rw [execImage, execSpace]
  simp only [sat_bind, onPhys, sat_zoom]
  refine sat_congr (fun r m => ?_) fun _ _ => Iff.rfl
  cases r with
  | none => exact Iff.rfl
  | some d =>
    simp only [sat_bind, sat_zoom]
    refine sat_congr (fun r m => ?_) fun _ _ => Iff.rfl
    obtain ⟨size, d⟩ := r
    cases size with
    | none => simp only [sat_bind, sat_zoom, sat_pure]
    | some size =>
      simp only [sat_bind, sat_zoom]
      refine sat_congr (fun r m => ?_) fun _ _ => Iff.rfl
      split
      · simp only [sat_bind, sat_zoom, sat_pure]
      · simp only [sat_bind, sat_zoom, sat_pure, execRest]
        exact Iff.rfl

theorem execSpace_spec {ip : Inode} {elf : ElfHdr} (header : elf = ElfHdr.parse (ip.data.take 52))
    {m : Phys} (nodup : m.freelist.Nodup) :
    Sat (execSpace ip elf) m (fun r m' => (r = none → Moves m m' 0 0) ∧ ∀ sz d, r = some (sz, d) →
      Moves m m' 0 d.frames ∧ sz = (ip.imagePages + 2) * 4096 ∧ Stacked d ip.imagePages) noExit := by
  have start : ((m.freelist : Multiset Nat) + 0).Nodup := by rwa [add_zero, Multiset.coe_nodup]
  -- Every way to `bad` frees the new directory.
  have bad : ∀ (d : PgDir) (m₁ : Phys), Moves m m₁ 0 d.frames →
      Sat (do freevm d; return (none : Option (Nat × PgDir))) m₁
        (fun r m' => (r = none → Moves m m' 0 0) ∧ ∀ sz d, r = some (sz, d) →
          Moves m m' 0 d.frames ∧ sz = (ip.imagePages + 2) * 4096 ∧ Stacked d ip.imagePages) noExit := by
    intro d m₁ moves
    exact .bind (freevm_spec d m₁) fun _ _ freed => ⟨fun _ => moves.trans freed, by simp⟩
  rw [execSpace]
  refine .bind (setupkvm_spec m) fun r m₁ built => ?_
  cases r with
  | none => exact ⟨fun _ => built, by simp⟩
  | some d =>
    obtain ⟨taken, blank⟩ := built
    dsimp only
    refine .bind (execLoad_spec ip elf.phnum elf.phoff blank.image m₁ (taken.nodup start)) ?_
    rintro ⟨size, d₁⟩ m₂ ⟨moves, loaded⟩
    have moves := taken.trans moves
    cases size with
    | none => exact bad d₁ m₂ moves
    | some size =>
      have value := (loaded size rfl).1
      have pages : pgRoundUp size = ip.imagePages * 4096 := by
        rw [value, header, Inode.imagePages]
        simp only [pgRoundUp, PGSIZE]
        omega
      have program := (loaded size rfl).2.aligned
      rw [pages] at program
      have low : ip.imagePages * 4096 ≤ 2 ^ 31 := program.low
      have top : uint (ip.imagePages * 4096 + 2 * PGSIZE) = (ip.imagePages + 2) * 4096 := by
        simp only [uint, PGSIZE]
        omega
      dsimp only
      rw [pages, top]
      refine .bind (allocuvm_image program _ m₂ (moves.nodup start)) ?_
      rintro ⟨sz, d₂⟩ m₃ ⟨more, grown⟩
      have moves := moves.trans more
      dsimp only at grown ⊢
      split
      · exact bad d₂ m₃ moves
      · rename_i filled
        obtain ⟨value, program⟩ := grown filled
        rw [max_eq_right (by omega)] at value
        subst value
        have base : (ip.imagePages + 2) * 4096 - 2 * PGSIZE = ip.imagePages * 4096 := by
          simp only [PGSIZE]
          omega
        rw [base]
        refine .seq (clearpteu_spec program m₃) ?_ (fun _ _ stop => stop.elim)
        rintro d₃ _ ⟨rfl, frames, _, stacked⟩
        refine ⟨by simp, ?_⟩
        rintro sz d ⟨⟩
        exact ⟨frames ▸ moves, rfl, stacked⟩

theorem execImage_spec (sound : s.Sound) {ip : Inode} {elf : ElfHdr} {path n : Nat} {argv : List Nat}
    (args : ∀ arg ∈ path :: argv, ∃ n, s.IsStr arg n) (w : Working s t 0)
    (namei : List UInt8 → Option Inode) (str : s.IsStr path n)
    (found : namei (s.text path 0 n) = some ip)
    (header : elf = ElfHdr.parse (ip.data.take 52)) :
    Sat (execImage ip elf path argv) t (ExecDone namei s path) (ExecCut s (path :: argv)) := by
  have quiet : ∀ e (u : St), e ≠ .exit → ExecCut s (path :: argv) e u :=
    fun e u other is => absurd is other
  rw [execImage_eq, sat_bind, onPhys, sat_zoom]
  refine (execSpace_spec header (w.sound sound).free).mono (fun r m built => ?_)
    (fun e _ stop => quiet e _ stop)
  cases r with
  | none => exact Or.inl ⟨rfl, w.phys sound (built.1 rfl)⟩
  | some out =>
    obtain ⟨sz, d⟩ := out
    obtain ⟨moves, rfl, stacked⟩ := built.2 sz d rfl
    dsimp only
    rw [execRest]
    refine .bind (execStack_spec (E := ExecCut s (path :: argv)) sound stacked.sound quiet _ path argv
      args (fun arg member k str e u cut is => ?_) (w.phys sound moves)) fun r u w => ?_
    · obtain ⟨fatal, settles⟩ := cut is
      exact ⟨_, settles, Or.inr ⟨arg, member, k, str, fatal⟩⟩
    · cases r with
      | none =>
        dsimp only
        rw [sat_bind, onPhys, sat_zoom]
        refine (freevm_spec d u.phys).mono (fun _ m freed => ?_) (fun e _ stop => quiet e _ stop)
        exact Or.inl ⟨rfl, w.phys sound freed⟩
      | some out =>
        obtain ⟨sp, name⟩ := out
        dsimp only
        refine .seq (execCommit_spec sound stacked w sp elf.entry name) ?_
          (fun e _ stop => quiet e _ stop)
        rintro _ v ⟨settles, loaded, _⟩
        exact Or.inr ⟨rfl, settles, n, ip, str, found, loaded⟩

/-- The file starts with the header of an executable. -/
structure Inode.Executable (ip : Inode) : Prop where
  whole : 52 ≤ ip.data.length
  magic : (ElfHdr.parse (ip.data.take 52)).magic = ELF_MAGIC

/-- `exec` up to the header of the file, with an invariant `W` that reading the path keeps. It
fails with the invariant, or it goes on with the header of the file that the path names. -/
theorem exec_through [NullPte] (sound : s.Sound) {namei : List UInt8 → Option Inode} {path n : Nat}
    {argv : List Nat} {W : St → Prop} {Q : Int → St → Prop} {E : Stop → St → Prop}
    (str : s.IsStr path n) (reads : Reads s W E path n)
    (start : W { t with proc := { t.proc with head := 0 } })
    (refused : ∀ u, W u → (∀ ip, namei (s.text path 0 n) = some ip → ¬ ip.Executable) → Q (-1) u)
    (next : ∀ u ip, W u → namei (s.text path 0 n) = some ip → ip.Executable →
      Sat (execImage ip (ElfHdr.parse (ip.data.take 52)) path argv) u Q E) :
    Sat (exec namei path argv) t Q E := by
  have size : s.proc.sz ≤ 2 ^ 31 := sound.size
  have below := str.below
  rw [exec, sat_bind, modifyProc, sat_modify]
  refine .bind (reads.loadStr str _ (Nat.zero_le n) (Or.inl (by omega)) start) ?_
  rintro bs u ⟨rfl, w⟩
  cases found : namei (s.text path 0 n) with
  | none =>
    refine refused u w fun ip is => ?_
    rw [found] at is
    cases is
  | some ip =>
    have read : readi ip 0 52 = some (ip.data.take 52) := by
      rw [readi, if_neg (by simp only [uint]; omega), List.drop_zero]
    dsimp only
    rw [read]
    dsimp only
    have only : ∀ other, namei (s.text path 0 n) = some other → other = ip := by
      intro other is
      rw [found] at is
      exact (Option.some.inj is).symm
    split
    · rename_i short
      refine refused u w fun other is run => short ?_
      have whole := run.whole
      rw [only other is] at whole
      rw [List.length_take]
      omega
    · rename_i whole
      split
      · rename_i other
        refine refused u w fun found is run => other ?_
        have magic := run.magic
        rwa [only found is] at magic
      · rename_i magic
        rw [not_not, List.length_take] at whole
        exact next u ip w found ⟨by omega, not_not.mp magic⟩

theorem exec_spec (sound : s.Sound) (namei : List UInt8 → Option Inode) {path : Nat}
    {argv : List Nat} (args : ∀ arg ∈ path :: argv, ∃ n, s.IsStr arg n) (w : Working s t 0) :
    Sat (exec namei path argv) t (ExecDone namei s path) (ExecCut s (path :: argv)) := by
  obtain ⟨n, str⟩ := args path List.mem_cons_self
  refine exec_through sound str (W := fun u => Working s u 0) (fun k inside u w => ?_) w.rewind
    (fun u w _ => Or.inl ⟨rfl, w⟩)
    (fun u ip w found _ => execImage_spec sound args w namei str found rfl)
  exact (load_str sound str w inside).mono (fun _ _ done => done)
    (fun _ _ cut is => ⟨0, (cut is).2, Or.inl rfl⟩)

/-- No string that `sys_exec` hands on has a page that makes a fault fatal. -/
def St.execSafe (s : St) (path uargv : Nat) : Prop :=
  ∀ a, a = path ∨ s.passes uargv a → ∀ n, s.IsStr a n → ∀ k ≤ n, ¬ s.fatal (a + k)

theorem sysExec_spec (sound : s.Sound) (namei : List UInt8 → Option Inode) (path uargv : Nat) :
    Sat (sysExec namei path uargv) s (ExecDone namei s path)
      (fun e u => e = .exit → ∃ L, Settles s u L ∧ (s.execSafe path uargv → L = 0)) := by
  have early : ∀ e u, CutEarly s e u →
      e = .exit → ∃ L, Settles s u L ∧ (s.execSafe path uargv → L = 0) :=
    fun e u cut is => ⟨0, cut is, fun _ => rfl⟩
  have failed : ∀ {u : St}, Working s u 0 → ExecDone namei s path (-1) u := fun w => Or.inl ⟨rfl, w⟩
  rw [sysExec]
  refine .seq (fetchstr_spec sound path (.refl s)) ?_ early
  rintro ok t ⟨w, str⟩
  cases ok with
  | false => exact failed w
  | true =>
    rw [if_pos rfl]
    refine .seq (fetchArgs_spec sound uargv MAXARG 0 (by simp) (fun j hj => by omega) w) ?_ early
    rintro r u ⟨w, args⟩
    cases r with
    | none => exact failed w
    | some argv =>
      have strings : ∀ arg ∈ path :: argv, ∃ n, s.IsStr arg n := by
        intro arg member
        obtain rfl | member := List.mem_cons.mp member
        · exact str rfl
        · exact (args argv rfl arg member).1
      refine (exec_spec sound namei strings w).mono (fun _ _ done => done) ?_
      intro e v cut is
      obtain ⟨L, settles, why⟩ := cut is
      refine ⟨L, settles, fun safe => ?_⟩
      obtain none | ⟨a, member, n, string, k, inside, fatal⟩ := why
      · exact none
      · refine absurd fatal (safe a ?_ n string k inside)
        obtain rfl | member := List.mem_cons.mp member
        · exact Or.inl rfl
        · exact Or.inr (args argv rfl a member).2

end Exec
end Xv6
