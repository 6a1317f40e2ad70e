import Xv6.Clock
import Xv6.ExecReturns
import Xv6.Lib.Writes
import Xv6.Transparency

/-! What `exec` leaves in memory: the segments of the file, zeros around them, and the
argument strings and words at the top. The contents of the new image are followed
from the empty page directory to the commitment, while page faults of the old image
go on beside it. -/
namespace Xv6
open PteBit Control Writes
open Function (update update_of_ne update_self)

/-- Page `v` of a memory image. -/
def imagePage (img : Nat → UInt8) (v : Nat) : Page := fun k => img (v * 4096 + k.val)

theorem imagePage_splice (img : Nat → UInt8) (bs : List UInt8) (u : Nat) :
    imagePage (splice img (u * 4096) bs) u = fun k => bs.getD k.val (imagePage img u k) := by
  funext k
  unfold imagePage
  by_cases inside : k.val < bs.length
  · rw [splice_inside _ _ (by omega) (img (u * 4096 + k.val)) (by omega), Nat.add_sub_cancel_left]
  · rw [splice_outside _ _ (by omega), List.getD_eq_default _ _ (by omega)]

theorem imagePage_splice_of_ne {img : Nat → UInt8} {bs : List UInt8} {u v : Nat}
    (fits : bs.length ≤ 4096) (other : v ≠ u) :
    imagePage (splice img (u * 4096) bs) v = imagePage img v := by
  funext k
  have := k.isLt
  exact splice_outside _ _ (by omega)

theorem imagePage_update (img : Nat → UInt8) (x : Nat) (b : UInt8) :
    imagePage (update img x b) (x / 4096) =
      update (imagePage img (x / 4096)) (slot x) b := by
  funext k
  unfold imagePage
  by_cases here : k = slot x
  · have same : x / 4096 * 4096 + k.val = x := by
      rw [here]
      simp only [slot]
      omega
    rw [same, here, update_self, update_self]
  · have other : x / 4096 * 4096 + k.val ≠ x := by
      intro same
      apply here
      apply Fin.ext
      simp only [slot]
      omega
    rw [update_of_ne other, update_of_ne here]

theorem imagePage_update_of_ne (img : Nat → UInt8) {x v : Nat} (b : UInt8) (other : v ≠ x / 4096) :
    imagePage (update img x b) v = imagePage img v := by
  funext k
  have := k.isLt
  exact update_of_ne (by omega) _ _

/-- The pages below `sz` hold the image, and it is zero above them. -/
structure Holds (m : Phys) (d : PgDir) (sz : Nat) (img : Nat → UInt8) : Prop where
  pages : ∀ v, v * 4096 < sz → m.bytes (d.flat v).ppn = imagePage img v
  above : ∀ v, sz ≤ v * 4096 → imagePage img v = Page.fill 0

/-- The pages below `sz` have frames of their own. -/
def PgDir.Distinct (d : PgDir) (sz : Nat) : Prop :=
  ∀ u v, u * 4096 < sz → v * 4096 < sz → (d.flat u).ppn = (d.flat v).ppn → u = v

section Holds
variable {m m' : Phys} {d d' : PgDir} {sz u : Nat} {img img' : Nat → UInt8}

theorem Holds.write (holds : Holds m d sz img) (distinct : d.Distinct sz) (low : u * 4096 < sz)
    (rest : ∀ v, v ≠ u → imagePage img' v = imagePage img v) :
    Holds (m.write (d.flat u).ppn (imagePage img' u)) d sz img' := by
  constructor
  · intro v below
    by_cases here : v = u
    · rw [here]
      exact update_self _ _ _
    · have other : (d.flat v).ppn ≠ (d.flat u).ppn := fun same => here (distinct v u below low same)
      calc (m.write (d.flat u).ppn (imagePage img' u)).bytes (d.flat v).ppn
          = m.bytes (d.flat v).ppn := update_of_ne other _ _
        _ = imagePage img v := holds.pages v below
        _ = imagePage img' v := (rest v here).symm
  · intro v above
    rw [rest v (by rintro rfl; omega)]
    exact holds.above v above

theorem Holds.blit (holds : Holds m d sz img) (distinct : d.Distinct sz) (low : u * 4096 < sz)
    {bs : List UInt8} (fits : bs.length ≤ 4096) :
    Holds (m.blit (d.flat u).ppn bs) d sz (splice img (u * 4096) bs) := by
  have page := imagePage_splice img bs u
  rw [← holds.pages u low] at page
  rw [Phys.blit, ← page]
  exact holds.write distinct low fun v other => imagePage_splice_of_ne fits other

theorem Holds.poke (holds : Holds m d sz img) (distinct : d.Distinct sz) {x : Nat}
    (low : x / 4096 * 4096 < sz) (b : UInt8) :
    Holds (m.poke (d.flat (x / 4096)).ppn x b) d sz (update img x b) := by
  have page := imagePage_update img x b
  rw [← holds.pages _ low] at page
  rw [Phys.poke, ← page]
  exact holds.write distinct low fun v other => imagePage_update_of_ne img b other

theorem Holds.kept (holds : Holds m d sz img)
    (bytes : ∀ v, v * 4096 < sz → m'.bytes (d.flat v).ppn = m.bytes (d.flat v).ppn) :
    Holds m' d sz img :=
  ⟨fun v below => (bytes v below).trans (holds.pages v below), holds.above⟩

end Holds

section Load
variable {m : Phys} {d : PgDir} {sz : Nat} {img : Nat → UInt8}

theorem Program.distinct (program : Program d sz) (nodup : d.frames.Nodup) : d.Distinct sz := by
  intro u v hu hv same
  obtain ⟨halfu, mappedu, _⟩ := program.held hu
  obtain ⟨halfv, mappedv, _⟩ := program.held hv
  exact PgDir.page_unique nodup halfu halfv mappedu mappedv same

theorem userPte_ppn (f : Nat) : (userPte f).ppn = f := by
  rw [userPte, mkPte_ppn]
  exact Nat.mul_div_cancel f (by decide)

/-- The program grows by pages of zeros. -/
theorem allocuvm_holds (holds : Holds m d sz img) (program : Program d sz) (newsz : Nat)
    (nodup : ((m.freelist : Multiset Nat) + d.frames).Nodup) :
    Sat (allocuvm d sz newsz) m (fun r m' => r.1 ≠ 0 → Holds m' r.2 r.1 img) noExit := by
  obtain ⟨free, _, apart⟩ := Multiset.nodup_add.mp nodup
  have low : sz ≤ 2 ^ 31 := program.low
  by_cases grows : sz ≤ newsz
  · refine (allocuvm_spec d sz newsz m (Multiset.coe_nodup.mp free) grows).imp ?_
    rintro ⟨r, d'⟩ m' (⟨rfl, user, grown⟩ | ⟨rfl, _⟩)
    · intro _
      refine ⟨fun v below => ?_, fun v above => holds.above v (by omega)⟩
      by_cases old : v * 4096 < sz
      · have round := le_pgRoundUp low
        rw [grown.same v (by omega), ← holds.pages v old]
        refine grown.gains.bytes fun member => ?_
        exact Multiset.disjoint_left.mp apart (Multiset.mem_coe.mpr member) (program.held old).2.2
      · have size : r < 2 ^ 31 := user
        obtain ⟨_, f, _, entry, zero⟩ := grown.fresh v
          (by simp only [pgRoundUp, PGSIZE, uint]; omega)
          (by simp only [pgRoundUp, PGSIZE, uint]; omega)
        rw [entry, userPte_ppn, zero, holds.above v (by omega)]
    · exact fun filled => absurd rfl filled
  · rw [allocuvm]
    split
    · exact fun filled => absurd rfl filled
    · rw [if_pos (by omega)]
      exact fun _ => holds

/-- The bytes of a file from `off` on; the offset is a `uint`. -/
def Inode.segment (ip : Inode) (off n : Nat) : List UInt8 :=
  (List.range n).map fun j => ip.data.getD (uint (off + j)) 0

theorem Inode.segment_append (ip : Inode) (off n k : Nat) :
    ip.segment off (n + k) = ip.segment off n ++ ip.segment (off + n) k := by
  simp only [segment, List.range_add, List.map_append, List.map_map, Function.comp_def,
    Nat.add_assoc]

theorem readi_segment {ip : Inode} {off n : Nat} {bs : List UInt8} (small : n < 2 ^ 32)
    (read : readi ip (uint off) n = some bs) (whole : bs.length = n) : bs = ip.segment off n := by
  rw [readi] at read
  split at read
  · cases read
  · rename_i inside
    cases read
    rw [List.length_take, List.length_drop] at whole
    simp only [uint] at inside whole
    apply List.ext_getElem
    · simp only [List.length_take, List.length_drop, Inode.segment, List.length_map,
        List.length_range, uint]
      exact whole
    · intro j hj hj'
      simp only [Inode.segment, List.length_map, List.length_range] at hj'
      have index : uint (off + j) = off % 2 ^ 32 + j := by
        simp only [uint]
        omega
      simp only [List.getElem_take, List.getElem_drop, Inode.segment, List.getElem_map,
        List.getElem_range, index]
      rw [List.getD_eq_getElem _ _ (by omega)]
      rfl

theorem loaduvmLoop_holds {addr size : Nat} (program : Program d size) (nodup : d.frames.Nodup)
    (inside : addr + sz ≤ size) (aligned : addr % 4096 = 0) (ip : Inode) (off k i : Nat)
    (page : i % 4096 = 0) (enough : sz ≤ i + k * 4096) (last : k = 0 ∨ i + k * 4096 < sz + 4096)
    (holds : Holds m d size img) :
    Sat (loaduvmLoop d addr ip off sz k i) m (fun ok m' => ok = true →
      Holds m' d size (splice img (addr + i) (ip.segment (off + i) (sz - i)))) noExit := by
  have low : size ≤ 2 ^ 31 := program.low
  induction k generalizing i m img with
  | zero =>
    intro _
    have done : sz - i = 0 := by omega
    rw [done]
    exact holds
  | succ k ih =>
    have address : uint (addr + i) = addr + i := by
      simp only [uint]
      omega
    have start : vpn (addr + i) = (addr + i) / 4096 ∧ (addr + i) / 4096 * 4096 = addr + i := by
      simp only [vpn, PGSIZE]
      omega
    have here : (addr + i) / 4096 * 4096 < size := by omega
    obtain ⟨_, mapped, _⟩ := program.held here
    rw [← start.1] at mapped
    rw [loaduvmLoop, address, PgDir.walk_of_mapped mapped, start.1]
    dsimp only
    cases read : readi ip (uint (off + i)) (min (sz - i) PGSIZE) with
    | none => rintro ⟨⟩
    | some bs =>
      dsimp only
      rw [sat_bind, sat_modify]
      split
      · rintro ⟨⟩
      · rename_i whole
        rw [ne_eq, not_not] at whole
        have chunk := readi_segment (by simp only [PGSIZE]; omega) read whole
        have fits : bs.length ≤ 4096 := by
          rw [whole]
          exact Nat.min_le_right _ _
        have blit := holds.blit (program.distinct nodup) here fits
        rw [start.2] at blit
        have next : i + PGSIZE = i + 4096 := rfl
        rw [next]
        refine (ih (i + 4096) (by omega) (by omega) (by omega) blit).imp (fun ok m' rest => ?_)
        intro done
        have rest := rest done
        by_cases more : sz - i ≤ 4096
        · have none : sz - (i + 4096) = 0 := by omega
          rw [none, chunk, Nat.min_eq_left more] at rest
          exact rest
        · have count : sz - i = 4096 + (sz - (i + 4096)) := by omega
          have size : bs.length = 4096 := by rw [whole]; exact Nat.min_eq_right (by omega)
          have bytes : bs = ip.segment (off + i) 4096 := by
            rw [chunk, Nat.min_eq_right (by omega)]
          rw [count, Inode.segment_append, splice_append, ← bytes, size, Nat.add_assoc, Nat.add_assoc]
          exact rest

theorem loaduvm_holds {addr size : Nat} (program : Program d size) (nodup : d.frames.Nodup)
    (inside : addr + sz ≤ size) (ip : Inode) (off : Nat) (holds : Holds m d size img) :
    Sat (loaduvm d addr ip off sz) m (fun ok m' => ok = true →
      Holds m' d size (splice img addr (ip.segment off sz))) noExit := by
  rw [loaduvm]
  split
  · exact sat_panic _ _ _
  · rename_i aligned
    have aligned : addr % 4096 = 0 := not_not.mp aligned
    have loop := loaduvmLoop_holds program nodup inside aligned ip off ((sz + PGSIZE - 1) / PGSIZE) 0
      rfl (by simp only [PGSIZE]; omega) (by simp only [PGSIZE]; omega) holds
    exact loop

/-- The memory image after the segments of the program headers that follow. -/
def imageBytes (ip : Inode) : Nat → Nat → (Nat → UInt8) → Nat → UInt8
  | 0, _, img => img
  | n + 1, off, img =>
    match readi ip off 32 with
    | none => img
    | some bs =>
      let ph := ProgHdr.parse bs
      if ph.type ≠ ELF_PROG_LOAD then imageBytes ip n (uint (off + 32)) img
      else imageBytes ip n (uint (off + 32)) (splice img ph.vaddr (ip.segment ph.off ph.filesz))

theorem execLoad_holds (ip : Inode) (n off : Nat) (holds : Holds m d sz img) (program : Program d sz)
    (nodup : ((m.freelist : Multiset Nat) + d.frames).Nodup) :
    Sat (execLoad ip n off sz d) m (fun r m' => ∀ size, r.1 = some size →
      Holds m' r.2 size (imageBytes ip n off img)) noExit := by
  induction n generalizing off sz d m img with
  | zero =>
    intro size is
    cases is
    exact holds
  | succ n ih =>
    have failed : ∀ (d : PgDir) (m : Phys) size, (none, d).1 = some size →
        Holds m d size (imageBytes ip (n + 1) off img) := fun d m size is => by cases is
    rw [execLoad]
    cases read : readi ip off 32 with
    | none => exact failed _ _
    | some bs =>
      have unfolded : imageBytes ip (n + 1) off img = if (ProgHdr.parse bs).type ≠ ELF_PROG_LOAD then
          imageBytes ip n (uint (off + 32)) img else imageBytes ip n (uint (off + 32))
            (splice img (ProgHdr.parse bs).vaddr
              (ip.segment (ProgHdr.parse bs).off (ProgHdr.parse bs).filesz)) := by
        rw [imageBytes, read]
      dsimp only
      split
      · exact failed _ _
      split
      · rename_i other
        rw [unfolded, if_pos other]
        exact ih (uint (off + 32)) holds program nodup
      rename_i load
      split
      · exact failed _ _
      split
      · exact failed _ _
      rename_i whole wraps
      refine .seq ((allocuvm_image program _ m nodup).and (allocuvm_holds holds program _ nodup)) ?_
        (fun _ _ stop => stop.1)
      rintro ⟨size, d₁⟩ m₁ ⟨⟨moves, grown⟩, zeroed⟩
      dsimp only at moves grown zeroed ⊢
      split
      · exact failed _ _
      rename_i filled
      obtain ⟨value, program₁⟩ := grown filled
      split
      · exact failed _ _
      have nodup₁ := moves.nodup nodup
      have inside : (ProgHdr.parse bs).vaddr + (ProgHdr.parse bs).filesz ≤ size := by
        have word : (ProgHdr.parse bs).memsz < 256 ^ 4 := le_lt bs 20 4
        simp only [uint] at wraps value
        omega
      refine .seq ((loaduvm_spec program₁ inside ip _ m₁).and (loaduvm_holds program₁
        (Multiset.nodup_add.mp nodup₁).2.1 inside ip _ (zeroed filled))) ?_
        (fun _ _ stop => stop.1)
      rintro ok m₂ ⟨written, loaded⟩
      cases ok with
      | false => exact failed _ _
      | true =>
        rw [if_pos rfl, unfolded, if_neg load]
        exact ih (uint (off + 32)) (loaded rfl) program₁ (written.nodup nodup₁)

end Load

/-- The frames `X`, with the contents `B`, lie beside the memory of the process. -/
structure Beside (X : Multiset Nat) (B : Nat → Page) (t : St) : Prop where
  sound : t.Sound
  apart : ∀ f ∈ X, f ∉ (t.phys.freelist : Multiset Nat) + t.proc.pgdir.frames
  bytes : ∀ f ∈ X, t.phys.bytes f = B f

section Beside
variable {X : Multiset Nat} {B : Nat → Page} {t u : St}

theorem Beside.recrypt (beside : Beside X B t) (recrypt : Recrypt t u) : Beside X B u := by
  refine ⟨recrypt.sound beside.sound, fun f held => ?_, fun f held => ?_⟩
  · rw [recrypt.moves.sum]
    exact beside.apart f held
  · rw [recrypt.moves.bytes f (beside.apart f held)]
    exact beside.bytes f held

theorem load_beside (beside : Beside X B t) (user : Bool) (a : Nat) :
    Sat (load user a) t (fun _ u => Beside X B u) (fun _ _ => True) := by
  rw [load]
  exact .seq (access_recrypt beside.sound user a) (fun f u done => beside.recrypt done.1)
    (fun _ _ _ => trivial)

end Beside

/-- While the kernel works for the process of `s`, the directory `d` of a program of
`n` pages holds the image. -/
structure Filling (s t : St) (d : PgDir) (n : Nat) (img : Nat → UInt8) : Prop where
  work : Working s t d.frames
  holds : Holds t.phys d ((n + 2) * 4096) img

section Stack
variable {s t u : St} {d : PgDir} {n : Nat} {img : Nat → UInt8}

theorem Stacked.held (stacked : Stacked d n) {v : Nat} (below : v * 4096 < (n + 2) * 4096) :
    v < 2 ^ 19 ∧ (d.flat v).mapped = true ∧ (d.flat v).ppn ∈ d.frames := by
  have low : (n + 2) * 4096 ≤ 2 ^ 31 := stacked.low
  have mapped : (d.flat v).mapped = true := by
    by_cases text : v < n
    · obtain ⟨f, entry⟩ := stacked.text v text
      rw [entry]
      exact userPte_mapped f
    by_cases guard : v = n
    · obtain ⟨f, entry⟩ := stacked.guard
      rw [guard, entry]
      simp [Pte.mapped, userPte_has]
    · obtain ⟨f, entry⟩ := stacked.stack
      rw [show v = n + 1 by omega, entry]
      exact userPte_mapped f
  exact ⟨by omega, mapped, PgDir.mem_frames (by omega) mapped⟩

theorem Stacked.distinct (stacked : Stacked d n) (nodup : d.frames.Nodup) :
    d.Distinct ((n + 2) * 4096) := by
  intro u v hu hv same
  obtain ⟨halfu, mappedu, _⟩ := stacked.held hu
  obtain ⟨halfv, mappedv, _⟩ := stacked.held hv
  exact PgDir.page_unique nodup halfu halfv mappedu mappedv same

namespace Filling

theorem nodup (fill : Filling s t d n img) (sound : s.Sound) : d.frames.Nodup :=
  (Multiset.nodup_add.mp (fill.work.all_nodup sound)).2.1

theorem beside (fill : Filling s t d n img) (sound : s.Sound) :
    Beside d.frames t.phys.bytes t := by
  refine ⟨fill.work.sound sound, fun f held taken => ?_, fun _ _ => rfl⟩
  exact Multiset.disjoint_left.mp (Multiset.nodup_add.mp (fill.work.all_nodup sound)).2.2 taken held

/-- The kernel has read from the old image. -/
theorem next (fill : Filling s t d n img) (stacked : Stacked d n) (work : Working s u d.frames)
    (beside : Beside d.frames t.phys.bytes u) : Filling s u d n img :=
  ⟨work, fill.holds.kept fun _ below => beside.bytes _ (stacked.held below).2.2⟩

/-- The kernel puts a byte into the new image. -/
theorem poke (fill : Filling s t d n img) (sound : s.Sound) (stacked : Stacked d n) {x : Nat}
    (low : x / 4096 * 4096 < (n + 2) * 4096) (b : UInt8) :
    Filling s { t with phys := t.phys.poke (d.flat (x / 4096)).ppn x b } d n
      (update img x b) :=
  ⟨fill.work.phys sound (poke_moves t.phys (stacked.held low).2.2 x b),
    fill.holds.poke (stacked.distinct (fill.nodup sound)) low b⟩

end Filling

theorem load_filling (sound : s.Sound) (stacked : Stacked d n) {a len k : Nat}
    (str : s.IsStr a len) (inside : k ≤ len) (fill : Filling s t d n img) :
    Sat (load false (uint (a + k))) t (fun b u => b = s.peek (a + k) ∧ Filling s u d n img)
      (fun _ _ => True) :=
  ((load_str sound str fill.work inside).and (load_beside (fill.beside sound) false _)).mono
    (fun _ _ done => ⟨done.1.1, fill.next stacked done.1.2 done.2⟩) (fun _ _ _ => trivial)

/-- Of the image only the program and the stack page are usable. -/
theorem Stacked.usable_page (stacked : Stacked d n) {v : Nat} (inside : v < 2 ^ 20)
    (usable : (d.flat v).usable = true) : v < n ∨ v = n + 1 := by
  obtain ⟨mapped, user⟩ := Pte.usable_iff.mp usable
  have half : v < 2 ^ 19 := by
    by_contra kernel
    rw [stacked.sound.guarded v (by omega)] at user
    cases user
  by_contra other
  by_cases guard : v = n
  · obtain ⟨f, entry⟩ := stacked.guard
    rw [guard, entry] at user
    simp at user
  · rw [stacked.rest v half (by omega), Pte.zero_mapped] at mapped
    cases mapped

theorem Follows.filling (sound : s.Sound) (stacked : Stacked d n) {R : Nat → Prop} :
    Follows (fun img t => Filling s t d n img) d R := by
  intro img t x b _ word usable fill
  have page := stacked.usable_page (by omega) usable
  exact fill.poke sound stacked (by omega) b

theorem execStack_filling (sound : s.Sound) (stacked : Stacked d n) (sz : Nat) {path len : Nat}
    (name : s.IsStr path len) {argv : List Nat} {strs : List (List UInt8)}
    (spells : List.Forall₂ s.Spells argv strs) (fill : Filling s t d n img) :
    Sat (execStack d sz path argv) t (StackBuilt (fun img t => Filling s t d n img) d strs sz img)
      (fun _ _ => True) :=
  execStack_keeps img sound stacked.sound (.filling sound stacked) name spells
    (fun _ _ _ str _ _ inside _ fill => load_filling sound stacked str inside fill) sz
    (fun _ _ _ _ => trivial) fill

end Stack

/-- The segments of the program in a file, with zeros around them. -/
def Inode.program (ip : Inode) : Nat → UInt8 :=
  let elf := ElfHdr.parse (ip.data.take 52)
  imageBytes ip elf.phnum elf.phoff fun _ => 0

/-- The memory a program starts with. -/
def Inode.memory (ip : Inode) (strs : List (List UInt8)) : Nat → UInt8 :=
  stackBytes strs ((ip.imagePages + 2) * 4096) ip.program

/-- The process has been given the program of the file, and its plaintext is the memory
the program starts with. -/
structure Runs (t : St) (ip : Inode) (strs : List (List UInt8)) : Prop where
  dir : t.proc.pgdir.Sound
  size : t.proc.sz ≤ KERNBASE
  loaded : Loaded t ip.imagePages
  plain : ∀ v < ip.imagePages + 2, t.plain v = imagePage (ip.memory strs) v

section Exec
variable {s t : St}

/-- The new directory holds the program below an empty stack. -/
theorem execSpace_holds {ip : Inode} {elf : ElfHdr}
    (header : elf = ElfHdr.parse (ip.data.take 52)) {m : Phys} (nodup : m.freelist.Nodup) :
    Sat (execSpace ip elf) m (fun r m' => ∀ sz d, r = some (sz, d) →
      Holds m' d ((ip.imagePages + 2) * 4096) ip.program) noExit := by
  have start : ((m.freelist : Multiset Nat) + 0).Nodup := by rwa [add_zero, Multiset.coe_nodup]
  have bad : ∀ (d : PgDir) (m₁ : Phys), Sat (do freevm d; return (none : Option (Nat × PgDir))) m₁
      (fun r m' => ∀ sz d, r = some (sz, d) →
        Holds m' d ((ip.imagePages + 2) * 4096) ip.program) noExit := by
    intro d m₁
    exact .bind (freevm_spec d m₁) fun _ _ _ => nofun
  rw [execSpace]
  refine .bind (setupkvm_spec m) fun r m₁ built => ?_
  cases r with
  | none => rintro _ _ ⟨⟩
  | some d =>
    obtain ⟨taken, blank⟩ := built
    have fresh := taken.nodup start
    have empty : Holds m₁ d 0 fun _ => 0 := ⟨fun v below => by omega, fun _ _ => rfl⟩
    dsimp only
    refine .seq ((execLoad_spec ip elf.phnum elf.phoff blank.image m₁ fresh).and
      (execLoad_holds ip elf.phnum elf.phoff empty blank.image fresh)) ?_
      (fun _ _ stop => stop.1)
    rintro ⟨size, d₁⟩ m₂ ⟨⟨moves, loaded⟩, holds⟩
    have fresh := moves.nodup fresh
    cases size with
    | none => exact bad d₁ m₂
    | some size =>
      have value := (loaded size rfl).1
      have program := (loaded size rfl).2
      have holds := holds size rfl
      have low : size ≤ 2 ^ 31 := program.low
      have pages : pgRoundUp size = ip.imagePages * 4096 := by
        rw [value, header, Inode.imagePages]
        simp only [pgRoundUp, PGSIZE]
        omega
      have holds : Holds m₂ d₁ (pgRoundUp size) ip.program := by
        rw [header] at holds
        refine ⟨fun v below => holds.pages v ?_, fun v above => holds.above v ?_⟩
        all_goals simp only [pgRoundUp, PGSIZE, uint] at *
        all_goals omega
      have program := program.aligned
      rw [pages] at program holds
      have low : ip.imagePages * 4096 ≤ 2 ^ 31 := program.low
      have top : uint (ip.imagePages * 4096 + 2 * PGSIZE) = (ip.imagePages + 2) * 4096 := by
        simp only [uint, PGSIZE]
        omega
      dsimp only
      rw [pages, top]
      refine .seq ((allocuvm_image program _ m₂ fresh).and (allocuvm_holds holds program _ fresh)) ?_
        (fun _ _ stop => stop.1)
      rintro ⟨sz, d₂⟩ m₃ ⟨⟨_, grown⟩, zeroed⟩
      dsimp only at grown zeroed ⊢
      split
      · exact bad d₂ m₃
      · rename_i filled
        obtain ⟨value, program⟩ := grown filled
        have holds := zeroed filled
        rw [max_eq_right (by omega)] at value
        subst value
        have base : (ip.imagePages + 2) * 4096 - 2 * PGSIZE = ip.imagePages * 4096 := by
          simp only [PGSIZE]
          omega
        rw [base]
        refine .seq (clearpteu_spec program m₃) ?_ (fun _ _ stop => stop.elim)
        rintro d₃ _ ⟨rfl, _, same, _⟩
        rintro _ _ ⟨⟩
        refine ⟨fun v below => ?_, holds.above⟩
        rw [same v]
        exact holds.pages v below

/-- `exec` with the program loaded, with an invariant `W` of the kernel's work that allows the
kernel to change the frames it holds. It fails with the invariant, or it comes to the arguments
with a new directory that holds the program below an empty stack. -/
theorem execImage_through (sound : s.Sound) {ip : Inode} {elf : ElfHdr} {path : Nat}
    {argv : List Nat} {W : St → Multiset Nat → Prop} {Q : Int → St → Prop} {E : Stop → St → Prop}
    (working : ∀ u X, W u X → Working s u X)
    (moved : ∀ u X Y m, W u X → Moves u.phys m X Y → W { u with phys := m } Y) (w : W t 0)
    (header : elf = ElfHdr.parse (ip.data.take 52)) (quiet : ∀ e u, noExit e u → E e u)
    (refused : ∀ u, W u 0 → Q (-1) u)
    (next : ∀ u d, Stacked d ip.imagePages → W u d.frames →
      Filling s u d ip.imagePages ip.program →
      Sat (execStack d ((ip.imagePages + 2) * 4096) path argv) u (fun r u =>
        (r = none → W u d.frames) ∧ ∀ sp called, r = some (sp, called) →
          Sat (execCommit d ((ip.imagePages + 2) * 4096) sp elf.entry called) u
            (fun _ => Q 0) E) E) :
    Sat (execImage ip elf path argv) t Q E := by
  have free := ((working _ _ w).sound sound).free
  rw [execImage_eq, sat_bind, onPhys, sat_zoom]
  refine ((execSpace_spec header free).and (execSpace_holds header free)).mono ?_
    (fun e _ stop => quiet e _ stop.1)
  rintro r m ⟨built, holds⟩
  cases r with
  | none => exact refused _ (moved t _ _ m w (built.1 rfl))
  | some out =>
    obtain ⟨sz, d⟩ := out
    obtain ⟨moves, rfl, stacked⟩ := built.2 sz d rfl
    have w := moved t _ _ m w moves
    dsimp only
    rw [execRest]
    refine .bind (next _ d stacked w ⟨working _ _ w, holds _ d rfl⟩) fun r u done => ?_
    cases r with
    | none =>
      dsimp only
      rw [sat_bind, onPhys, sat_zoom]
      exact (freevm_spec d u.phys).mono
        (fun _ m freed => refused _ (moved u _ _ m (done.1 rfl) freed)) (fun e _ stop => quiet e _ stop)
    | some out =>
      obtain ⟨sp, called⟩ := out
      dsimp only
      exact .bind (done.2 sp called rfl) fun _ _ committed => committed

/-- What the commitment leaves of a filled image. -/
theorem execCommit_filling (sound : s.Sound) {ip : Inode} {strs : List (List UInt8)} {d : PgDir}
    (stacked : Stacked d ip.imagePages) (fill : Filling s t d ip.imagePages (ip.memory strs))
    (sp entry : Nat) (called : List UInt8) :
    Sat (execCommit d ((ip.imagePages + 2) * 4096) sp entry called) t (fun _ u => Runs u ip strs)
      (fun _ _ => True) := by
  refine (execCommit_spec sound stacked fill.work sp entry called).mono ?_ (fun _ _ _ => trivial)
  rintro _ v ⟨settles, loaded, plain⟩
  refine ⟨settles.dir, settles.size, loaded, fun v below => ?_⟩
  obtain ⟨half, mapped, _⟩ := stacked.held (v := v) (by omega)
  rw [plain v half mapped]
  exact fill.holds.pages v (by omega)

theorem exec_filling (sound : s.Sound) (namei : List UInt8 → Option Inode) {path len : Nat}
    {argv : List Nat} {strs : List (List UInt8)} (name : s.IsStr path len)
    (spells : List.Forall₂ s.Spells argv strs) :
    Sat (exec namei path argv) s (fun r u => r = 0 → ∃ ip, namei (s.text path 0 len) = some ip ∧
      Runs u ip strs) (fun _ _ => True) := by
  refine exec_through sound name (W := fun u => Working s u 0)
    (fun k inside u w => (load_str sound name w inside).mono (fun _ _ done => done)
      (fun _ _ _ => trivial)) (Working.refl s).rewind (fun _ _ _ => nofun) fun u ip w found _ => ?_
  refine execImage_through sound (W := Working s) (fun _ _ w => w) (fun _ _ _ _ w => w.phys sound) w
    rfl (fun _ _ _ => trivial) (fun _ _ => nofun) fun u d stacked w fill => ?_
  refine (execStack_filling sound stacked _ name spells fill).imp (fun r u built => ?_)
  obtain ⟨img, fill, same⟩ := built.kept
  refine ⟨fun _ => fill.work, fun sp called is => ?_⟩
  obtain rfl := same (by rw [is]; rintro ⟨⟩)
  exact (execCommit_filling sound stacked fill sp _ called).imp
    (fun _ _ runs _ => ⟨ip, found, runs⟩)

/-- The process starts in the memory image `img`, with every page encrypted but the
guard page, and with an empty clock. -/
structure Enciphered (t : St) (img : Nat → UInt8) : Prop where
  pages : ∀ v, v * PGSIZE < t.proc.sz → v * PGSIZE ≠ t.proc.sz - 2 * PGSIZE →
    (t.proc.pgdir.flat v).has PTE_E = true ∧ (t.proc.pgdir.flat v).has PTE_P = false ∧
    t.phys.bytes (t.proc.pgdir.flat v).ppn = (imagePage img v).flip
  guard : (t.proc.pgdir.flat (vpn (t.proc.sz - 2 * PGSIZE))).has PTE_U = false
  clock : ∀ k < CLOCKSIZE, t.proc.clock k = 0
  head : t.proc.head = 0

/-- A page that is encrypted is the flipped page of the image. -/
theorem Runs.coded {ip : Inode} {strs : List (List UInt8)} (runs : Runs t ip strs) {v : Nat}
    (below : v < ip.imagePages + 2) (coded : (t.proc.pgdir.flat v).has PTE_E = true) :
    (t.proc.pgdir.flat v).has PTE_P = false ∧
      t.phys.bytes (t.proc.pgdir.flat v).ppn = (imagePage (ip.memory strs) v).flip := by
  constructor
  · obtain zero | ⟨either, _⟩ := runs.dir.tidy v
    · rw [zero]
      exact Pte.has_zero _
    · rw [either, coded]
      rfl
  · rw [← runs.plain v below, St.plain, if_pos coded, Page.flip_flip]

theorem Runs.enciphered_iff {ip : Inode} {strs : List (List UInt8)} (runs : Runs t ip strs) :
    Enciphered t (ip.memory strs) ↔ ip.imagePages ≤ 1 := by
  have size := runs.size
  have sz := runs.loaded.sz
  have guard : vpn (t.proc.sz - 2 * PGSIZE) = ip.imagePages := by
    simp only [vpn, PGSIZE, KERNBASE] at *
    omega
  constructor
  · intro enciphered
    by_contra more
    have second := enciphered.pages 1 (by simp only [PGSIZE]; omega) (by simp only [PGSIZE]; omega)
    have only := (runs.loaded.text 1 (by omega)).2.mp second.1
    cases only
  · intro small
    refine ⟨fun v below other => ?_, ?_, fun k _ => runs.loaded.clock k, runs.loaded.head⟩
    · simp only [PGSIZE] at below other
      have inside : v < ip.imagePages + 2 := by omega
      have coded : (t.proc.pgdir.flat v).has PTE_E = true := by
        by_cases text : v < ip.imagePages
        · exact (runs.loaded.text v text).2.mpr (by omega)
        · rw [show v = ip.imagePages + 1 by omega]
          exact runs.loaded.stack
      exact ⟨coded, runs.coded inside coded⟩
    · rw [guard]
      exact runs.loaded.guard

end Exec

/-- `exec` leaves the memory of the program and its arguments encrypted exactly when
the program has at most one page: of the pages below the guard page only the first is
encrypted. -/
theorem exec_encrypts_iff {s t : St} (sound : s.Sound) {namei : List UInt8 → Option Inode}
    {path len : Nat} {argv : List Nat} {strs : List (List UInt8)} (name : s.IsStr path len)
    (spells : List.Forall₂ s.Spells argv strs) (run : (exec namei path argv).run s = .ok 0 t) :
    ∃ ip, namei (s.text path 0 len) = some ip ∧
      (Enciphered t (ip.memory strs) ↔ ip.imagePages ≤ 1) := by
  obtain ⟨ip, found, runs⟩ := (exec_filling sound namei name spells).of_ok run rfl
  exact ⟨ip, found, runs.enciphered_iff⟩

/-- A process of two pages, both in the clear, that start with the letter `a`. -/
def launchSt : St :=
  ⟨⟨smallImage, fun _ k => if k.val = 0 then 97 else 0, List.range' 2000 1100⟩,
    ⟨8192, .single 1001 1002 twoPages, fun _ => 0, 0, fun _ => false, [], 0, 0⟩⟩

/-- An executable file with one segment, of zeros, for `n` pages. -/
def zeroFile (n : Nat) : Inode :=
  ⟨[0x7F, 0x45, 0x4C, 0x46] ++ List.replicate 24 0 ++ [52, 0, 0, 0] ++ List.replicate 12 0 ++
    [1, 0] ++ List.replicate 6 0 ++ [1, 0, 0, 0] ++ List.replicate 16 0 ++
    [0, (16 * n).toUInt8, 0, 0] ++ List.replicate 8 0⟩

theorem zeroFile_zeroed {n : Nat} (small : n = 1 ∨ n = 2) :
    (zeroFile n).Zeroed n ∧ (zeroFile n).imagePages = n := by
  obtain rfl | rfl := small
  · refine ⟨⟨⟨(zeroFile 1).data.take 52, ?_, ?_, ?_, ?_, (zeroFile 1).data.drop 52, ?_⟩, ?_, ?_⟩, ?_⟩
    all_goals decide
  · refine ⟨⟨⟨(zeroFile 2).data.take 52, ?_, ?_, ?_, ?_, (zeroFile 2).data.drop 52, ?_⟩, ?_, ?_⟩, ?_⟩
    all_goals decide

theorem launchSt_sound : launchSt.Sound :=
  (twoPages_small.owned (m := launchSt.phys) (p := launchSt.proc) rfl rfl (by omega)
    (by decide)).view (i := 0) (by decide) (by decide)

theorem launchSt_name : launchSt.IsStr 0x1000 1 := by
  refine ⟨by decide, ?_, ?_, ?_⟩
  all_goals decide +kernel

theorem launchSt_spells (k : Nat) :
    List.Forall₂ launchSt.Spells (List.replicate k 0x1000) (List.replicate k [97]) := by
  induction k with
  | zero => exact .nil
  | succ k ih => exact .cons ⟨1, launchSt_name, by decide +kernel⟩ ih

theorem launchSt_present {a len : Nat} (str : launchSt.IsStr a len) : launchSt.Present a len := by
  have both : ∀ v < 2, (launchSt.proc.pgdir.flat v).has PTE_P = true := by decide +kernel
  have below : a + len < 8192 := str.below
  intro k inside
  apply both
  simp only [vpn, PGSIZE]
  omega

theorem launchSt_returns {n : Nat} (small : n = 1 ∨ n = 2) {k : Nat} (few : k ≤ MAXARG) :
    ∃ t, (exec (fun _ => some (zeroFile n)) 0x1000 (List.replicate k 0x1000)).run launchSt =
      .ok 0 t := by
  refine exec_returns launchSt_sound launchSt_name (launchSt_spells k) ?_ ?_ ?_ ?_ ?_ rfl
    (zeroFile_zeroed small).1
  · intro str member
    rw [List.eq_of_mem_replicate member]
    decide
  · rwa [List.length_replicate]
  · exact fun _ _ _ str => launchSt_present str
  · intro f member
    have pooled : f ∈ soloPool launchSt.phys launchSt.proc 1003 := by
      rw [soloPool, add_left_comm]
      exact Multiset.mem_add.mpr (Or.inr member)
    rw [twoPages_small.pool rfl rfl] at pooled
    simp only [Multiset.mem_coe, List.mem_append, List.mem_cons, List.mem_range'_1] at pooled
    change f ≠ 0 ∧ 1000 ≤ f ∧ f < PHYSTOP / PGSIZE
    simp only [PHYSTOP, PGSIZE]
    omega
  · change 1027 + n ≤ (List.range' 2000 1100).length
    rw [List.length_range']
    omega

/-- The image of a program of one page is encrypted. -/
theorem one_page_enciphered :
    ∃ t, (exec (fun _ => some (zeroFile 1)) 0x1000 []).run launchSt = .ok 0 t ∧
      Enciphered t ((zeroFile 1).memory []) := by
  obtain ⟨t, run⟩ := launchSt_returns (n := 1) (Or.inl rfl) (k := 0) (Nat.zero_le _)
  obtain ⟨ip, found, enciphered⟩ := exec_encrypts_iff launchSt_sound launchSt_name .nil run
  cases found
  refine ⟨t, run, enciphered.mpr ?_⟩
  rw [(zeroFile_zeroed (Or.inl rfl)).2]

/-- The second page of a program of two pages is left in the clear. -/
theorem second_page_clear :
    ∃ t, (exec (fun _ => some (zeroFile 2)) 0x1000 []).run launchSt = .ok 0 t ∧
      1 * PGSIZE < t.proc.sz ∧ 1 * PGSIZE ≠ t.proc.sz - 2 * PGSIZE ∧
      (t.proc.pgdir.flat 1).has PTE_E = false := by
  obtain ⟨t, run⟩ := launchSt_returns (n := 2) (Or.inr rfl) (k := 0) (Nat.zero_le _)
  obtain ⟨ip, found, runs⟩ := (exec_filling launchSt_sound _ launchSt_name .nil).of_ok run rfl
  cases found
  have loaded := runs.loaded
  rw [(zeroFile_zeroed (Or.inr rfl)).2] at loaded
  refine ⟨t, run, by rw [loaded.sz]; decide, by rw [loaded.sz]; decide, ?_⟩
  rw [Bool.eq_false_iff]
  intro coded
  have first := (loaded.text 1 (by omega)).2.mp coded
  cases first

end Xv6
