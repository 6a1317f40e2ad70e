import Xv6.Calm
import Xv6.ExecImage
import Xv6.SpaceCopy

/-! The loading loop of `exec` on any file. Whatever the headers say, the loop ends without
a panic, and if it does not fail the new directory holds the segments of the file, written
over zeros one after the other. -/
namespace Xv6
open PteBit Control Writes

section Exact
variable {m : Phys} {d : PgDir} {ip : Inode}

/-- A read of the full length lies in the file and does not wrap. -/
theorem readi_inside {off n : Nat} {bs : List UInt8} (read : readi ip off n = some bs) (whole : bs.length = n)
    (positive : 0 < n) (word : off < 2 ^ 32) (small : n < 2 ^ 32) :
    off + n ≤ ip.data.length ∧ off + n < 2 ^ 32 := by
  rw [readi] at read
  split at read
  · cases read
  · rename_i inside
    cases read
    rw [List.length_take, List.length_drop] at whole
    simp only [uint] at inside
    omega

theorem loaduvmLoop_inside (addr off sz k i : Nat) (page : i % 4096 = 0) (enough : sz ≤ i + k * 4096)
    (word : off + i < 2 ^ 32) :
    Sat (loaduvmLoop d addr ip off sz k i) m (fun ok _ => ok = true → i < sz → off + sz ≤ ip.data.length ∧ off + sz < 2 ^ 32)
      (fun _ _ => True) := by
  induction k generalizing i m with
  | zero =>
    intro _ more
    omega
  | succ k ih =>
    rw [loaduvmLoop]
    cases walkpgdir d (uint (addr + i)) with
    | none => trivial
    | some pte =>
      dsimp only
      cases read : readi ip (uint (off + i)) (min (sz - i) PGSIZE) with
      | none => rintro ⟨⟩
      | some bs =>
        dsimp only
        rw [sat_bind, sat_modify]
        split
        · rintro ⟨⟩
        · rename_i whole
          have start : uint (off + i) = off + i := Nat.mod_eq_of_lt word
          rw [start] at read
          by_cases more : i < sz
          · obtain ⟨bound, wraps⟩ := readi_inside read (not_not.mp whole) (by simp only [PGSIZE]; omega) word
              (by simp only [PGSIZE]; omega)
            by_cases last : sz - i ≤ PGSIZE
            · rw [Nat.min_eq_left last] at bound wraps
              apply (sat_self _ _).mono _ fun _ _ _ => trivial
              intro ok _ _ _ _
              constructor
              all_goals omega
            · rw [Nat.min_eq_right (by omega), Nat.add_assoc] at wraps
              have page' : (i + PGSIZE) % 4096 = 0 := by simp only [PGSIZE]; omega
              have enough' : sz ≤ i + PGSIZE + k * 4096 := by simp only [PGSIZE]; omega
              have further : i + PGSIZE < sz := Nat.add_lt_of_lt_sub' (Nat.lt_of_not_le last)
              apply (ih (i + PGSIZE) page' enough' wraps).imp _
              intro ok _ done yes _
              exact done yes further
          · apply (sat_self _ _).mono _ fun _ _ _ => trivial
            intro ok _ _ _ less
            exact absurd less more

theorem loaduvm_inside {addr off sz : Nat} (word : off < 2 ^ 32) :
    Sat (loaduvm d addr ip off sz) m (fun ok _ => ok = true → 0 < sz → off + sz ≤ ip.data.length ∧ off + sz < 2 ^ 32)
      (fun _ _ => True) := by
  rw [loaduvm]
  split
  · trivial
  · apply loaduvmLoop_inside addr off sz _ 0 rfl _ word
    simp only [PGSIZE]
    omega

/-- The program headers that the loop reads. -/
def Inode.headers (ip : Inode) : Nat → Nat → List ProgHdr
  | 0, _ => []
  | n + 1, off =>
    match readi ip off 32 with
    | none => []
    | some bs => ProgHdr.parse bs :: ip.headers n (uint (off + 32))

/-- The bytes of the file for a segment. -/
def Inode.fileBytes (ip : Inode) (ph : ProgHdr) : List UInt8 := (ip.data.drop ph.off).take ph.filesz

/-- The segments of the headers, written one after the other. -/
def Inode.written (ip : Inode) (phs : List ProgHdr) (img : Nat → UInt8) : Nat → UInt8 :=
  (phs.filter fun ph => ph.type = ELF_PROG_LOAD).foldl (fun img ph => splice img ph.vaddr (ip.fileBytes ph)) img

/-- Every segment has its bytes in the file. -/
def Inode.Complete (ip : Inode) (phs : List ProgHdr) : Prop :=
  ∀ ph ∈ phs, ph.type = ELF_PROG_LOAD → (ip.fileBytes ph).length = ph.filesz

theorem Inode.written_cons (ip : Inode) (ph : ProgHdr) (phs : List ProgHdr) (img : Nat → UInt8) :
    ip.written (ph :: phs) img = ip.written phs
      (if ph.type = ELF_PROG_LOAD then splice img ph.vaddr (ip.fileBytes ph) else img) := by
  unfold written
  by_cases load : ph.type = ELF_PROG_LOAD
  · rw [List.filter_cons_of_pos (by simpa using load), List.foldl_cons, if_pos load]
  · rw [List.filter_cons_of_neg (by simpa using load), if_neg load]

theorem Inode.segment_eq (ip : Inode) {off n : Nat}
    (inside : 0 < n → off + n ≤ ip.data.length ∧ off + n < 2 ^ 32) :
    ip.segment off n = (ip.data.drop off).take n := by
  apply List.ext_getElem
  · simp only [segment, List.length_map, List.length_range, List.length_take, List.length_drop]
    omega
  · intro j hj hj'
    simp only [segment, List.length_map, List.length_range] at hj
    obtain ⟨within, word⟩ := inside (by omega)
    have index : uint (off + j) = off + j := Nat.mod_eq_of_lt (by omega)
    simp only [segment, List.getElem_map, List.getElem_range, index, List.getElem_take, List.getElem_drop]
    exact List.getD_eq_getElem _ _ (by omega)

/-- If the loop does not fail, each segment has its bytes in the file, and the image it
leaves is made of these. -/
theorem execLoad_complete (n off sz : Nat) (img : Nat → UInt8) :
    Sat (execLoad ip n off sz d) m (fun r _ => r.1 ≠ none → (ip.headers n off).length = n ∧
      ip.Complete (ip.headers n off) ∧ imageBytes ip n off img = ip.written (ip.headers n off) img)
      (fun _ _ => True) := by
  induction n generalizing off sz d m img with
  | zero =>
    intro _
    refine ⟨rfl, ?_, rfl⟩
    rintro ph ⟨⟩
  | succ n ih =>
    have failed : ∀ {P : Prop} (d : PgDir), ((none : Option Nat), d).1 ≠ none → P := fun d some_ => absurd rfl some_
    rw [execLoad, Inode.headers, imageBytes]
    cases readi ip off 32 with
    | none => exact failed d
    | some bs =>
      dsimp only
      split
      · exact failed d
      split
      · rename_i other
        apply (ih (uint (off + 32)) sz img).imp _
        intro r _ done some_
        obtain ⟨length, complete, same⟩ := done some_
        refine ⟨by rw [List.length_cons, length], ?_, ?_⟩
        · intro ph member load
          obtain rfl | later := List.mem_cons.mp member
          · exact absurd load other
          · exact complete ph later load
        · rw [Inode.written_cons, if_neg other]
          exact same
      rename_i load
      rw [ne_eq, not_not] at load
      split
      · exact failed d
      split
      · exact failed d
      rw [sat_bind]
      apply (sat_self _ _).mono _ fun _ _ _ => trivial
      rintro ⟨size, d₁⟩ m₁ _
      dsimp only
      split
      · exact failed d₁
      split
      · exact failed d₁
      rw [sat_bind]
      apply (loaduvm_inside (le_lt bs 4 4)).imp _
      intro ok m₂ inside
      cases ok with
      | false => exact failed d₁
      | true =>
        have bytes : ip.segment (ProgHdr.parse bs).off (ProgHdr.parse bs).filesz =
            ip.fileBytes (ProgHdr.parse bs) := ip.segment_eq (inside rfl)
        have count : (ip.fileBytes (ProgHdr.parse bs)).length = (ProgHdr.parse bs).filesz := by
          rw [← bytes, Inode.segment, List.length_map, List.length_range]
        rw [if_pos rfl]
        apply (ih (uint (off + 32)) size
          (splice img (ProgHdr.parse bs).vaddr (ip.fileBytes (ProgHdr.parse bs)))).imp _
        intro r _ done some_
        obtain ⟨length, complete, same⟩ := done some_
        refine ⟨by rw [List.length_cons, length], ?_, ?_⟩
        · intro ph member isLoad
          obtain rfl | later := List.mem_cons.mp member
          · exact count
          · exact complete ph later isLoad
        · rw [Inode.written_cons, if_pos load, bytes]
          exact same

end Exact

/-- The directory that `exec` loads a file into: below the size `sz` every page is mapped
on a frame of its own, which holds its page of `img`; above it nothing is mapped. -/
structure LoadedElf (m : Phys) (d : PgDir) (sz : Nat) (img : Nat → UInt8) : Prop where
  mapped : ∀ v, v * 4096 < sz → (d.flat v).has PTE_P = true ∧ (d.flat v).has PTE_U = true
  once : ∀ u v, u * 4096 < sz → v * 4096 < sz → (d.flat u).ppn = (d.flat v).ppn → u = v
  bytes : ∀ v, v * 4096 < sz → m.bytes (d.flat v).ppn = imagePage img v
  others : ∀ v < 2 ^ 19, sz ≤ v * 4096 → d.flat v = .zero

/-- On any file and with any header, the loading loop of `exec` ends without a panic, and if
it does not fail the memory below the size is zeros with the segments written over them. -/
theorem elf_loading_exact (ip : Inode) (phnum phoff : Nat) {m₀ m : Phys} {d : PgDir}
    (nodup : m₀.freelist.Nodup) (accepts : ∀ f ∈ m₀.freelist, m₀.image.accepts f)
    (built : setupkvm.run m₀ = .ok (some d) m) :
    ∃ r d' m', (execLoad ip phnum phoff 0 d).run m = .ok (r, d') m' ∧ ∀ sz, r = some sz →
      (ip.headers phnum phoff).length = phnum ∧ ip.Complete (ip.headers phnum phoff) ∧
        LoadedElf m' d' sz (ip.written (ip.headers phnum phoff) fun _ => 0) := by
  obtain ⟨taken, blank⟩ := (setupkvm_spec m₀).of_ok built
  have fresh : ((m.freelist : Multiset Nat) + d.frames).Nodup :=
    taken.nodup (by rwa [add_zero, Multiset.coe_nodup])
  have freed := taken.frees (E := fun _ => False) fun f member => .inl (accepts f (by simpa using member))
  have empty : Holds m d 0 fun _ => 0 := ⟨fun v below => by omega, fun _ _ => rfl⟩
  obtain ⟨⟨r, d'⟩, m', run, ⟨⟨moves, loaded⟩, holds⟩, complete⟩ :=
    (((((execLoad_spec ip phnum phoff blank.image m fresh).and
      (execLoad_holds ip phnum phoff empty blank.image fresh)).and
      (execLoad_complete phnum phoff 0 fun _ => 0)).and
      (execLoad_ends ip phnum phoff blank.image fresh freed)).mono (fun _ _ all => all.1)
      fun _ _ stop => stop.2).returns
  refine ⟨r, d', m', run, ?_⟩
  rintro sz rfl
  obtain ⟨_, program⟩ := loaded sz rfl
  obtain ⟨count, whole, image⟩ := complete nofun
  have holds := holds sz rfl
  rw [image] at holds
  refine ⟨count, whole, ?_⟩
  constructor
  · intro v below
    obtain ⟨f, entry⟩ := program.pages v below
    rw [entry]
    simp [userPte_has]
  · exact program.distinct (Multiset.nodup_add.mp (moves.nodup fresh)).2.1
  · exact holds.pages
  · exact program.rest

/-- An executable file whose one segment has four bytes in the file and takes a page. -/
def fourFile : Inode :=
  ⟨(zeroFile 1).data.take 52 ++ [1, 0, 0, 0, 84, 0, 0, 0] ++ List.replicate 8 0 ++ [4, 0, 0, 0] ++
    [0, 16, 0, 0] ++ List.replicate 8 0 ++ [0xDE, 0xAD, 0xBE, 0xEF]⟩

/-- The four bytes are loaded, with zeros above them. -/
theorem four_bytes_loaded :
    ∃ d m d' m' image, setupkvm.run bootPhys = .ok (some d) m ∧
      (execLoad fourFile 1 52 0 d).run m = .ok (some 4096, d') m' ∧ LoadedElf m' d' 4096 image ∧
      (List.range 6).map image = [0xDE, 0xAD, 0xBE, 0xEF, 0, 0] := by
  obtain ⟨b, boot⟩ : ∃ b, b = bootPhys := ⟨_, rfl⟩
  have free : b.freelist = List.range' 2000 1100 := by rw [boot]; rfl
  have image : b.image = smallImage := by rw [boot]; rfl
  have nodup : b.freelist.Nodup := by
    rw [free]
    exact List.nodup_range'
  have accepts : ∀ f ∈ b.freelist, b.image.accepts f := by
    rw [free, image]
    exact fun f member => smallImage_accepts member
  have enough : 1025 + (0 + 1) ≤ b.freelist.length := by
    rw [free, List.length_range']
    decide
  rw [← boot]
  obtain ⟨r, m, built, d, rfl, room⟩ := (setupkvm_room enough).returns
  obtain ⟨taken, blank⟩ := (setupkvm_spec b).of_ok built
  have fresh : ((m.freelist : Multiset Nat) + d.frames).Nodup :=
    taken.nodup (by rwa [add_zero, Multiset.coe_nodup])
  obtain ⟨r, d', m', run, exact_⟩ := elf_loading_exact fourFile 1 52 nodup accepts built
  obtain ⟨ps, is⟩ : ∃ ps, ps = (fourFile.data.drop 52).take 32 := ⟨_, rfl⟩
  have read : readi fourFile 52 32 = some ps := by rw [is]; decide
  have loads := (execLoad_returns blank fresh room (by decide) (by decide) read (by rw [is]; decide)
    (by rw [is]; decide) (by rw [is]; decide) (by rw [is]; decide) (by rw [is]; decide)
    (by rw [is]; decide)).of_ok run
  obtain ⟨d'', same, _⟩ := loads
  rw [Nat.one_mul] at same
  obtain ⟨rfl, rfl⟩ := Prod.mk.inj same
  obtain ⟨_, _, image⟩ := exact_ 4096 rfl
  exact ⟨d, m, d', m', _, built, run, image, by decide⟩

end Xv6
