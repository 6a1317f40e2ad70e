import Xv6.FirstProcess
import Xv6.NullEntries

/-! What `copyout` does where it reads an entry through the null pointer. The kernel takes the
word at user address 0 for the entry and copies the argument over the frame that this word
names. When the frame holds a page table of the process, the string becomes its entries. -/
namespace Xv6
open PteBit Control

section Words

theorem Pte.has_present_iff (pte : Pte) : pte.has PTE_P = true ↔ pte.flags.toNat % 2 = 1 := by
  have bit : (pte.flags &&& 1#12).toNat = pte.flags.toNat % 2 := by
    rw [BitVec.toNat_and]
    exact Nat.and_one_is_mod _
  rw [Pte.has, bne_iff_ne, ne_eq, ← BitVec.toNat_inj]
  change ¬ (pte.flags &&& 1#12).toNat = 0 ↔ _
  rw [bit]
  omega

/-- The first byte of an entry holds its flag `PTE_P`. -/
theorem Pte.poke_present (pte : Pte) {k : Nat} (few : k < 4) {b : UInt8}
    (odd : if k = 0 then b.toNat % 2 = 1 else pte.has PTE_P = true) :
    (pte.poke k b).has PTE_P = true := by
  rw [Pte.has_present_iff] at odd ⊢
  have word : pte.word % 2 = pte.flags.toNat % 2 := by
    simp only [Pte.word]
    omega
  have low : (pte.word.toUInt8).toNat % 2 = pte.word % 2 := by
    rw [Nat.toUInt8_eq, UInt8.toNat_ofNat']
    omega
  have flags : ∀ w, (Pte.ofWord w).flags.toNat % 2 = w % 2 := by
    intro w
    simp only [Pte.ofWord, BitVec.toNat_ofNat]
    omega
  rw [Pte.poke, flags]
  obtain rfl | rfl | rfl | rfl : k = 0 ∨ k = 1 ∨ k = 2 ∨ k = 3 := by omega
  all_goals
    simp only [leBytes, List.set_cons_zero, List.set_cons_succ, le, List.getD_cons_zero] at odd ⊢
    simp at odd
    omega

end Words


namespace PgDir
variable {d : PgDir} {f : Nat}

theorem poke_tabs (d : PgDir) (f va : Nat) (b : UInt8) (i : Nat) :
    ((d.poke f va b).tabs i).map PgTab.frame = (d.tabs i).map PgTab.frame := by
  simp only [poke, Option.map_map]
  refine congrArg (Option.map · (d.tabs i)) (funext fun t => ?_)
  simp only [Function.comp]
  split
  · rfl
  · rfl

theorem poke_flat_of_ne (va : Nat) (b : UInt8) {v : Nat}
    (other : (d.tabs (v / 1024)).map PgTab.frame ≠ some f) : (d.poke f va b).flat v = d.flat v := by
  simp only [flat, poke]
  cases table : d.tabs (v / 1024) with
  | none => rfl
  | some t =>
    rw [table] at other
    rw [Option.map_some, if_neg fun same => other (congrArg some same)]

theorem poke_flat_of_eq (va : Nat) (b : UInt8) {v : Nat}
    (same : (d.tabs (v / 1024)).map PgTab.frame = some f) : (d.poke f va b).flat v =
      if v % 1024 = slot va / 4 then (d.flat v).poke (slot va % 4) b else d.flat v := by
  simp only [flat, poke]
  cases table : d.tabs (v / 1024) with
  | none =>
    rw [table] at same
    cases same
  | some t =>
    rw [table] at same
    rw [Option.map_some, if_pos (Option.some.inj same)]
    dsimp only
    split
    · rename_i here
      rw [here, Function.update_self]
    · rename_i away
      rw [Function.update_of_ne away]

end PgDir

section Stray
variable {r u : St} {f j k : Nat}

/-- The first `k` bytes of the frame `f`, which holds page table `j` of the process, have been
overwritten with bytes whose last bit is set. -/
structure Strewn (r : St) (f j k : Nat) (u : St) : Prop where
  tabs : ∀ i, (u.proc.pgdir.tabs i).map PgTab.frame = (r.proc.pgdir.tabs i).map PgTab.frame
  struck : ∀ v, v / 1024 = j → 4 * (v % 1024) < k → (u.proc.pgdir.flat v).has PTE_P = true
  present : ∀ v, v / 1024 ≠ j →
    (u.proc.pgdir.flat v).has PTE_P = (r.proc.pgdir.flat v).has PTE_P
  ppn : ∀ v, v / 1024 ≠ j → (u.proc.pgdir.flat v).ppn = (r.proc.pgdir.flat v).ppn
  bytes : ∀ g, g ≠ f → u.phys.bytes g = r.phys.bytes g
  free : u.phys.freelist = r.phys.freelist
  image : u.phys.image = r.phys.image
  sz : u.proc.sz = r.proc.sz

theorem Strewn.refl (r : St) (f j : Nat) : Strewn r f j 0 r :=
  ⟨fun _ => rfl, fun _ _ none => absurd none (Nat.not_lt_zero _), fun _ _ => rfl, fun _ _ => rfl,
    fun _ _ => rfl, rfl, rfl, rfl⟩

/-- Reading a byte through another table. -/
theorem Strewn.load (strewn : Strewn r f j k u) {a : Nat} (low : a < 2 ^ 32) (away : vpn a / 1024 ≠ j)
    (here : (r.proc.pgdir.flat (vpn a)).has PTE_P = true) (other : (r.proc.pgdir.flat (vpn a)).ppn ≠ f) :
    Sat (load false (uint a)) u
      (fun b t => b = r.phys.bytes (r.proc.pgdir.flat (vpn a)).ppn (slot a) ∧ Strewn r f j k t)
      (fun _ _ => False) := by
  have held : u.holds a := (strewn.present _ away).trans here
  have resident := Option.isSome_iff_ne_none.mp (resident_present.mpr held)
  rw [show uint a = a from Nat.mod_eq_of_lt low, Xv6.load, sat_bind]
  refine (access_spec false u a).mono ?_ (fun _ _ stop => resident stop.1)
  rintro g t (⟨_, rfl, rfl⟩ | ⟨fault, _⟩)
  · have marks := Marks.touched held
    have flat : ∀ v, v ≠ vpn a → (u.touched a).proc.pgdir.flat v = u.proc.pgdir.flat v := marks.kept
    rw [sat_bind, sat_get, sat_pure]
    refine ⟨?_, fun i => ?_, fun v mine below => ?_, fun v off => ?_, fun v off => ?_, strewn.bytes,
      strewn.free, strewn.image, strewn.sz⟩
    · rw [← strewn.ppn _ away, ← strewn.bytes _ (by rwa [strewn.ppn _ away])]
      rfl
    · rw [← strewn.tabs i]
      exact PgDir.setPte_tabs _ _ _ _
    · rw [flat v (by rintro rfl; exact away mine)]
      exact strewn.struck v mine below
    · rw [marks.has v (by decide)]
      exact strewn.present v off
    · rw [marks.ppn]
      exact strewn.ppn v off
  · exact absurd fault resident

theorem Strewn.poke (strewn : Strewn r f j k u) {va : Nat} (place : va % 4096 = k)
    {b : UInt8} (odd : b.toNat % 2 = 1) (table : (r.proc.pgdir.tabs j).map PgTab.frame = some f)
    (only : ∀ i, (r.proc.pgdir.tabs i).map PgTab.frame = some f → i = j) :
    Strewn r f j (k + 1)
      ⟨u.phys.poke f va b, { u.proc with pgdir := u.proc.pgdir.poke f va b }⟩ := by
  have at_ : (slot va : Nat) = k := place
  have apart : ∀ v, v / 1024 ≠ j → (u.proc.pgdir.poke f va b).flat v = u.proc.pgdir.flat v := by
    intro v off
    refine PgDir.poke_flat_of_ne va b fun same => off (only _ ?_)
    rwa [strewn.tabs] at same
  refine ⟨fun i => (PgDir.poke_tabs _ _ _ _ i).trans (strewn.tabs i), fun v mine below => ?_,
    fun v off => ?_, fun v off => ?_, fun g ne => ?_, strewn.free, strewn.image, strewn.sz⟩
  · have same : (u.proc.pgdir.tabs (v / 1024)).map PgTab.frame = some f := by
      rw [strewn.tabs, mine]
      exact table
    rw [PgDir.poke_flat_of_eq va b same, at_]
    split
    · refine Pte.poke_present _ (Nat.mod_lt _ (by decide)) ?_
      split
      · exact odd
      · exact strewn.struck v mine (by omega)
    · exact strewn.struck v mine (by omega)
  · rw [apart v off]
    exact strewn.present v off
  · rw [apart v off]
    exact strewn.ppn v off
  · rw [← strewn.bytes g ne]
    simp only [Phys.poke, Phys.write, Function.update_of_ne ne]

/-- A page of odd bytes is copied over a page table. -/
theorem strayLoop_strews {src : Nat → K UInt8} {va : Nat} (aligned : va % 4096 = 0)
    (table : (r.proc.pgdir.tabs j).map PgTab.frame = some f)
    (only : ∀ i, (r.proc.pgdir.tabs i).map PgTab.frame = some f → i = j)
    (source : ∀ k < 4096, ∀ u, Strewn r f j k u → Sat (src k) u
      (fun b t => b.toNat % 2 = 1 ∧ Strewn r f j k t) (fun _ _ => False))
    (n : Nat) (left : k + n = 4096) (strewn : Strewn r f j k u) :
    Sat (strayLoop src f (va + k) n k) u (fun _ t => Strewn r f j 4096 t) (fun _ _ => False) := by
  induction n generalizing k u with
  | zero =>
    rw [strayLoop, sat_pure]
    rw [Nat.add_zero] at left
    subst left
    exact strewn
  | succ n ih =>
    rw [strayLoop]
    refine .bind (source k (by omega) u strewn) ?_
    rintro b t ⟨odd, strewn⟩
    rw [sat_bind, sat_modify]
    exact ih (by omega) (strewn.poke (by omega) odd table only)

end Stray

/-- A computation that comes to an end without the null pointer does so in every machine. -/
theorem Steady.sat {σ α : Type} {E : Stop → Prop} {m : NullPte → EStateM Stop σ α} {s : σ}
    {Q : α → σ → Prop} (steady : Steady E m) (ends : Sat (m .stop) s Q (fun _ _ => False))
    (N : NullPte) : Sat (m N) s Q (fun _ _ => False) := by
  obtain ⟨a, t, run, holds⟩ := ends.returns
  have clear : ¬ HitsNull (m .stop) s := by
    rw [HitsNull, stopped, run]
    rintro ⟨⟩
  rw [Sat, steady.run_eq clear N, run]
  exact holds

section Copy
variable {s t : St} {X : Multiset Nat} {a n : Nat} (N : NullPte)

/-- A byte of a page that no fault makes fatal is read, and its page is present then. -/
theorem load_calm (sound : s.Sound) (tabled : s.proc.Tabled) (w : Working s t X) (low : a < 2 ^ 31)
    (mapped : (s.proc.pgdir.flat (vpn a)).mapped = true) (safe : ¬ s.fatal a) :
    Sat (load false a) t (fun b u => b = s.peek a ∧ Working s u X ∧ u.holds a)
      (fun _ _ => False) := by
  refine (load_steady false a).sat ?_ N
  have marks : Sat (@load .stop false a) t (fun _ u => u.holds a)
      (fun e _ => e = .nullPte ∨ e = .exit) := by
    unfold load
    refine .seq ((access_recrypt (w.sound sound) false a).and (access_spec false t a)) ?_ ?_
    · rintro f u ⟨⟨_, _, here, _⟩, _⟩
      exact here
    · rintro e u ⟨_, _, ⟨null, _⟩ | ⟨exit, _⟩⟩
      · exact Or.inl null
      · exact Or.inr exit
  refine (((load_working sound w low).and (load_solid tabled w a)).and marks).mono ?_ ?_
  · rintro b u ⟨⟨⟨is, _, w⟩, _⟩, here⟩
    exact ⟨is, w, here⟩
  · rintro e u ⟨⟨stop, solid⟩, null | exit⟩
    · exact solid null
    · exact safe ((stop exit).1 mapped)

/-- No page fault on the string ends the process. -/
theorem Reads.calm (sound : s.Sound) (tabled : s.proc.Tabled) (str : s.IsStr a n)
    (safe : ∀ k ≤ n, ¬ s.fatal (a + k)) :
    Reads s (fun t => Working s t X) (fun _ _ => False) a n := by
  have size : s.proc.sz ≤ 2 ^ 31 := sound.size
  have below := str.below
  intro k inside t w
  rw [show uint (a + k) = a + k from Nat.mod_eq_of_lt (by omega)]
  exact (load_calm N sound tabled w (by omega) (str.mapped k inside) (safe k inside)).imp
    fun _ _ done => ⟨done.1, done.2.1⟩

end Copy

/-- An argument of `exec` that wraps around below the devices, for a program of two pages, while
the word at address 0 names the frame `f` of page table `j`: its first page goes there. -/
structure Aimed (s : St) (arg len f j : Nat) : Prop where
  str : s.IsStr arg len
  safe : ∀ k ≤ len, ¬ s.fatal (arg + k)
  long : pushAt (2 * 4096) len + PGSIZE = DEVSPACE
  page : arg % 4096 = 0
  odd : ∀ k < 4096, (s.peek (arg + k)).toNat % 2 = 1
  usable : (Pte.ofWord (s.word 0)).usable = true
  frame : (Pte.ofWord (s.word 0)).ppn = f
  table : (s.proc.pgdir.tabs j).map PgTab.frame = some f
  only : ∀ i, (s.proc.pgdir.tabs i).map PgTab.frame = some f → i = j
  away : vpn arg / 1024 ≠ j
  apart : (s.proc.pgdir.flat (vpn arg)).ppn ≠ f

section Exec
variable {s t : St} {X : Multiset Nat} {arg len f j : Nat} {d : PgDir} {N : NullPte}

/-- The null pointer reads as the word at address 0. -/
def ReadsWord (N : NullPte) (s : St) : Prop :=
  ∀ X t, Working s t X →
    Sat N.read t (fun pte u => pte = .ofWord (s.word 0) ∧ Working s u X) (fun _ _ => False)

theorem Aimed.length (aimed : Aimed s arg len f j) (sound : s.Sound) : 8192 ≤ len ∧ len < 2 ^ 31 := by
  have size : s.proc.sz ≤ 2 ^ 31 := sound.size
  have below := aimed.str.below
  have long := aimed.long
  simp only [pushAt, uint, DEVSPACE, PGSIZE] at long
  omega

/-- A page of the argument is copied over the page table. -/
theorem Aimed.strews (aimed : Aimed s arg len f j) (sound : s.Sound) (tabled : s.proc.Tabled)
    {va : Nat} (aligned : va % 4096 = 0) (w : Working s t X) :
    Sat (strayLoop (fun i => load false (uint (arg + i))) f va 4096 0) t
      (fun _ u => ∃ r, Working s r X ∧ Strewn r f j 4096 u) (fun _ _ => False) := by
  have size : s.proc.sz ≤ 2 ^ 31 := sound.size
  obtain ⟨long, short⟩ := aimed.length sound
  have below := aimed.str.below
  have same : ∀ k < 4096, vpn (arg + k) = vpn arg := by
    intro k few
    have page := aimed.page
    simp only [vpn, PGSIZE]
    omega
  have mapped : (s.proc.pgdir.flat (vpn arg)).mapped = true := aimed.str.mapped 0 (Nat.zero_le _)
  have half : vpn arg < 2 ^ 19 := by
    simp only [vpn, PGSIZE]
    omega
  -- The first byte may take a page fault; from then on the page of the string is present.
  rw [strayLoop, sat_bind]
  dsimp only
  rw [show uint (arg + 0) = arg from Nat.mod_eq_of_lt (by omega)]
  refine (load_calm N sound tabled w (by omega) mapped (aimed.safe 0 (Nat.zero_le _))).imp ?_
  rintro _ r ⟨rfl, w, here⟩
  have ppn : (r.proc.pgdir.flat (vpn arg)).ppn ≠ f := by
    rw [w.dir.ppn]
    exact aimed.apart
  have plain : ∀ k < 4096,
      r.phys.bytes (r.proc.pgdir.flat (vpn arg)).ppn (slot (arg + k)) = s.peek (arg + k) := by
    intro k few
    have clear := ((w.sound sound).dir.tidy (vpn arg)).clear here
    rw [St.peek, same k few, ← w.plain _ half mapped, St.plain, clear]
    rfl
  have table := (w.dir.tabs j).trans aimed.table
  have only : ∀ i, (r.proc.pgdir.tabs i).map PgTab.frame = some f → i = j := fun i is =>
    aimed.only i ((w.dir.tabs i).symm.trans is)
  rw [sat_bind, sat_modify]
  refine (strayLoop_strews (r := r) aligned table only
    (fun k few u strewn => ?_) 4095 rfl
    ((Strewn.refl r f j).poke aligned (aimed.odd 0 (by decide)) table only)).imp
    fun _ u strewn => ⟨r, w, strewn⟩
  refine (load_steady false _).sat ((strewn.load (a := arg + k) (by omega) ?_ ?_ ?_).imp ?_) N
  · rw [same k few]
    exact aimed.away
  · rw [same k few]
    exact here
  · rw [same k few]
    exact ppn
  · rintro _ v ⟨rfl, strewn⟩
    rw [same k few, plain k few]
    exact ⟨aimed.odd k few, strewn⟩

/-- `copyout` refuses a page of the kernel. -/
theorem copyoutLoop_guarded {src : Nat → K UInt8} {va left i : Nat} {pte : Pte}
    (page : pgRoundDown va = va) (walk : walkpgdir d va = some pte) (guard : pte.has PTE_U = false)
    (more : 0 < left) (fuel : Nat) :
    Sat (copyoutLoop d src (fuel + 1) va left i) t (fun ok u => ok = false ∧ u = t)
      (fun _ _ => False) := by
  rw [copyoutLoop, if_pos more]
  dsimp only
  rw [page, sat_bind, uva2ka, sat_bind, derefPte, walk]
  dsimp only
  rw [sat_pure]
  split
  · rw [if_neg (by rw [guard]; decide)]
    exact ⟨rfl, rfl⟩
  · exact ⟨rfl, rfl⟩

/-- The copy of such an argument fails after its first page. -/
theorem Aimed.copyout (aimed : Aimed s arg len f j) (sound : s.Sound) (tabled : s.proc.Tabled)
    (reads : ReadsWord N s) (kernel : d.KernelTables) (dir : d.Sound) (w : Working s t X) {va : Nat}
    (place : va + PGSIZE = DEVSPACE) :
    Sat (copyout d va (fun i => load false (uint (arg + i))) (len + 1)) t
      (fun ok u => ok = false ∧ ∃ r, Working s r X ∧ Strewn r f j 4096 u) (fun _ _ => False) := by
  obtain ⟨left, length⟩ : ∃ left, len + 1 = left + 1 + 4096 :=
    ⟨len - 4096, by have := aimed.length sound; omega⟩
  have aligned : va % 4096 = 0 := by
    simp only [PGSIZE, DEVSPACE] at place
    omega
  have page : pgRoundDown va = va := by
    simp only [pgRoundDown, PGSIZE]
    omega
  have between : KERNBASE + PHYSTOP ≤ va ∧ va < DEVSPACE := by
    simp only [KERNBASE, PHYSTOP, PGSIZE, DEVSPACE] at place ⊢
    omega
  have none : walkpgdir d va = none :=
    (kernel.walk (le_trans (by decide) between.1) (lt_trans between.2 (by decide))).mpr between
  obtain ⟨pte, device⟩ : ∃ pte, walkpgdir d DEVSPACE = some pte := by
    rw [← Option.ne_none_iff_exists', ne_eq, kernel.walk (by decide) (by decide)]
    decide
  have guard : pte.has PTE_U = false := by
    rw [← PgDir.flat_of_walk device]
    exact dir.guarded _ (by decide)
  have next : uint (va + PGSIZE) = DEVSPACE := by
    rw [place]
    rfl
  have whole : min (PGSIZE - (va - va)) (left + 1 + 4096) = 4096 := by
    rw [Nat.sub_self, Nat.sub_zero]
    exact Nat.min_eq_left (Nat.le_add_left _ _)
  obtain ⟨fuel, rounds⟩ : ∃ fuel, (left + 1 + 4096) / PGSIZE + 3 = fuel + 1 + 1 := ⟨_, rfl⟩
  rw [Xv6.copyout, length, rounds, copyoutLoop, if_pos (Nat.succ_pos _)]
  dsimp only
  rw [page, sat_bind, uva2ka, sat_bind, derefPte, none]
  dsimp only
  refine (reads X t w).imp ?_
  rintro _ u ⟨rfl, w⟩
  obtain ⟨mapped, user⟩ := Pte.usable_iff.mp aimed.usable
  rw [if_pos mapped, if_pos user, sat_pure, aimed.frame]
  dsimp only
  rw [whole, moveOut, page, none, next, Nat.add_sub_cancel]
  dsimp only
  refine .bind (aimed.strews sound tabled aligned w) fun _ v strewn => ?_
  refine (copyoutLoop_guarded (by decide) device guard (Nat.succ_pos left) fuel).imp ?_
  rintro ok _ ⟨refused, rfl⟩
  exact ⟨refused, strewn⟩

/-- `exec` fails, and all entries of the page table are present. -/
theorem exec_overwrites (aimed : Aimed s arg len f j) (sound : s.Sound) (tabled : s.proc.Tabled)
    (reads : ReadsWord N s) (namei : List UInt8 → Option Inode) {path n : Nat} {ip : Inode}
    (name : s.IsStr path n) (safe : ∀ k ≤ n, ¬ s.fatal (path + k))
    (found : namei (s.text path 0 n) = some ip) (executable : ip.Executable)
    (bare : (ElfHdr.parse (ip.data.take 52)).phnum = 0) (enough : 1027 ≤ s.phys.freelist.length)
    (accepts : ∀ f ∈ (s.phys.freelist : Multiset Nat) + s.proc.pgdir.frames,
      s.phys.image.accepts f) :
    Sat (exec namei path [arg]) s (fun r t => r = -1 ∧ t.proc.sz = s.proc.sz ∧
      ∀ v, v / 1024 = j → (t.proc.pgdir.flat v).has PTE_P = true) (fun _ _ => False) := by
  refine exec_through sound name (W := fun u => Working s u 0) (.calm N sound tabled name safe)
    (Working.refl s).rewind (fun u w none => absurd executable (none ip found))
    fun u other w is _ => ?_
  cases found.symm.trans is
  have free : u.phys.freelist.length = s.phys.freelist.length := by
    have sum := w.moves.sum
    rw [w.dir.frames, add_zero] at sum
    exact congrArg Multiset.card (add_right_cancel sum)
  have pages : ip.imagePages = 0 := by
    rw [Inode.imagePages, bare, imageSize]
    rfl
  rw [execImage_eq, sat_bind, onPhys, sat_zoom]
  have sound' := w.sound sound
  refine (((execSpace_bare bare (by omega) sound'.free).and (execSpace_spec rfl sound'.free)).and
    (execSpace_tables ip _ u.phys)).mono ?_ (fun _ _ stop => stop.1.1.elim)
  rintro (_ | ⟨sz, d⟩) m ⟨⟨built, _, space⟩, tables⟩
  · exact absurd rfl built
  obtain ⟨moves, rfl, stacked⟩ := space sz d rfl
  have w := w.phys sound moves
  obtain ⟨long, short⟩ := aimed.length sound
  have calm := fun X => Reads.calm (X := X) N sound tabled aimed.str aimed.safe
  have place : uint ((ip.imagePages + 2) * 4096 + 2 ^ 32 - (len + 1)) / 4 * 4 + PGSIZE = DEVSPACE := by
    rw [pages]
    exact aimed.long
  dsimp only
  rw [execRest, sat_bind, execStack, sat_bind, execArgs, if_neg (by decide), sat_bind]
  refine ((calm _).strlen sound aimed.str w).imp ?_
  rintro _ v ⟨rfl, w⟩
  dsimp only
  rw [sat_bind]
  refine ((calm _).strlen sound aimed.str w).imp ?_
  rintro _ v ⟨rfl, w⟩
  rw [sat_bind]
  refine (aimed.copyout sound tabled reads (tables _ d rfl) stacked.sound w place).imp ?_
  rintro _ v ⟨rfl, r, w, strewn⟩
  rw [if_neg (by decide), sat_pure]
  dsimp only
  rw [sat_pure]
  dsimp only
  rw [sat_bind, onPhys, sat_zoom]
  have frees : ∀ f ∈ (v.phys.freelist : Multiset Nat) + d.frames,
      v.phys.image.frees (fun _ => False) f := by
    rw [strewn.free, strewn.image]
    intro f member
    refine w.moves.frees (E := fun _ => False) (fun f held => Or.inl (accepts f held)) f ?_
    rw [Multiset.mem_add] at member ⊢
    exact member.imp_right fun own => Multiset.mem_add.mpr (Or.inr own)
  refine (freevm_frees (E := fun _ => False) frees).mono (fun _ m _ => ?_) (fun _ _ stop => stop)
  exact ⟨rfl, strewn.sz.trans w.sz, fun v mine => strewn.struck v mine (by omega)⟩

end Exec

/-- The null pointer of the kernel, while page 0 is mapped. -/
theorem readsWord_userWord {s : St} (sound : s.Sound) (tabled : s.proc.Tabled)
    (mapped : (s.proc.pgdir.flat 0).mapped = true) (safe : ¬ s.fatal 0) :
    ReadsWord .userWord s := by
  have byte : ∀ a < 4, ∀ X t, Working s t X → Sat (@load .stop false (uint a)) t
      (fun b u => b = s.peek a ∧ Working s u X) (fun _ _ => False) := by
    intro a few X t w
    have page : vpn a = 0 := by
      simp only [vpn, PGSIZE]
      omega
    rw [show uint a = a from Nat.mod_eq_of_lt (by omega)]
    refine (load_calm .stop sound tabled w (by omega) (by rwa [page]) ?_).imp
      fun _ _ done => ⟨done.1, done.2.1⟩
    rw [St.fatal, page]
    exact safe
  intro X t w
  change Sat (do return .ofWord (← loadWord 0) : K Pte) t _ _
  rw [loadWord]
  simp only [bind_assoc, pure_bind]
  refine .bind (byte 0 (by decide) X t w) ?_
  rintro _ t ⟨rfl, w⟩
  refine .bind (byte 1 (by decide) X t w) ?_
  rintro _ t ⟨rfl, w⟩
  refine .bind (byte 2 (by decide) X t w) ?_
  rintro _ t ⟨rfl, w⟩
  refine .bind (byte 3 (by decide) X t w) ?_
  rintro _ t ⟨rfl, w⟩
  exact ⟨rfl, w⟩

section Wide

/-- A process of 8196 pages. Page 0 holds the word `0x04E28007`, which reads as an entry for the
frame 20008, and a string fills the other pages. The last eight pages are in the clock; the other
pages of the string are encrypted. -/
def wideText (v : Nat) : Page := fun k =>
  if v = 0 then [0x07, 0x80, 0xE2, 0x04].getD k.val 0 else if v = 8195 ∧ k.val = 4095 then 0 else 97

def wideShut (v : Nat) : Bool := 0 < v && v < 8188

def widePage (v : Nat) : Page := if wideShut v then (wideText v).flip else wideText v

def wideBytes (f : Nat) : Page := widePage (f - 10000)

def widePtes (v : Nat) : Pte :=
  if v < 8196 then
    if wideShut v then (userPte (10000 + v)).sealed else userPte (10000 + v)
  else .zero

def wideDir : PgDir :=
  ⟨20100, fun i => if i < 9 then some ⟨20000 + i, fun k => widePtes (1024 * i + k)⟩ else none⟩

def widePhys : Phys := ⟨smallImage, wideBytes, List.range' 30000 1100⟩

def wideSys : Sys :=
  Sys.solo widePhys
    ⟨0x2004000, wideDir, fun k => (8188 + k) * 4096, 0, fun _ => false, [], 0, 0⟩ 20101

theorem wideDir_flat (v : Nat) : wideDir.flat v = widePtes v := by
  simp only [PgDir.flat, wideDir]
  by_cases low : v / 1024 < 9
  · rw [if_pos low]
    dsimp only
    rw [Nat.div_add_mod]
  · rw [if_neg low, widePtes, if_neg (by omega)]

theorem widePtes_of_lt {v : Nat} (low : v < 8196) :
    (widePtes v).ppn = 10000 + v ∧ (widePtes v).has PTE_E = wideShut v ∧
      (widePtes v).mapped = true ∧ (widePtes v).has PTE_U = true ∧ (widePtes v).Tidy := by
  rw [widePtes, if_pos low]
  cases shut : wideShut v with
  | true =>
    rw [if_pos rfl]
    exact ⟨userPte_ppn _, by simp, by simp [Pte.mapped], by simp [userPte_has],
      .sealed (by simp [userPte_has])⟩
  | false =>
    rw [if_neg (by decide)]
    exact ⟨userPte_ppn _, by simp [userPte_has], userPte_mapped _, by simp [userPte_has],
      userPte_tidy _⟩

theorem widePtes_of_le {v : Nat} (high : 8196 ≤ v) : widePtes v = .zero := if_neg (by omega)

theorem wideDir_sound : wideDir.Sound := by
  refine ⟨fun v => ?_, fun v kernel => ?_⟩
  · rw [wideDir_flat]
    by_cases low : v < 8196
    · exact (widePtes_of_lt low).2.2.2.2
    · exact Or.inl (widePtes_of_le (by omega))
  · rw [wideDir_flat, widePtes_of_le (by omega)]
    exact Pte.has_zero _

theorem wideDir_frames : wideDir.frames =
    ((20100 :: (List.range' 20000 9 ++ List.range' 10000 8196) : List Nat) : Multiset Nat) := by
  have tables : Tally.total 1024 wideDir.tabFrame = (List.range' 20000 9 : Multiset Nat) := by
    rw [Tally.total_prefix (k := 9) (by omega) (fun i low _ => ?_)]
    · refine Tally.total_range' fun i low => ?_
      simp only [PgDir.tabFrame, wideDir, if_pos low, Option.elim_some]
    · simp only [PgDir.tabFrame, wideDir, if_neg (show ¬ i < 9 by omega), Option.elim_none]
  have pages : (Tally.total (2 ^ 19) fun v => (wideDir.flat v).frames) =
      (List.range' 10000 8196 : Multiset Nat) := by
    rw [Tally.total_prefix (k := 8196) (by omega) (fun v low _ => ?_)]
    · refine Tally.total_range' fun v low => ?_
      obtain ⟨ppn, _, mapped, _⟩ := widePtes_of_lt low
      rw [wideDir_flat, Pte.frames, if_pos mapped, ppn]
    · rw [wideDir_flat, widePtes_of_le low, Pte.zero_frames]
  rw [PgDir.frames, tables, pages]
  rfl

theorem wideSys_pool : soloPool wideSys.phys (wideSys.slots 0).proc 20101 =
    ((List.range' 30000 1100 ++ (20101 :: 20100 :: (List.range' 20000 9 ++ List.range' 10000 8196)) :
      List Nat) : Multiset Nat) := by
  have frames : (wideSys.slots 0).proc.pgdir.frames = _ := wideDir_frames
  rw [soloPool, frames]
  rfl

theorem wideSys_owned : wideSys.Owned (soloPool wideSys.phys (wideSys.slots 0).proc 20101) 0 := by
  refine solo_owned wideDir_sound (by decide) ?_ fun f member => ?_
  · rw [wideSys_pool, Multiset.coe_nodup, List.nodup_append]
    refine ⟨List.nodup_range', ?_, ?_⟩
    · simp only [List.nodup_cons, List.mem_cons, List.mem_append, List.mem_range'_1, not_or,
        List.nodup_append]
      refine ⟨⟨by omega, by omega, by omega⟩, ⟨by omega, by omega⟩, List.nodup_range',
        List.nodup_range', ?_⟩
      omega
    · intro a left b right
      simp only [List.mem_cons, List.mem_append, List.mem_range'_1] at left right
      omega
  · rw [wideSys_pool] at member
    simp only [Multiset.mem_coe, List.mem_append, List.mem_cons, List.mem_range'_1] at member
    simp only [PHYSTOP, PGSIZE]
    omega

theorem wideSys_shaped : wideSys.Each Proc.Shaped := by
  intro i _ _
  have flat : ∀ v, (wideSys.slots i).proc.pgdir.flat v = widePtes v := wideDir_flat
  refine ⟨fun v _ => ?_, fun u _ _ _ mapped guard => ?_⟩
  · rw [flat]
    change _ ↔ v * 4096 < 0x2004000
    by_cases low : v < 8196
    · exact iff_of_true (widePtes_of_lt low).2.2.1 (by omega)
    · rw [widePtes_of_le (by omega), Pte.zero_mapped]
      exact iff_of_false (by decide) (by omega)
  · rw [flat] at mapped guard
    by_cases low : u < 8196
    · rw [(widePtes_of_lt low).2.2.2.1] at guard
      cases guard
    · rw [widePtes_of_le (by omega), Pte.zero_mapped] at mapped
      cases mapped

theorem wideSys_tabled : (wideSys.view 0).proc.Tabled := by
  refine ⟨Nat.zero_lt_succ _, fun k few => ?_, fun k few _ => ?_⟩
  · change (8188 + k) * 4096 < _
    simp only [KERNBASE, CLOCKSIZE] at few ⊢
    omega
  · have page : vpn ((wideSys.view 0).proc.clock k) = 8188 + k := by
      change vpn ((8188 + k) * 4096) = _
      simp only [vpn, PGSIZE, CLOCKSIZE] at few ⊢
      omega
    have mapped : ((wideSys.view 0).proc.pgdir.flat (vpn ((wideSys.view 0).proc.clock k))).mapped = true := by
      rw [page]
      change (wideDir.flat _).mapped = true
      rw [wideDir_flat]
      exact (widePtes_of_lt (by simp only [CLOCKSIZE] at few; omega)).2.2.1
    rw [PgDir.walk_of_mapped mapped]
    rfl

theorem wideSys_plain {v : Nat} (low : v < 8196) : (wideSys.view 0).plain v = wideText v := by
  have entry : (wideSys.view 0).proc.pgdir.flat v = widePtes v := wideDir_flat v
  obtain ⟨ppn, coded, _⟩ := widePtes_of_lt low
  have phys : (wideSys.view 0).phys = widePhys := rfl
  rw [St.plain, entry, ppn, coded, phys, widePhys]
  dsimp only
  rw [wideBytes, Nat.add_sub_cancel_left, widePage]
  cases wideShut v with
  | true => exact Page.flip_flip _
  | false => rfl

theorem wideSys_peek {a : Nat} (below : a < 0x2004000) :
    (wideSys.view 0).peek a = wideText (a / 4096) (slot a) := by
  rw [St.peek, vpn_of_word (by omega), wideSys_plain (by omega)]

theorem wideSys_mapped {a : Nat} (below : a < 0x2004000) :
    ((wideSys.view 0).proc.pgdir.flat (vpn a)).mapped = true := by
  change (wideDir.flat _).mapped = true
  rw [vpn_of_word (by omega), wideDir_flat]
  exact (widePtes_of_lt (by omega)).2.2.1

theorem wideSys_safe {a : Nat} (below : a < 0x2004000) : ¬ (wideSys.view 0).fatal a := by
  rw [St.fatal, vpn_of_word (by omega), wideSys_plain (by omega)]
  simp only [wideText]
  split
  · decide
  · rw [if_neg (by simp)]
    decide

/-- The path is at address 0. -/
theorem wideSys_path : (wideSys.view 0).IsStr 0 4 := by
  have peek : ∀ k ≤ 4, (wideSys.view 0).peek (0 + k) = wideText 0 (slot (0 + k)) := by
    intro k few
    rw [wideSys_peek (by omega), show (0 + k) / 4096 = 0 by omega]
  refine ⟨by decide, fun k few => wideSys_mapped (by omega), fun k few => ?_, ?_⟩
  · rw [peek k (by omega)]
    obtain rfl | rfl | rfl | rfl : k = 0 ∨ k = 1 ∨ k = 2 ∨ k = 3 := by omega
    all_goals decide
  · rw [peek 4 le_rfl]
    decide

theorem wideSys_argument : (wideSys.view 0).IsStr 0x1000 0x2002FFF := by
  refine ⟨by decide, fun k few => wideSys_mapped (by omega), fun k few => ?_, ?_⟩
  · rw [wideSys_peek (by omega), wideText, if_neg (by omega), if_neg]
    · decide
    · simp only [slot]
      omega
  · rw [wideSys_peek (by decide)]
    decide

theorem wideSys_aimed : Aimed (wideSys.view 0) 0x1000 0x2002FFF 20008 8 := by
  have word : (wideSys.view 0).word 0 = 0x04E28007 := by
    simp only [St.word]
    rw [wideSys_peek (by decide), wideSys_peek (by decide), wideSys_peek (by decide),
      wideSys_peek (by decide)]
    decide
  have frame : ∀ i, ((wideSys.view 0).proc.pgdir.tabs i).map PgTab.frame =
      if i < 9 then some (20000 + i) else none := by
    intro i
    change (wideDir.tabs i).map PgTab.frame = _
    simp only [wideDir]
    split <;> rfl
  constructor
  · exact wideSys_argument
  · exact fun k few => wideSys_safe (by omega)
  · decide
  · decide
  · intro k few
    rw [wideSys_peek (by omega), wideText, if_neg (by omega), if_neg (by omega)]
    decide
  · rw [word]
    decide
  · rw [word]
    decide
  · rw [frame]
    decide
  · intro i is
    rw [frame] at is
    split at is
    · have same := Option.some.inj is
      omega
    · cases is
  · decide
  · change (wideDir.flat _).ppn ≠ _
    rw [wideDir_flat, (widePtes_of_lt (by decide)).1]
    decide

/-- `exec` with a path and one argument in the memory of the process fails, and the page behind
the end of its memory is mapped. -/
theorem long_argument_breaks_shape :
    (∃ pool, wideSys.Owned pool 0) ∧ wideSys.Each Proc.Shaped ∧
    ∃ t, (@exec .userWord (fun _ => some bareFile) 0 [0x1000]).run (wideSys.view 0) = .ok (-1) t ∧
      ¬ t.proc.Shaped := by
  have sound := wideSys_owned.view (i := 0) (by decide) (live_used rfl)
  have reads := readsWord_userWord sound wideSys_tabled (wideSys_mapped (a := 0) (by decide))
    (wideSys_safe (by decide))
  have accepts : ∀ f ∈ ((wideSys.view 0).phys.freelist : Multiset Nat) +
      (wideSys.view 0).proc.pgdir.frames, (wideSys.view 0).phys.image.accepts f := by
    intro f held
    have pool : f ∈ soloPool wideSys.phys (wideSys.slots 0).proc 20101 := by
      rw [soloPool]
      rw [Multiset.mem_add] at held ⊢
      exact held.imp_right fun own => Multiset.mem_add.mpr (Or.inr own)
    have range := wideSys_owned.range f pool
    rw [wideSys_pool] at pool
    simp only [Multiset.mem_coe, List.mem_append, List.mem_cons, List.mem_range'_1] at pool
    have low : 1000 ≤ f := by omega
    exact ⟨by omega, low, range⟩
  have enough : 1027 ≤ (wideSys.view 0).phys.freelist.length := by
    change 1027 ≤ (List.range' 30000 1100).length
    rw [List.length_range']
    decide
  refine ⟨⟨_, wideSys_owned⟩, wideSys_shaped, ?_⟩
  have path := wideSys_path
  have safe : ∀ k ≤ 4, ¬ (wideSys.view 0).fatal (0 + k) := fun k few => wideSys_safe (by omega)
  have aimed := wideSys_aimed
  have tabled := wideSys_tabled
  have size : (wideSys.view 0).proc.sz = 0x2004000 := rfl
  -- From here on the state is a variable, so that nothing runs `exec` on it.
  generalize wideSys.view 0 = s at *
  obtain ⟨r, t, run, rfl, sz, struck⟩ := (exec_overwrites aimed sound tabled reads
    (fun _ => some bareFile) path safe rfl ⟨by decide, by decide⟩ (by decide) enough accepts).returns
  refine ⟨t, run, fun shaped => ?_⟩
  have below := (shaped.mapped 8196 (by decide)).mp (Pte.mapped_of_present (struck 8196 (by decide)))
  rw [sz, size] at below
  exact absurd below (by decide)

end Wide

end Xv6
