import Xv6.Mapping
import Xv6.RangeEncryption

/-! When `exec` succeeds. With free frames enough, a path on a page that is present,
and a program whose one segment has no bytes in the file, every step of `exec` returns,
and so does the release of the old image. -/
namespace Xv6
open PteBit Control

/-- The pages of the string are present. -/
def St.Present (t : St) (a len : Nat) : Prop :=
  ∀ k ≤ len, (t.proc.pgdir.flat (vpn (a + k))).has PTE_P = true

/-- Reading a byte of a page that is present takes no page fault. -/
theorem load_of_present {t : St} {a : Nat} (low : a < 2 ^ 32)
    (here : (t.proc.pgdir.flat (vpn a)).has PTE_P = true) :
    Sat (load false (uint a)) t (fun _ u =>
      (∀ v, (u.proc.pgdir.flat v).has PTE_P = (t.proc.pgdir.flat v).has PTE_P) ∧
      u.proc.head = t.proc.head ∧ u.phys = t.phys) (fun _ _ => False) := by
  have same : uint a = a := Nat.mod_eq_of_lt low
  have resident := Option.isSome_iff_ne_none.mp (resident_present.mpr here)
  rw [same, load]
  refine .seq (access_spec false t a) ?_ (fun e u stop => resident stop.1)
  rintro f u (⟨_, rfl, _⟩ | ⟨fault, _⟩)
  · exact ⟨fun v => touched_has t _ _ (by decide), rfl, rfl⟩
  · exact absurd fault resident

/-- The kernel works for the process while the strings it reads are present. -/
structure Reading (s : St) (X : Multiset Nat) (strings : List Nat) (t : St) : Prop where
  work : Working s t X
  present : ∀ a ∈ strings, ∀ len, s.IsStr a len → t.Present a len

section Reading
variable {s t : St} {X Y : Multiset Nat} {strings : List Nat}

theorem Reading.phys (reading : Reading s X strings t) (sound : s.Sound) {m : Phys}
    (moves : Moves t.phys m X Y) : Reading s Y strings { t with phys := m } :=
  ⟨reading.work.phys sound moves, reading.present⟩

theorem Reads.resident (sound : s.Sound) {a len : Nat} (member : a ∈ strings)
    (str : s.IsStr a len) : Reads s (Reading s X strings) (fun _ _ => False) a len := by
  intro k inside t reading
  have size : s.proc.sz ≤ 2 ^ 31 := sound.size
  have below := str.below
  refine ((load_str sound str reading.work inside).and (load_of_present (by omega)
    (reading.present a member len str k inside))).mono ?_ (fun _ _ stop => stop.2)
  rintro b u ⟨⟨rfl, w⟩, same, _⟩
  refine ⟨rfl, w, fun arg among n str j inside => ?_⟩
  rw [same]
  exact reading.present arg among n str j inside

theorem Follows.reading (sound : s.Sound) {d : PgDir} (dir : d.Sound) {R : Nat → Prop} :
    Follows (fun _ t => Reading s d.frames strings t) d R :=
  fun img t x b among word usable reading =>
    ⟨Follows.working sound dir img t x b among word usable reading.work, reading.present⟩

end Reading

section Stack
variable {s t : St} {d : PgDir} {n : Nat}

theorem Stacked.backs (stacked : Stacked d n) {base va len : Nat} (start : base = (n + 1) * 4096)
    (above : base ≤ va) (fits : va + len ≤ base + 4096) : d.Backs va len := by
  intro x low high _
  obtain ⟨f, entry⟩ := stacked.stack
  rw [show x / 4096 = n + 1 by omega, entry]
  exact userPte_usable f

/-- Short strings fit on the stack page. -/
theorem Stacked.backsStrings (stacked : Stacked d n) (sp : Nat) {base : Nat}
    {strs : List (List UInt8)} (start : base = (n + 1) * 4096) (short : ∀ str ∈ strs, str.length ≤ 100)
    (room : base + strs.length * 104 ≤ sp) (top : sp ≤ base + 4096) :
    d.BacksStrings strs sp ∧ sp ≤ pushedTo strs sp + strs.length * 104 ∧ pushedTo strs sp ≤ sp := by
  have low : (n + 2) * 4096 ≤ 2 ^ 31 := stacked.low
  induction strs generalizing sp with
  | nil => exact ⟨trivial, Nat.le_add_right _ _, le_rfl⟩
  | cons str strs ih =>
    have few := short str List.mem_cons_self
    rw [List.length_cons] at room ⊢
    have push : pushAt sp str.length = (sp - (str.length + 1)) / 4 * 4 := by
      simp only [pushAt, uint]
      omega
    have lowest : pushedTo (str :: strs) sp = pushedTo strs (pushAt sp str.length) := by
      rw [pushedTo, pushStrings]
      exact pushStrings_fst _ _ _ _
    rw [lowest, PgDir.BacksStrings, push]
    obtain ⟨backs, above, below⟩ := ih ((sp - (str.length + 1)) / 4 * 4)
      (fun str member => short str (List.mem_cons_of_mem _ member)) (by omega) (by omega)
    exact ⟨⟨stacked.backs start (by omega) (by omega), backs⟩, by omega, by omega⟩

theorem Stacked.backsStack (stacked : Stacked d n) {strs : List (List UInt8)}
    (short : ∀ str ∈ strs, str.length ≤ 100) (few : strs.length ≤ MAXARG) :
    d.BacksStack strs ((n + 2) * 4096) := by
  have low : (n + 2) * 4096 ≤ 2 ^ 31 := stacked.low
  have count := few
  simp only [MAXARG] at count
  obtain ⟨base, start⟩ : ∃ base, base = (n + 1) * 4096 := ⟨_, rfl⟩
  have whole : (n + 2) * 4096 = base + 4096 := by omega
  rw [whole] at low ⊢
  obtain ⟨backs, above, below⟩ := stacked.backsStrings _ start short (by omega) le_rfl
  refine ⟨few, backs, ?_⟩
  have top : stackTop strs (base + 4096) =
      pushedTo strs (base + 4096) - (3 + strs.length + 1) * 4 := by
    simp only [stackTop, uint]
    omega
  rw [top]
  exact stacked.backs start (by omega) (by omega)

theorem execStack_returns (sound : s.Sound) (stacked : Stacked d n) {path len : Nat}
    {argv : List Nat} {strs : List (List UInt8)} (name : s.IsStr path len)
    (spells : List.Forall₂ s.Spells argv strs) (short : ∀ str ∈ strs, str.length ≤ 100)
    (few : strs.length ≤ MAXARG) (reading : Reading s d.frames (path :: argv) t) :
    Sat (execStack d ((n + 2) * 4096) path argv) t
      (fun r u => r ≠ none ∧ Working s u d.frames) (fun _ _ => False) := by
  have backs := stacked.backsStack short few
  refine (execStack_keeps (fun _ => 0) sound stacked.sound (.reading sound stacked.sound) name
    spells (fun arg member k str _ => .resident sound member str) _
    (fun stray => absurd stray backs.not_strays) reading).imp (fun r u built => ?_)
  obtain ⟨_, reading, _⟩ := built.kept
  exact ⟨built.backs.mpr backs, reading.work⟩

theorem execCommit_returns (sound : s.Sound) (stacked : Stacked d n) (w : Working s t d.frames)
    (accepts : ∀ f ∈ (s.phys.freelist : Multiset Nat) + s.proc.pgdir.frames,
      s.phys.image.accepts f) (sp entry : Nat) (name : List UInt8) :
    Sat (execCommit d ((n + 2) * 4096) sp entry name) t (fun _ _ => True) (fun _ _ => False) := by
  have low : (n + 2) * 4096 ≤ 2 ^ 31 := stacked.low
  have nodup : ((t.phys.freelist : Multiset Nat) + d.frames).Nodup :=
    Multiset.nodup_of_le (add_le_add (Multiset.le_add_right _ _) le_rfl) (w.all_nodup sound)
  apply execCommit_through stacked sp entry name nodup
  rw [St.committed]
  obtain ⟨s₁, is⟩ : ∃ s₁ : St, s₁ = ⟨t.phys, t.proc.launched d ((n + 2) * 4096) sp entry name⟩ :=
    ⟨_, rfl⟩
  rw [← is]
  have sound₁ : s₁.Sound := by
    subst is
    exact ⟨stacked.sound, low, nodup⟩
  have first := Recrypt.mencrypted sound₁ 0 n
  have second := first.trans (.mencrypted (first.sound sound₁) ((n + 1) * 4096) 1)
  rw [onPhys, sat_zoom]
  refine (freevm_ends fun f member => .inl ?_).imp (fun _ _ _ => trivial)
  have image : s₁.phys.image = s.phys.image := by
    rw [is]
    exact w.moves.image
  rw [second.moves.image, image]
  apply accepts
  rw [← w.moves.sum]
  exact Multiset.mem_add.mpr (Or.inr (Multiset.mem_add.mpr (Or.inl member)))

end Stack

/-- An executable file whose one segment takes `pages` pages of zeros from address 0. -/
structure Inode.Zeroed (ip : Inode) (pages : Nat) : Prop where
  header : ∃ bs, readi ip 0 52 = some bs ∧ bs.length = 52 ∧ (ElfHdr.parse bs).magic = ELF_MAGIC ∧
    (ElfHdr.parse bs).phnum = 1 ∧ ∃ ps, readi ip (ElfHdr.parse bs).phoff 32 = some ps ∧
      ps.length = 32 ∧ (ProgHdr.parse ps).type = ELF_PROG_LOAD ∧ (ProgHdr.parse ps).vaddr = 0 ∧
      (ProgHdr.parse ps).filesz = 0 ∧ (ProgHdr.parse ps).memsz = pages * 4096
  some : 0 < pages
  few : pages ≤ 1000

section Exec
variable {s t : St} {ip : Inode} {pages : Nat}

/-- A segment whose bytes are all in the file is loaded. -/
theorem loaduvmLoop_returns {m : Phys} {d : PgDir} {addr size sz off k i : Nat} (program : Program d size)
    (inside : addr + sz ≤ size) (last : k = 0 ∨ i + k * 4096 < sz + 4096)
    (held : 0 < sz → off + sz ≤ ip.data.length ∧ off + sz < 2 ^ 32) :
    Sat (loaduvmLoop d addr ip off sz k i) m (fun ok m' => ok = true ∧ m'.freelist = m.freelist)
      (fun _ _ => False) := by
  have low : size ≤ 2 ^ 31 := program.low
  induction k generalizing i m with
  | zero => exact ⟨rfl, rfl⟩
  | succ k ih =>
    obtain ⟨held, word⟩ := held (by omega)
    have here : vpn (uint (addr + i)) * 4096 < size := by
      simp only [vpn, uint, PGSIZE]
      omega
    have read : readi ip (uint (off + i)) (min (sz - i) PGSIZE) =
        some ((ip.data.drop (off + i)).take (min (sz - i) PGSIZE)) := by
      have start : uint (off + i) = off + i := Nat.mod_eq_of_lt (by omega)
      rw [readi, start, if_neg]
      simp only [uint, PGSIZE]
      omega
    rw [loaduvmLoop, PgDir.walk_of_mapped (program.held here).2.1]
    dsimp only
    rw [read, sat_bind, sat_modify, if_neg]
    · refine (ih ?_).imp fun _ _ done => done
      simp only [PGSIZE]
      omega
    · rw [List.length_take, List.length_drop]
      omega

theorem execLoad_returns {m : Phys} {d : PgDir} {off k : Nat} {ps : List UInt8} (blank : d.Blank)
    (nodup : ((m.freelist : Multiset Nat) + d.frames).Nodup)
    (room : Room m d (k + pages)) (some : 0 < pages) (few : pages ≤ 1000)
    (read : readi ip off 32 = .some ps) (whole : ps.length = 32)
    (type : (ProgHdr.parse ps).type = ELF_PROG_LOAD) (vaddr : (ProgHdr.parse ps).vaddr = 0)
    (memsz : (ProgHdr.parse ps).memsz = pages * 4096) (fits : (ProgHdr.parse ps).filesz ≤ pages * 4096)
    (held : 0 < (ProgHdr.parse ps).filesz →
      (ProgHdr.parse ps).off + (ProgHdr.parse ps).filesz ≤ ip.data.length ∧
        (ProgHdr.parse ps).off + (ProgHdr.parse ps).filesz < 2 ^ 32) :
    Sat (execLoad ip 1 off 0 d) m (fun r m' => ∃ d', r = (.some (pages * 4096), d') ∧ Room m' d' k)
      (fun _ _ => False) := by
  have top : uint (0 + pages * 4096) = pages * 4096 := by
    simp only [uint]
    omega
  have free : ∀ v, 0 ≤ v * 4096 → v * 4096 < pages * 4096 → (d.flat v).mapped = false := by
    intro v _ high
    rw [blank.empty v (by omega)]
    exact Pte.zero_mapped
  have count : k + pages = k + (pages * 4096 - pgRoundUp 0 + 4095) / 4096 := by
    simp only [pgRoundUp, uint, PGSIZE]
    omega
  rw [execLoad, read]
  dsimp only
  rw [if_neg (not_not.mpr whole), if_neg (not_not.mpr type), if_neg (by omega), vaddr, memsz, top,
    if_neg (by omega), sat_bind]
  rw [count] at room
  refine ((allocuvm_room room (Nat.zero_le _) (by simp only [KERNBASE]; omega) free).and
    (allocuvm_image blank.image _ m nodup)).mono ?_ (fun _ _ stop => stop.1)
  rintro ⟨sz, d'⟩ m' ⟨⟨rfl, room⟩, _, grown⟩
  obtain ⟨_, program⟩ := grown (by dsimp only; omega)
  dsimp only at program ⊢
  rw [if_neg (by omega), if_neg (by decide), sat_bind, loaduvm, if_neg (by decide)]
  refine (loaduvmLoop_returns program (by omega) (by simp only [PGSIZE]; omega) held).imp ?_
  rintro ok m'' ⟨rfl, same⟩
  exact ⟨d', rfl, by rwa [Room, same]⟩

theorem execImage_returns (sound : s.Sound) {path len : Nat} {argv : List Nat}
    {strs : List (List UInt8)} (name : s.IsStr path len)
    (spells : List.Forall₂ s.Spells argv strs) (short : ∀ str ∈ strs, str.length ≤ 100)
    (args : strs.length ≤ MAXARG) (reading : Reading s 0 (path :: argv) t)
    (accepts : ∀ f ∈ (s.phys.freelist : Multiset Nat) + s.proc.pgdir.frames,
      s.phys.image.accepts f)
    (enough : 1027 + pages ≤ t.phys.freelist.length) {bs ps : List UInt8}
    (some : 0 < pages) (few : pages ≤ 1000) (one : (ElfHdr.parse bs).phnum = 1)
    (read : readi ip (ElfHdr.parse bs).phoff 32 = .some ps) (whole : ps.length = 32)
    (type : (ProgHdr.parse ps).type = ELF_PROG_LOAD) (vaddr : (ProgHdr.parse ps).vaddr = 0)
    (filesz : (ProgHdr.parse ps).filesz = 0) (memsz : (ProgHdr.parse ps).memsz = pages * 4096) :
    Sat (execImage ip (ElfHdr.parse bs) path argv) t (fun r _ => r = 0) (fun _ _ => False) := by
  have apart : ∀ {u : St} {Y : Multiset Nat}, Working s u Y →
      ((u.phys.freelist : Multiset Nat) + Y).Nodup := fun w =>
    Multiset.nodup_of_le (add_le_add (Multiset.le_add_right _ _) le_rfl) (w.all_nodup sound)
  rw [execImage, sat_bind, onPhys, sat_zoom]
  refine ((setupkvm_room (n := 2 + pages) (by omega)).and (setupkvm_spec t.phys)).mono ?_
    (fun _ _ stop => stop.1.elim)
  rintro _ m ⟨⟨d, rfl, free⟩, taken, blank⟩
  have reading := reading.phys sound taken
  dsimp only
  rw [one, sat_bind, onPhys, sat_zoom]
  refine ((execLoad_returns blank (apart reading.work) free some few read whole type vaddr memsz
    (by omega) (by omega)).and
    (execLoad_spec ip 1 _ blank.image m (apart reading.work))).mono ?_ (fun _ _ stop => stop.1.elim)
  rintro r m₁ ⟨⟨d₁, is, left⟩, done⟩
  rw [is] at done ⊢
  have reading := reading.phys sound done.1
  have program := (done.2 (pages * 4096) rfl).2
  have round : pgRoundUp (pages * 4096) = pages * 4096 := by
    simp only [pgRoundUp, uint, PGSIZE]
    omega
  have top : uint (pages * 4096 + 2 * PGSIZE) = (pages + 2) * 4096 := by
    simp only [uint, PGSIZE]
    omega
  have free : ∀ v, pages * 4096 ≤ v * 4096 → v * 4096 < (pages + 2) * 4096 →
      (d₁.flat v).mapped = false := by
    intro v low high
    rw [program.rest v (by omega) low]
    exact Pte.zero_mapped
  have two : 2 = 0 + ((pages + 2) * 4096 - pgRoundUp (pages * 4096) + 4095) / 4096 := by
    rw [round]
    omega
  rw [two] at left
  dsimp only
  rw [round, top, sat_bind, onPhys, sat_zoom]
  refine ((allocuvm_room left (by omega) (by simp only [KERNBASE]; omega) free).and
    (allocuvm_image program _ m₁ (apart reading.work))).mono ?_ (fun _ _ stop => stop.1.elim)
  rintro ⟨sz, d₂⟩ m₂ ⟨⟨rfl, _⟩, moves, grown⟩
  have reading := reading.phys sound moves
  dsimp only at grown ⊢
  obtain ⟨_, program⟩ := grown (by omega)
  have base : (pages + 2) * 4096 - 2 * PGSIZE = pages * 4096 := by
    simp only [PGSIZE]
    omega
  rw [if_neg (by omega), base, sat_bind, onPhys, sat_zoom]
  refine (clearpteu_spec program m₂).mono ?_ (fun _ _ stop => stop.elim)
  rintro d₃ m₃ ⟨rfl, frames, _, stacked⟩
  have reading : Reading s d₃.frames (path :: argv) _ := frames ▸ reading
  refine .bind (execStack_returns sound stacked name spells short args reading) fun r u done => ?_
  cases r with
  | none => exact absurd rfl done.1
  | some out =>
    obtain ⟨sp, called⟩ := out
    dsimp only
    exact .bind (execCommit_returns sound stacked done.2 accepts sp _ called) fun _ _ _ => rfl

theorem exec_returns (sound : s.Sound) {path len : Nat} {argv : List Nat}
    {strs : List (List UInt8)} (name : s.IsStr path len)
    (spells : List.Forall₂ s.Spells argv strs) (short : ∀ str ∈ strs, str.length ≤ 100)
    (args : strs.length ≤ MAXARG)
    (present : ∀ a ∈ path :: argv, ∀ len, s.IsStr a len → s.Present a len)
    (accepts : ∀ f ∈ (s.phys.freelist : Multiset Nat) + s.proc.pgdir.frames,
      s.phys.image.accepts f)
    (enough : 1027 + pages ≤ s.phys.freelist.length) {namei : List UInt8 → Option Inode}
    (found : namei (s.text path 0 len) = .some ip) (zeroed : ip.Zeroed pages) :
    ∃ t, (exec namei path argv).run s = .ok 0 t := by
  obtain ⟨bs, read, whole, magic, one, ps, rest⟩ := zeroed.header
  have size : s.proc.sz ≤ 2 ^ 31 := sound.size
  have below := name.below
  have performed : Sat (exec namei path argv) s (fun r _ => r = 0) (fun _ _ => False) := by
    have start : Reading s 0 (path :: argv) { s with proc := { s.proc with head := 0 } } :=
      ⟨(Working.refl s).rewind, present⟩
    rw [exec, sat_bind, modifyProc, sat_modify]
    refine .bind ((Reads.resident sound List.mem_cons_self name).loadStr name _ (Nat.zero_le len)
      (Or.inl (by omega)) start) ?_
    rintro _ u ⟨rfl, reading⟩
    have w := reading.work
    have free : u.phys.freelist.length = s.phys.freelist.length := by
      have sum := w.moves.sum
      rw [add_zero, w.dir.frames, add_left_inj, Multiset.coe_eq_coe] at sum
      exact sum.length_eq
    rw [found]
    dsimp only
    rw [read]
    dsimp only
    rw [if_neg (not_not.mpr whole), if_neg (not_not.mpr magic)]
    exact execImage_returns sound name spells short args reading accepts (by omega) zeroed.some
      zeroed.few one rest.1 rest.2.1 rest.2.2.1 rest.2.2.2.1 rest.2.2.2.2.1 rest.2.2.2.2.2
  obtain ⟨r, t, run, rfl⟩ := performed.returns
  exact ⟨t, run⟩

end Exec
end Xv6
