import Xv6.ArgumentStack
import Xv6.GrownPages
import Xv6.TableGrowth
import Xv6.WsetListing

/-! Where the kernel reads a page-table entry through a null pointer. `uva2ka` does not check
what `walkpgdir` returns. `mencrypt` comes to an address without a page table behind the end of
a process whose size ends with its last table; `exec` comes to one when an argument string is
so long that the stack pointer passes below 0. -/
namespace Xv6
open PteBit Control

section Range
variable {p : Proc}

/-- The range of `mencrypt` runs from pages of the user to one without a page table. -/
def nullRange (d : PgDir) : Nat → Nat → Prop
  | 0, _ => False
  | n + 1, a => walkpgdir d a = none ∨
      (d.flat (vpn a)).usable = true ∧ nullRange d n (uint (a + PGSIZE))

theorem mencryptCheck_null (d : PgDir) (n a : Nat) (s : St) :
    Sat (mencryptCheck d n a) s (fun r t => ¬ nullRange d n a ∧ r = usableRange d n a ∧ t = s)
      (fun e _ => e = .nullPte ∧ nullRange d n a) := by
  induction n generalizing a with
  | zero => exact ⟨id, rfl, rfl⟩
  | succ n ih =>
    rw [mencryptCheck, sat_bind, sat_uva2ka]
    cases walk : walkpgdir d a with
    | none => exact ⟨rfl, Or.inl walk⟩
    | some pte =>
      have entry := PgDir.flat_of_walk walk
      dsimp only
      cases usable : pte.usable with
      | false =>
        refine ⟨?_, by rw [usableRange, entry, usable]; rfl, rfl⟩
        rintro (missing | ⟨able, _⟩)
        · rw [walk] at missing
          cases missing
        · rw [entry, usable] at able
          cases able
      | true =>
        have later : nullRange d (n + 1) a ↔ nullRange d n (uint (a + PGSIZE)) := by
          rw [nullRange, walk, entry, usable]
          simp only [reduceCtorEq, false_or, true_and]
        rw [later, usableRange, entry, usable, Bool.true_and]
        exact ih (uint (a + PGSIZE))

theorem mencrypt_null (va : Nat) (len : Int) (s : St) :
    HitsNull (mencrypt va len) s ↔ nullRange s.proc.pgdir len.toNat (pgRoundDown va) := by
  apply hitsNull_iff
  rw [mencrypt, sat_bind, sat_get]
  refine .seq (mencryptCheck_null _ _ _ s) ?_ (fun _ _ stop => iff_of_true stop.1 stop.2)
  rintro r t ⟨clear, rfl, rfl⟩
  cases usable : usableRange t.proc.pgdir len.toNat (pgRoundDown va) with
  | false => exact clear
  | true =>
    refine (mencryptLoop_spec _ _ t usable).mono (fun _ _ _ => clear) ?_
    rintro e u ⟨_, _, missing⟩
    rw [tabledRange_of_usable usable] at missing
    cases missing

/-- The range starts in the memory of the process and runs past its end, over pages that the
process may all use, and the page behind the end has no page table. -/
structure Proc.Overruns (p : Proc) (va : Nat) (len : Int) : Prop where
  inside : argptr p va 1 = true
  past : (pgRoundUp p.sz : Int) < pgRoundDown va + len * PGSIZE
  pages : ∀ v, va / PGSIZE ≤ v → v * PGSIZE < p.sz → (p.pgdir.flat v).usable = true
  bare : walkpgdir p.pgdir (pgRoundUp p.sz) = none

/-- Below the size every page has a table, so that the first page without one is that behind
the end. -/
theorem nullRange_iff (dir : p.pgdir.Sound) (size : p.sz ≤ KERNBASE) (capped : p.Capped)
    (backed : p.Backed) {e : Nat} (last : e = (p.sz + 4095) / 4096) (n v : Nat) (below : v ≤ e) :
    nullRange p.pgdir n (v * 4096) ↔ e < v + n ∧
      (∀ w, v ≤ w → w * 4096 < p.sz → (p.pgdir.flat w).usable = true) ∧
      walkpgdir p.pgdir (e * 4096) = none := by
  simp only [KERNBASE] at size
  induction n generalizing v with
  | zero => exact iff_of_false id (by omega)
  | succ n ih =>
    have page : vpn (v * 4096) = v := by
      simp only [vpn, PGSIZE]
      omega
    have step : uint (v * 4096 + PGSIZE) = (v + 1) * 4096 := by
      simp only [uint, PGSIZE]
      omega
    rw [nullRange, page, step]
    by_cases inside : v < e
    · have table := backed v (by omega)
      rw [Option.isSome_iff_ne_none] at table
      have rest := ih (v + 1) (by omega)
      rw [or_iff_right table, rest]
      constructor
      · rintro ⟨usable, past, pages, bare⟩
        refine ⟨by omega, fun w above low => ?_, bare⟩
        by_cases first : w = v
        · rwa [first]
        · exact pages w (by omega) low
      · rintro ⟨past, pages, bare⟩
        exact ⟨pages v le_rfl (by omega), by omega, fun w above => pages w (by omega), bare⟩
    · obtain rfl : v = e := by omega
      have unusable : (p.pgdir.flat v).usable ≠ true := by
        intro usable
        obtain ⟨mapped, user⟩ := Pte.usable_iff.mp usable
        by_cases half : v < 2 ^ 19
        · rw [capped v half (by omega)] at mapped
          cases mapped
        · rw [dir.guarded v (by omega)] at user
          cases user
      rw [or_iff_left fun both => unusable both.1]
      constructor
      · exact fun bare => ⟨by omega, fun w above low => by omega, bare⟩
      · exact fun all => all.2.2

theorem sysMencrypt_null {s : St} (sound : s.Sound) (capped : s.proc.Capped)
    (backed : s.proc.Backed) (va : Nat) (len : Int) :
    HitsNull (sysMencrypt va len) s ↔ s.proc.Overruns va len := by
  have size : s.proc.sz ≤ 2 ^ 31 := sound.size
  have round : pgRoundUp s.proc.sz = (s.proc.sz + 4095) / 4096 * 4096 := by
    simp only [pgRoundUp, uint, PGSIZE]
    omega
  have refused : ∀ {P : Prop}, ¬ P → (HitsNull (pure (-1) : K Int) s ↔ P) := fun no =>
    iff_of_false (by rintro ⟨⟩) no
  by_cases empty : len ≤ 0
  · rw [sysMencrypt, if_pos empty]
    refine refused fun past => ?_
    have inside := past.inside
    have after := past.past
    rw [argptr, decide_eq_true_eq] at inside
    simp only [round, pgRoundDown, PGSIZE] at after
    omega
  by_cases outside : argptr s.proc va 1 = false
  · have run : (sysMencrypt va len).run s = (pure (-1) : K Int).run s := by
      rw [sysMencrypt, if_neg empty]
      change (if argptr s.proc va 1 = false then (pure (-1) : K Int) else _).run s = _
      rw [if_pos outside]
    rw [HitsNull, stopped, run]
    refine refused fun past => ?_
    rw [past.inside] at outside
    cases outside
  have inside : argptr s.proc va 1 = true := by simpa using outside
  have low := inside
  rw [argptr, decide_eq_true_eq] at low
  have run : (sysMencrypt va len).run s = (mencrypt va len).run s := by
    rw [sysMencrypt, if_neg empty]
    change (if argptr s.proc va 1 = false then (pure (-1) : K Int) else
      if va ≥ KERNBASE + PHYSTOP then pure (-1) else mencrypt va len).run s = _
    rw [if_neg outside, if_neg (by simp only [KERNBASE, PHYSTOP]; omega)]
  rw [HitsNull, stopped, run]
  change HitsNull (mencrypt va len) s ↔ _
  rw [mencrypt_null, pgRoundDown, nullRange_iff sound.dir sound.size capped backed rfl _ _
    (by simp only [PGSIZE]; omega)]
  constructor
  · rintro ⟨past, pages, bare⟩
    exact ⟨inside, by simp only [round, pgRoundDown, PGSIZE] at past ⊢; omega, pages, round ▸ bare⟩
  · rintro ⟨_, past, pages, bare⟩
    exact ⟨by simp only [round, pgRoundDown, PGSIZE] at past ⊢; omega, pages, round ▸ bare⟩

end Range

section Panics
variable {E : Stop → Prop} [Stop.Panics E]

theorem execSpace_only (remap : E (.panic "p4Debug, remapping page")) (ip : Inode)
    (elf : ElfHdr) : Only E (execSpace ip elf) := by
  rw [execSpace]
  refine .bind setupkvm_only fun r => ?_
  cases r with
  | none => exact .pure _
  | some d =>
    refine .bind (execLoad_only remap _ _ _ _ _) fun r => ?_
    obtain ⟨size, d⟩ := r
    cases size with
    | none => exact .bind (freevm_only d) fun _ => .pure _
    | some size =>
      dsimp only
      generalize uint (pgRoundUp size + 2 * PGSIZE) = newsz
      refine .bind (allocuvm_only remap d (pgRoundUp size) newsz) fun r => ?_
      exact .ite (.bind (freevm_only _) fun _ => .pure _) (.bind (clearpteu_only _ _) fun _ => .pure _)

end Panics

/-- Any reason but a null pointer. -/
def Stop.Solid (e : Stop) : Prop := e ≠ .nullPte

instance : Stop.Panics Stop.Solid := ⟨nofun, nofun, nofun, nofun⟩

/-- One of the strings, with those before it on the stack page, is so long that the stack pointer
passes below 0 and ends between the mappings of the kernel. -/
def Overlong (top : Nat) : List (List UInt8) → Nat → Prop
  | [], _ => False
  | str :: rest, sp =>
    KERNBASE + PHYSTOP ≤ pushAt sp str.length ∧ pushAt sp str.length < DEVSPACE ∨
      top - PGSIZE ≤ pushAt sp str.length ∧ pushAt sp str.length < top ∧
        Overlong top rest (pushAt sp str.length)

/-- Where a string that is pushed on the stack comes to lie: on the stack page, below it, or
past 0 in the upper half. -/
inductive Lands (d : PgDir) (base va len : Nat) : Prop where
  | stack (above : base ≤ va) (below : va < base + 4096) (backs : d.Backs va len)
  | under (below : va < base) (unbacked : ¬ d.Backs va len) (tabled : ¬ d.Strays va len)
  | upper (high : KERNBASE ≤ va) (unbacked : ¬ d.Backs va len)
      (strays : d.Strays va len ↔ KERNBASE + PHYSTOP ≤ va ∧ va < DEVSPACE)

section Stack
variable {d : PgDir} {n base : Nat}

theorem Stacked.table (stacked : Stacked d n) {x : Nat} (below : x < (n + 2) * 4096) :
    walkpgdir d x ≠ none := by
  have low : (n + 2) * 4096 ≤ 2 ^ 31 := stacked.low
  obtain ⟨_, mapped, _⟩ := stacked.held (lt_of_le_of_lt (Nat.div_mul_le_self x 4096) below)
  have page : vpn x = x / 4096 := vpn_of_word (by omega)
  rw [← page] at mapped
  rw [PgDir.walk_of_mapped mapped]
  exact Option.some_ne_none _

theorem PgDir.KernelTables.walk (kernel : d.KernelTables) {x : Nat} (high : KERNBASE ≤ x)
    (word : x < 2 ^ 32) : walkpgdir d x = none ↔ KERNBASE + PHYSTOP ≤ x ∧ x < DEVSPACE := by
  simp only [KERNBASE] at high
  have index : pdx x = x / 2 ^ 22 := by
    simp only [pdx]
    omega
  have table := kernel (x / 2 ^ 22) (by omega) (by omega)
  simp only [KERNBASE, PHYSTOP, DEVSPACE] at table ⊢
  rw [← Option.not_isSome_iff_eq_none, walkpgdir, Option.isSome_map, index, table]
  omega

theorem Stacked.lands (stacked : Stacked d n) (kernel : d.KernelTables)
    (start : base = (n + 1) * 4096) {sp len : Nat} (above : base ≤ sp) (below : sp ≤ base + 4096)
    (short : len < 2 ^ 31) : Lands d base (pushAt sp len) (len + 1) := by
  have low : (n + 2) * 4096 ≤ 2 ^ 31 := stacked.low
  have top : base + 4096 = (n + 2) * 4096 := by omega
  by_cases fits : len + 1 ≤ sp
  · have at_ : pushAt sp len = (sp - (len + 1)) / 4 * 4 := by
      simp only [pushAt, uint]
      omega
    generalize pushAt sp len = va at at_ ⊢
    by_cases inside : base ≤ va
    · exact .stack inside (by omega) (stacked.backs start inside (by omega))
    · refine .under (by omega) (fun backs => ?_) ?_
      · -- Strings are aligned, so this one reaches the last word of the guard page.
        have guard := backs (base - 4) (by omega) (by omega) (by omega)
        obtain ⟨f, entry⟩ := stacked.guard
        rw [show (base - 4) / 4096 = n by omega, entry] at guard
        simp [Pte.usable, userPte_has] at guard
      · rintro ⟨x, _, high, _, missing, _⟩
        exact stacked.table (by omega) missing
  · have at_ : pushAt sp len = (sp + 2 ^ 32 - (len + 1)) / 4 * 4 := by
      simp only [pushAt, uint]
      omega
    generalize pushAt sp len = va at at_ ⊢
    have high : KERNBASE ≤ va := by
      simp only [KERNBASE]
      omega
    have unusable : (d.flat (va / 4096)).usable ≠ true := by
      intro usable
      have user := (Pte.usable_iff.mp usable).2
      simp only [KERNBASE] at high
      rw [stacked.sound.guarded _ (by omega)] at user
      cases user
    refine .upper high (fun backs => unusable (backs va le_rfl (by omega) (by omega))) ?_
    rw [← kernel.walk high (by omega)]
    constructor
    · rintro ⟨x, above, _, _, missing, before⟩
      obtain rfl : va = x := by
        by_contra other
        exact unusable (before va le_rfl (by omega))
      exact missing
    · intro missing
      exact ⟨va, le_rfl, by omega, by omega, missing, fun y above below => by omega⟩

/-- Which argument strings run to an address without a page table. -/
theorem Stacked.straysStrings_iff (stacked : Stacked d n) (kernel : d.KernelTables)
    (start : base = (n + 1) * 4096) {strs : List (List UInt8)}
    (short : ∀ str ∈ strs, str.length < 2 ^ 31) {sp : Nat} (above : base ≤ sp)
    (below : sp ≤ base + 4096) : d.StraysStrings strs sp ↔ Overlong (base + PGSIZE) strs sp := by
  have low : (n + 2) * 4096 ≤ 2 ^ 31 := stacked.low
  induction strs generalizing sp with
  | nil => exact Iff.rfl
  | cons str strs ih =>
    have shorter : ∀ str ∈ strs, str.length < 2 ^ 31 :=
      fun s member => short s (List.mem_cons_of_mem _ member)
    have lands := stacked.lands kernel start above below (short str List.mem_cons_self)
    rw [PgDir.StraysStrings, Overlong]
    generalize pushAt sp str.length = va at lands ⊢
    have lower : va < base + 4096 → ¬ (KERNBASE + PHYSTOP ≤ va ∧ va < DEVSPACE) := by
      simp only [KERNBASE, PHYSTOP]
      omega
    cases lands with
    | stack above below backs =>
      rw [or_iff_right backs.not_strays, and_iff_right backs, or_iff_right (lower below),
        and_iff_right (show base + PGSIZE - PGSIZE ≤ va by omega), and_iff_right below]
      exact ih shorter above (by omega)
    | under below unbacked tabled =>
      rw [or_iff_right tabled, or_iff_right (lower (by omega))]
      exact iff_of_false (fun both => unbacked both.1) fun inside => by omega
    | upper high unbacked strays =>
      rw [or_iff_left fun both => unbacked both.1, strays, or_iff_left]
      rintro ⟨_, below, _⟩
      simp only [KERNBASE, PGSIZE] at high below
      omega

/-- The stack pointer stays on the stack page as long as the strings do. -/
theorem Stacked.pointer (stacked : Stacked d n) (kernel : d.KernelTables)
    (start : base = (n + 1) * 4096) {strs : List (List UInt8)}
    (short : ∀ str ∈ strs, str.length < 2 ^ 31) {sp : Nat} (above : base ≤ sp)
    (below : sp ≤ base + 4096) (backs : d.BacksStrings strs sp) :
    base ≤ pushedTo strs sp ∧ pushedTo strs sp ≤ base + 4096 := by
  induction strs generalizing sp with
  | nil => exact ⟨above, below⟩
  | cons str strs ih =>
    have next : pushedTo (str :: strs) sp = pushedTo strs (pushAt sp str.length) := by
      rw [pushedTo, pushStrings, pushStrings_fst]
      rfl
    rw [next]
    cases stacked.lands kernel start above below (short str List.mem_cons_self) with
    | stack above below _ =>
      exact ih (fun s member => short s (List.mem_cons_of_mem _ member)) above (by omega) backs.2
    | under _ unbacked => exact absurd backs.1 unbacked
    | upper _ unbacked => exact absurd backs.1 unbacked

theorem Stacked.straysStack_iff (stacked : Stacked d n) (kernel : d.KernelTables)
    {strs : List (List UInt8)} (short : ∀ str ∈ strs, str.length < 2 ^ 31) :
    d.StraysStack strs ((n + 2) * 4096) ↔
      Overlong ((n + 2) * 4096) (strs.take MAXARG) ((n + 2) * 4096) := by
  have low : (n + 2) * 4096 ≤ 2 ^ 31 := stacked.low
  obtain ⟨base, start⟩ : ∃ base, base = (n + 1) * 4096 := ⟨_, rfl⟩
  have top : (n + 2) * 4096 = base + PGSIZE := by
    simp only [PGSIZE]
    omega
  have some : ∀ str ∈ strs.take MAXARG, str.length < 2 ^ 31 :=
    fun str member => short str (List.mem_of_mem_take member)
  rw [PgDir.StraysStack, top, stacked.straysStrings_iff kernel start some (by omega) le_rfl]
  refine or_iff_left ?_
  rintro ⟨few, backs, x, above, below, _, missing, _⟩
  obtain ⟨high, under⟩ := stacked.pointer kernel start short (by omega) le_rfl backs
  simp only [MAXARG, PGSIZE, stackTop, uint] at *
  exact stacked.table (by omega) missing

end Stack

section Tables

theorem pdx_user (newsz : Nat) (low : newsz < KERNBASE) (a : Nat) (below : a < newsz) :
    pdx a < 512 := by
  simp only [KERNBASE, pdx] at *
  omega

theorem execLoad_widens (ip : Inode) (n off sz : Nat) (d : PgDir) (m : Phys) :
    Sat (execLoad ip n off sz d) m (fun r _ => d.Widens r.2 (· < 512)) (fun _ _ => True) := by
  induction n generalizing off sz d m with
  | zero => exact .refl d _
  | succ n ih =>
    rw [execLoad]
    split
    · exact .refl d _
    split
    · exact .refl d _
    dsimp only
    split
    · exact ih _ _ _ _
    split
    · exact .refl d _
    split
    · exact .refl d _
    refine .seq (allocuvm_widens (J := (· < 512)) (pdx_user _)) ?_ (fun _ _ _ => trivial)
    rintro ⟨size, d₁⟩ m₁ widens
    dsimp only at widens ⊢
    split
    · exact widens
    split
    · exact widens
    refine .seq (sat_self _ _) (fun ok m₂ _ => ?_) (fun _ _ _ => trivial)
    cases ok with
    | false => exact widens
    | true => exact (ih _ _ _ _).imp (fun _ _ more => widens.trans more)

/-- The image that `exec` builds has the kernel's tables. -/
theorem execSpace_tables (ip : Inode) (elf : ElfHdr) (m : Phys) :
    Sat (execSpace ip elf) m (fun r _ => ∀ sz d, r = some (sz, d) → d.KernelTables)
      (fun _ _ => True) := by
  have bad : ∀ (d : PgDir) (m₁ : Phys), Sat (do freevm d; return (none : Option (Nat × PgDir))) m₁
      (fun r _ => ∀ sz d, r = some (sz, d) → d.KernelTables) (fun _ _ => True) := by
    intro d m₁
    exact .seq (sat_self _ _) (fun _ _ _ => nofun) (fun _ _ _ => trivial)
  rw [execSpace, sat_bind]
  refine setupkvm_tabs.mono (fun r m₁ tabs => ?_) (fun _ _ _ => trivial)
  cases r with
  | none => rintro _ _ ⟨⟩
  | some d =>
    have kernel := (tabs d rfl).2
    dsimp only
    refine .seq (execLoad_widens _ _ _ _ _ _) ?_ (fun _ _ _ => trivial)
    rintro ⟨size, d₁⟩ m₂ widens
    have kernel := kernel.widens widens
    cases size with
    | none => exact bad d₁ m₂
    | some size =>
      dsimp only
      rw [sat_bind]
      generalize uint (pgRoundUp size + 2 * PGSIZE) = newsz
      refine (allocuvm_widens (J := (· < 512)) (pdx_user newsz)).mono ?_ (fun _ _ _ => trivial)
      rintro ⟨sz, d₂⟩ m₃ widens
      have kernel := kernel.widens widens
      dsimp only at kernel ⊢
      split
      · exact bad d₂ m₃
      · rw [sat_bind, clearpteu]
        split
        · trivial
        · rintro _ _ ⟨⟩
          exact kernel.widens (.setPte _ _ _ _)

end Tables

section Exec
variable {s t : St} {X : Multiset Nat}

/-- While the entries of the clock have tables, reading a string is not what goes wrong. -/
theorem load_solid (tabled : s.proc.Tabled) (w : Working s t X) (va : Nat) :
    Sat (load false va) t (fun _ _ => True) (fun e _ => e.Solid) := by
  have tabled := w.trail.tabled tabled
  rw [load]
  refine .seq (access_spec false t va) (fun _ _ _ => trivial) ?_
  rintro e u ⟨_, ⟨_, _, full, missing⟩ | ⟨rfl, _⟩⟩
  · have table := tabled.table _ tabled.head (emptySlot_none full tabled.head)
    rw [missing] at table
    cases table
  · rintro ⟨⟩

/-- From the arguments on, `exec` goes through a null pointer when they run to an address
without a page table, unless reading the strings stops it. -/
theorem execRest_null (sound : s.Sound) {d : PgDir} {pages : Nat} (stacked : Stacked d pages)
    {path n : Nat} {argv : List Nat} {strs : List (List UInt8)} (name : s.IsStr path n)
    (spells : List.Forall₂ s.Spells argv strs) {P : St → Prop} {E : Stop → Prop}
    (working : ∀ t, P t → Working s t d.frames) (follows : Follows (fun _ => P) d fun _ => True)
    (reads : ∀ arg ∈ path :: argv, ∀ n, s.IsStr arg n → Reads s P (fun e _ => E e) arg n)
    (holds : P t) (entry : Nat) :
    Sat (execRest d ((pages + 2) * 4096) entry path argv) t
      (fun _ _ => ¬ d.StraysStack strs ((pages + 2) * 4096))
      (fun e _ => E e ∨ (e = .nullPte ↔ d.StraysStack strs ((pages + 2) * 4096))) := by
  rw [execRest]
  refine .bind (execStack_keeps
    (E := fun e _ => E e ∨ (e = .nullPte ↔ d.StraysStack strs ((pages + 2) * 4096)))
    (fun _ => 0) sound stacked.sound follows name spells
    (fun arg member n str _ k inside t holds => (reads arg member n str k inside t holds).mono
      (fun _ _ done => done) (fun _ _ => Or.inl)) _
    (fun stray _ _ _ => Or.inr (iff_of_true rfl stray)) holds) fun r u built => ?_
  have clear := built.tables
  obtain ⟨_, holds, _⟩ := built.kept
  have freed : ∀ (old : PgDir) (v : St), Sat (onPhys (freevm old)) v
      (fun _ _ => ¬ d.StraysStack strs ((pages + 2) * 4096))
      (fun e _ => E e ∨ (e = .nullPte ↔ d.StraysStack strs ((pages + 2) * 4096))) := by
    intro old v
    rw [onPhys, sat_zoom]
    exact (freevm_only (E := Stop.Solid) old v.phys).mono (fun _ _ _ => clear)
      (fun _ _ solid => Or.inr (iff_of_false solid clear))
  cases r with
  | none =>
    dsimp only
    rw [sat_bind]
    exact freed d u
  | some out =>
    obtain ⟨sp, called⟩ := out
    have nodup : ((u.phys.freelist : Multiset Nat) + d.frames).Nodup :=
      Multiset.nodup_of_le (add_le_add (Multiset.le_add_right _ _) le_rfl)
        ((working u holds).all_nodup sound)
    dsimp only
    rw [sat_bind]
    exact execCommit_through stacked sp entry called nodup (freed _ _)

/-- The argument strings are too long for the image of the file. -/
def Inode.TooLong (ip : Inode) (strs : List (List UInt8)) : Prop :=
  Overlong ((ip.imagePages + 2) * 4096) (strs.take MAXARG) ((ip.imagePages + 2) * 4096)

/-- `exec` goes through a null pointer only for an argument that is too long. -/
theorem exec_null_overlong (sound : s.Sound) (tabled : s.proc.Tabled)
    {namei : List UInt8 → Option Inode} {path n : Nat} {argv : List Nat}
    {strs : List (List UInt8)} (name : s.IsStr path n) (spells : List.Forall₂ s.Spells argv strs) :
    Sat (exec namei path argv) s (fun _ _ => True) (fun e _ => e = .nullPte →
      ∃ ip, namei (s.text path 0 n) = some ip ∧ ip.TooLong strs) := by
  have reads : ∀ X a n, s.IsStr a n → Reads s (fun t => Working s t X) (fun e _ => e.Solid) a n :=
    fun X a n str k inside t w => ((load_str sound str w inside).and (load_solid tabled w _)).mono
      (fun _ _ both => both.1) (fun _ _ both => both.2)
  have solid : ∀ {P : Prop} (e : Stop), e.Solid → e = .nullPte → P :=
    fun e solid null => absurd null solid
  refine exec_through sound name (W := fun u => Working s u 0)
    (fun k inside u w => ((reads 0 path n name) k inside u w).mono (fun _ _ done => done)
      (fun e _ stop => solid e stop)) (Working.refl s).rewind (fun _ _ _ => trivial)
    fun u ip w found _ => ?_
  rw [execImage_eq, sat_bind, onPhys, sat_zoom]
  refine (((execSpace_spec rfl (w.sound sound).free).and (execSpace_tables ip _ u.phys)).and
    (execSpace_only (E := Stop.Solid) (by rintro ⟨⟩) ip _ u.phys)).mono ?_
    (fun e _ stop => solid e stop.2)
  rintro r m ⟨⟨built, tables⟩, _⟩
  cases r with
  | none => trivial
  | some out =>
    obtain ⟨sz, d⟩ := out
    obtain ⟨moves, rfl, stacked⟩ := built.2 sz d rfl
    refine (execRest_null sound stacked name spells (fun _ w => w) (.working sound stacked.sound)
      (fun arg _ n str => reads _ arg n str) (w.phys sound moves) _).mono (fun _ _ _ => trivial) ?_
    rintro e _ (stop | null) is
    · exact solid e stop is
    · exact ⟨ip, found, (stacked.straysStack_iff (tables _ d rfl)
        (St.Spells.short sound spells)).mp (null.mp is)⟩

/-- The file is executable, and there is memory for its image. -/
def St.Admits (s : St) (ip : Inode) : Prop :=
  ip.Executable ∧ ∃ out m,
    (execSpace ip (ElfHdr.parse (ip.data.take 52))).run s.phys = .ok (some out) m

/-- When its strings are present, `exec` goes through a null pointer exactly for an argument that
is too long for an image that there is memory for. -/
theorem exec_null_iff (sound : s.Sound) {namei : List UInt8 → Option Inode} {path n : Nat}
    {argv : List Nat} {strs : List (List UInt8)} (name : s.IsStr path n)
    (spells : List.Forall₂ s.Spells argv strs)
    (present : ∀ a ∈ path :: argv, ∀ len, s.IsStr a len → s.Present a len) :
    HitsNull (exec namei path argv) s ↔
      ∃ ip, namei (s.text path 0 n) = some ip ∧ s.Admits ip ∧ ip.TooLong strs := by
  have size : s.proc.sz ≤ 2 ^ 31 := sound.size
  have below := name.below
  apply hitsNull_iff
  refine exec_through sound name
    (W := fun u => Reading s 0 (path :: argv) u ∧ u.phys = s.phys) (fun k inside u w => ?_)
    ⟨⟨(Working.refl s).rewind, present⟩, rfl⟩
    (fun u _ none => by rintro ⟨ip, found, admits, _⟩; exact none ip found admits.1)
    fun u ip w found executable => ?_
  · refine ((Reads.resident sound List.mem_cons_self name k inside u w.1).and (load_of_present
      (by omega) (w.1.present path List.mem_cons_self n name k inside))).mono ?_
      (fun _ _ stop => stop.2.elim)
    rintro b v ⟨⟨is, reading⟩, _, _, phys⟩
    exact ⟨is, reading, phys.trans w.2⟩
  · have here : (∃ ip, namei (s.text path 0 n) = some ip ∧ s.Admits ip ∧ ip.TooLong strs) ↔
        s.Admits ip ∧ ip.TooLong strs := by
      constructor
      · rintro ⟨other, is, both⟩
        cases found.symm.trans is
        exact both
      · exact fun both => ⟨ip, found, both⟩
    rw [here, execImage_eq, sat_bind, onPhys, sat_zoom, w.2]
    refine ((((sat_self _ _).and (execSpace_spec rfl sound.free)).and
      (execSpace_tables ip _ s.phys)).and
      (execSpace_only (E := Stop.Solid) (by rintro ⟨⟩) ip _ s.phys)).mono ?_ ?_
    · rintro r m ⟨⟨⟨run, built⟩, tables⟩, _⟩
      cases r with
      | none =>
        rintro ⟨⟨_, out, m', admits⟩, _⟩
        cases run.symm.trans admits
      | some out =>
        obtain ⟨sz, d⟩ := out
        obtain ⟨moves, rfl, stacked⟩ := built.2 sz d rfl
        have admits : s.Admits ip := ⟨executable, _, m, run⟩
        have strays := stacked.straysStack_iff (tables _ d rfl) (St.Spells.short sound spells)
        have reading : Reading s d.frames (path :: argv) { u with phys := m } :=
          w.1.phys sound (by rw [w.2]; exact moves)
        rw [and_iff_right admits, Inode.TooLong, ← strays]
        refine (execRest_null (E := fun _ => False) sound stacked name spells
          (fun _ reading => reading.work) (.reading sound stacked.sound)
          (fun arg member n str => Reads.resident sound member str) reading _).mono
          (fun _ _ clear => clear) ?_
        rintro e _ (stop | null)
        · exact stop.elim
        · exact null
    · rintro e m ⟨⟨⟨run, _⟩, _⟩, solid⟩
      refine iff_of_false solid ?_
      rintro ⟨⟨_, out, m', admits⟩, _⟩
      cases run.symm.trans admits

end Exec

/-- In every state that the kernel comes to, `mencrypt` and `exec` go through a null pointer
exactly on the ranges and arguments described. -/
theorem null_entries_iff {pool lost : Multiset Nat} {s₀ s : Sys} {es : List Event}
    (owned : s₀.Owned pool lost) (capped : s₀.Each Proc.Capped) (backed : s₀.Each Proc.Backed)
    (run : Transition.Run Step s₀ es s) {i : Nat} (hi : i < NPROC)
    (live : (s.slots i).state.live = true) :
    (∀ va len, HitsNull (sysMencrypt va len) (s.view i) ↔ (s.view i).proc.Overruns va len) ∧
    ∀ namei path n argv strs, (s.view i).IsStr path n →
      List.Forall₂ (s.view i).Spells argv strs →
      ((s.view i).proc.Tabled → HitsNull (exec namei path argv) (s.view i) →
        ∃ ip, namei ((s.view i).text path 0 n) = some ip ∧ ip.TooLong strs) ∧
      ((∀ a ∈ path :: argv, ∀ len, (s.view i).IsStr a len → (s.view i).Present a len) →
        (HitsNull (exec namei path argv) (s.view i) ↔
          ∃ ip, namei ((s.view i).text path 0 n) = some ip ∧ (s.view i).Admits ip ∧
            ip.TooLong strs)) := by
  have capped := (run.kept (step_capped pool) ⟨⟨lost, owned⟩, capped⟩).2 i hi live
  obtain ⟨⟨_, owned⟩, backed⟩ := run.kept (step_backed pool) ⟨⟨lost, owned⟩, backed⟩
  have sound := owned.view hi (live_used live)
  refine ⟨sysMencrypt_null sound capped (backed i hi live), ?_⟩
  intro namei path n argv strs name spells
  refine ⟨fun tabled hits => ?_, exec_null_iff sound name spells⟩
  exact (exec_null_overlong sound tabled name spells).of_error (run_of_stopped hits) rfl

/-- A range inside the memory of the process, and an `exec` with two short strings. -/
theorem range_and_strings_not_null :
    ¬ HitsNull (sysMencrypt 0 1) launchSt ∧
      ¬ HitsNull (exec (fun _ => some (zeroFile 1)) 0x1000 [0x1000, 0x1000]) launchSt := by
  have start := twoPages_small.owned (m := launchSt.phys) (p := launchSt.proc) rfl rfl
    (by omega) (by decide)
  obtain ⟨ranges, strings⟩ := null_entries_iff (s := Sys.solo launchSt.phys launchSt.proc 1003) (i := 0)
    start (fun _ _ _ => twoPages_small.capped rfl rfl) (fun _ _ _ => twoPages_small.backed rfl rfl)
    (.refl _) (by decide) rfl
  constructor
  · intro hits
    exact absurd ((ranges 0 1).mp hits).past (by decide)
  · intro hits
    obtain ⟨ip, found, _, long⟩ := ((strings _ 0x1000 1 _ _ launchSt_name (launchSt_spells 2)).2
      fun _ _ _ str => launchSt_present str).mp hits
    cases found
    rw [Inode.TooLong, (zeroFile_zeroed (Or.inl rfl)).2] at long
    revert long
    simp only [List.replicate, MAXARG, List.take, Overlong]
    decide

/-- A process that grows to 4 MB has its last page table full; the range of 1025 pages runs past
it. -/
theorem range_past_last_table :
    ∃ t, (growproc (1013 * 4096)).run (roomySys.view 0) = .ok 0 t ∧
      HitsNull (sysMencrypt 0 1025) t := by
  have sound := roomySys_owned.view (i := 0) (by decide) (live_used rfl)
  obtain ⟨s, is⟩ : ∃ s, s = roomySys.view 0 := ⟨_, rfl⟩
  rw [← is] at sound ⊢
  have flat := roomySys_flat is
  have sz : s.proc.sz = 45056 := by rw [is]; rfl
  have whole : pgRoundUp s.proc.sz = 45056 := by rw [sz]; rfl
  have capped : s.proc.Capped := by
    intro v _ above
    rw [flat, if_neg (by omega)]
    exact Pte.zero_mapped
  have tables : ∀ j, (s.proc.pgdir.tabs j).isSome → j < 1 := by
    intro j table
    by_contra high
    have none : s.proc.pgdir.tabs j = none := by
      rw [is]
      exact if_neg (by omega)
    rw [none] at table
    cases table
  obtain ⟨t, run, _, resize, pages⟩ :=
    roomySys_resizes is sound (k := 1013) (by omega) (by omega) rfl
  have widens := (growproc_widens (J := (· < 1)) sound.size fun a below => by
    simp only [addInt, sz, pdx] at below ⊢
    omega).of_ok run
  have sound' := resize.sound sound
  have capped' := resize.capped sound capped
  refine ⟨t, run, ?_⟩
  obtain ⟨size, usable⟩ : t.proc.sz = 1024 * 4096 ∧
      ∀ v < 1024, (t.proc.pgdir.flat v).usable = true := by
    cases resize with
    | @grow m d u _ user grown swept =>
      have dir : Remarks d u.proc.pgdir := (swept.recrypt (grown.sound user sound)).dir
      refine ⟨by change s.proc.sz + _ = _; omega, fun v below => ?_⟩
      change (u.proc.pgdir.flat v).usable = true
      rw [Pte.usable_iff, dir.mapped, dir.user, ← Pte.usable_iff]
      by_cases old : v < 11
      · rw [grown.same v (by rw [whole]; omega), flat, if_pos old]
        simp [Pte.usable, Pte.mapped, userPte_has]
      · obtain ⟨_, f, _, entry, _⟩ := grown.fresh v (by omega) (by rw [whole, pages]; omega)
        rw [entry]
        exact userPte_usable f
    | shrink negative => omega
    | stay none => omega
  have backed : t.proc.Backed := .of_mapped sound'.size fun v below =>
    (Pte.usable_iff.mp (usable v (by omega))).1
  rw [sysMencrypt_null sound' capped' backed]
  have round : pgRoundUp t.proc.sz = 1024 * 4096 := by
    rw [size]
    rfl
  refine ⟨?_, ?_, fun v _ below => usable v ?_, ?_⟩
  · rw [argptr, size]
    decide
  · rw [round]
    decide
  · rw [size] at below
    simp only [PGSIZE] at below
    omega
  · rw [round, walkpgdir, Option.map_eq_none_iff, ← Option.not_isSome_iff_eq_none]
    intro table
    have first : pdx (1024 * 4096) < 1 := (widens.new _ table).elim (tables _) id
    exact absurd first (by decide)

end Xv6
