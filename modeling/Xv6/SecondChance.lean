import Xv6.Clock

/-! The page `addClock` expels from a full clock, compared with second-chance replacement:
pages referenced since they were last looked at are passed over, from `head` on, and lose
their mark. The loop of `addClock` keeps looking at the slot it started with. -/
namespace Xv6
open PteBit Control
open Function (update update_of_ne update_self)

/-- The page in the `k`-th slot, counted around the clock, is marked as referenced. -/
def Proc.marked (p : Proc) (k : Nat) : Bool := (p.pgdir.flat (vpn (p.clock (k % CLOCKSIZE)))).has PTE_A

/-- The number of pages second chance passes over: those from `head` up to the first one
that is not marked. -/
def Proc.passed (p : Proc) : Nat :=
  ((List.range CLOCKSIZE).find? fun k => !p.marked (p.head + k)).getD CLOCKSIZE

/-- The slot of the page to expel. It is the one at `head` when every page is marked. -/
def Proc.victim (p : Proc) : Nat := (p.head + p.passed) % CLOCKSIZE

/-- Second-chance replacement: the page in slot `victim` is encrypted and makes room for
the page of `va`, and the pages passed over lose their mark. -/
structure SecondChance (s : St) (va : Nat) (t : St) : Prop where
  expelled : t.proc.pgdir.flat (vpn (s.proc.clock s.proc.victim)) =
    (((s.proc.pgdir.flat (vpn (s.proc.clock s.proc.victim))).set PTE_E).clear PTE_P).clear PTE_A
  unmarked : ∀ v, v ≠ vpn (s.proc.clock s.proc.victim) →
    (∃ k < s.proc.passed, v = vpn (s.proc.clock ((s.proc.head + k) % CLOCKSIZE))) →
    t.proc.pgdir.flat v = (s.proc.pgdir.flat v).clear PTE_A
  others : ∀ v, v ≠ vpn (s.proc.clock s.proc.victim) →
    (¬ ∃ k < s.proc.passed, v = vpn (s.proc.clock ((s.proc.head + k) % CLOCKSIZE))) →
    t.proc.pgdir.flat v = s.proc.pgdir.flat v
  bytes : t.phys.bytes = update s.phys.bytes
    (s.proc.pgdir.flat (vpn (s.proc.clock s.proc.victim))).ppn
    (s.phys.bytes (s.proc.pgdir.flat (vpn (s.proc.clock s.proc.victim))).ppn).flip
  clock : t.proc.clock = update s.proc.clock s.proc.victim (pgRoundDown va)
  head : t.proc.head = (s.proc.victim + 1) % CLOCKSIZE

/-- Every slot holds a user page in the clear. -/
structure Proc.FullClock (p : Proc) : Prop where
  head : p.head < CLOCKSIZE
  filled : ∀ k < CLOCKSIZE, p.clock k ≠ 0
  clear : ∀ k < CLOCKSIZE, (p.pgdir.flat (vpn (p.clock k))).usable = true ∧
    (p.pgdir.flat (vpn (p.clock k))).has PTE_E = false

theorem Pte.sealed_eq (pte : Pte) : pte.sealed = ((pte.set PTE_E).clear PTE_P).clear PTE_A := by
  have flags : ∀ f : Flags, (((f ||| 0x020#12) ||| 0x400#12) &&& ~~~0x001#12) &&& ~~~0x020#12 =
      ((f ||| 0x400#12) &&& ~~~0x001#12) &&& ~~~0x020#12 := by decide +kernel
  exact congrArg (Pte.mk pte.ppn) (flags pte.flags)

section Clock
variable {s : St} {va : Nat}

theorem Proc.FullClock.emptySlot {p : Proc} (full : p.FullClock) : emptySlot p = none := by
  rw [Xv6.emptySlot, List.find?_eq_none]
  intro i _
  simpa using full.filled (i % CLOCKSIZE) (Nat.mod_lt _ (by decide))

/-- What `addClock` does to a full clock. -/
theorem addClock_full (full : s.proc.FullClock) :
    Sat (addClock va) s (fun _ t => t = s.evicted va) (fun _ _ => False) := by
  have table : (walkpgdir s.proc.pgdir (s.proc.clock s.proc.head)).isSome := by
    rw [PgDir.walk_of_mapped (Pte.usable_iff.mp (full.clear _ full.head).1).1]
    rfl
  rw [addClock, sat_bind, sat_get]
  dsimp only
  rw [full.emptySlot]
  exact evictLoop_spec va s table

theorem passed_zero (fresh : s.proc.marked s.proc.head = false) : s.proc.passed = 0 := by
  unfold Proc.passed
  rw [List.range_succ_eq_map, List.find?_cons_of_pos (by simpa using fresh)]
  rfl

/-- A page that is passed over, or the whole round. -/
theorem passed_cases (marked : s.proc.marked s.proc.head = true) :
    s.proc.passed = CLOCKSIZE ∨ 0 < s.proc.passed ∧ s.proc.passed < CLOCKSIZE := by
  unfold Proc.passed
  cases found : (List.range CLOCKSIZE).find? fun k => !s.proc.marked (s.proc.head + k) with
  | none => exact .inl rfl
  | some k =>
    refine .inr ⟨Nat.pos_of_ne_zero ?_, List.mem_range.mp (List.mem_of_find?_eq_some found)⟩
    rintro rfl
    have hit := List.find?_some found
    rw [Nat.add_zero, marked] at hit
    cases hit

theorem evicted_clock (s : St) (va : Nat) :
    (s.evicted va).proc.clock = update s.proc.clock s.proc.head (pgRoundDown va) := by
  have clock : s.aged.proc.clock = s.proc.clock := by
    unfold St.aged
    split <;> rfl
  change update (s.aged.mencrypted _ 1).proc.clock s.proc.head (pgRoundDown va) = _
  rw [mencrypted_clock, clock]

theorem evicted_head (s : St) (va : Nat) :
    (s.evicted va).proc.head = (s.aged.proc.head + 1) % CLOCKSIZE := by
  change ((s.aged.mencrypted _ 1).proc.head + 1) % CLOCKSIZE = _
  rw [mencrypted_head]

theorem mencrypted_bytes {a : Nat} (usable : (s.proc.pgdir.flat (vpn a)).usable = true)
    (clear : (s.proc.pgdir.flat (vpn a)).has PTE_E = false) :
    (s.mencrypted a 1).phys.bytes = update s.phys.bytes (s.proc.pgdir.flat (vpn a)).ppn
      (s.phys.bytes (s.proc.pgdir.flat (vpn a)).ppn).flip := by
  have range : usableRange s.proc.pgdir (1 : Int).toNat (pgRoundDown a) = true := by
    simp [usableRange, usable]
  have pick : target s.proc.pgdir (1 : Int).toNat (pgRoundDown a) = some (pgRoundDown a) := by
    simp [target, clear]
  unfold St.mencrypted
  rw [if_pos range, pick]
  simp only [St.encryptPage, vpn_pgRoundDown]
  rfl

/-- The page at `head` is not marked: it is expelled. -/
theorem evicted_fresh (full : s.proc.FullClock) (fresh : s.proc.marked s.proc.head = false) :
    SecondChance s va (s.evicted va) := by
  have home : s.proc.head % CLOCKSIZE = s.proc.head := Nat.mod_eq_of_lt full.head
  have victim : s.proc.victim = s.proc.head := by rw [Proc.victim, passed_zero fresh, Nat.add_zero, home]
  have unmarked : (s.proc.pgdir.flat (vpn (s.proc.clock s.proc.head))).has PTE_A = false := by
    rw [Proc.marked, home] at fresh
    exact fresh
  obtain ⟨usable, clear⟩ := full.clear _ full.head
  have aged : s.aged = s := by
    unfold St.aged
    rw [if_neg (by rw [unmarked]; decide)]
  have flat := mencrypted_one_flat s (s.proc.clock s.proc.head)
  rw [if_pos ⟨usable, clear⟩] at flat
  have evicted : (s.evicted va).proc.pgdir.flat = update s.proc.pgdir.flat
      (vpn (s.proc.clock s.proc.head)) (s.proc.pgdir.flat (vpn (s.proc.clock s.proc.head))).sealed := by
    unfold St.evicted
    rw [aged]
    exact flat
  exact {
    expelled := by rw [victim, evicted, update_self, Pte.sealed_eq]
    unmarked := by
      rintro v _ ⟨k, hk, _⟩
      rw [passed_zero fresh] at hk
      omega
    others := by
      intro v other _
      rw [victim] at other
      rw [evicted, update_of_ne other]
    bytes := by
      change (s.aged.mencrypted (s.proc.clock s.proc.head) 1).phys.bytes = _
      rw [aged, victim, mencrypted_bytes usable clear]
    clock := by rw [victim, evicted_clock]
    head := by
      rw [evicted_head, aged, victim] }

/-- Over a full clock `addClock` is second-chance replacement exactly when the page at
`head` is not marked: otherwise it takes the mark of that page away and expels it all the
same. -/
theorem second_chance_iff (full : s.proc.FullClock) (absent : ∀ k < CLOCKSIZE, s.proc.clock k ≠ pgRoundDown va) :
    ∃ t, (addClock va).run s = .ok () t ∧ (SecondChance s va t ↔ s.proc.marked s.proc.head = false) := by
  obtain ⟨_, t, run, rfl⟩ := (addClock_full full).returns
  refine ⟨_, run, ?_, evicted_fresh full⟩
  intro chance
  by_contra marked
  rw [Bool.not_eq_false] at marked
  have home : s.proc.head % CLOCKSIZE = s.proc.head := Nat.mod_eq_of_lt full.head
  have below := full.head
  rcases passed_cases marked with around | ⟨some_, few⟩
  · -- Every page was marked, and `head` has moved two slots on.
    have aged : s.aged.proc.head = (s.proc.head + 1) % CLOCKSIZE := by
      unfold St.aged
      rw [Proc.marked, home] at marked
      rw [if_pos marked]
    have head := chance.head
    rw [evicted_head, aged, Proc.victim, around] at head
    simp only [CLOCKSIZE] at head below
    omega
  · -- The slot of the page to expel has not been filled.
    have slot : s.proc.victim ≠ s.proc.head := by
      unfold Proc.victim
      simp only [CLOCKSIZE] at few below ⊢
      omega
    have filled := congrFun chance.clock s.proc.victim
    rw [evicted_clock, update_of_ne slot, update_self] at filled
    exact absent s.proc.victim (Nat.mod_lt _ (by decide)) filled

end Clock

section Example

/-- Pages 1 to 8 are in the clock, in this order; `marks` are those that are marked. -/
def eightPages (marks : List Nat) : St where
  phys := ⟨smallImage, fun _ k => k.val.toUInt8, []⟩
  proc := ⟨10 * PGSIZE, .single 1001 1002 fun v =>
      if v < 10 then if v ∈ marks then (userPte (1010 + v)).set PTE_A else userPte (1010 + v) else .zero,
    fun k => (k + 1) * PGSIZE, 0, fun _ => false, [], 0, 0⟩

theorem eightPages_full (marks : List Nat) : (eightPages marks).proc.FullClock := by
  have page : ∀ k < CLOCKSIZE, (eightPages marks).proc.pgdir.flat (vpn ((eightPages marks).proc.clock k)) =
      if k + 1 ∈ marks then (userPte (1010 + (k + 1))).set PTE_A else userPte (1010 + (k + 1)) := by
    intro k hk
    have at_ : vpn ((eightPages marks).proc.clock k) = k + 1 := by
      change vpn ((k + 1) * 4096) = k + 1
      simp only [CLOCKSIZE] at hk
      simp only [vpn, PGSIZE]
      omega
    simp only [CLOCKSIZE] at hk
    rw [at_]
    change (PgDir.single 1001 1002 _).flat (k + 1) = _
    rw [PgDir.single_flat, if_pos (by omega), if_pos (by omega)]
  refine ⟨show 0 < CLOCKSIZE by decide, fun k _ => Nat.mul_ne_zero (Nat.succ_ne_zero k) (by decide), fun k hk => ?_⟩
  rw [page k hk]
  split <;> simp [Pte.usable, Pte.mapped, userPte_has]

/-- No page is marked: the page at `head` is expelled. -/
theorem unmarked_page_expelled : ∃ t, (addClock 0x9000).run (eightPages []) = .ok () t ∧
    SecondChance (eightPages []) 0x9000 t := by
  have absent : ∀ k < CLOCKSIZE, (eightPages []).proc.clock k ≠ pgRoundDown 0x9000 := by decide
  obtain ⟨t, run, chance⟩ := second_chance_iff (eightPages_full []) absent
  exact ⟨t, run, chance.mpr (by decide +kernel)⟩

/-- Only the page at `head` is marked. It is to be passed over and the next one expelled,
but it is the one that is encrypted, and the next one stays in the clear. -/
theorem marked_page_expelled :
    value (addClock 0x9000) (eightPages [1]) = some () ∧ (eightPages [1]).proc.victim = 1 ∧
    ((final (addClock 0x9000) (eightPages [1])).proc.pgdir.flat 1).has PTE_E = true ∧
    ((final (addClock 0x9000) (eightPages [1])).proc.pgdir.flat 2).has PTE_E = false ∧
    (final (addClock 0x9000) (eightPages [1])).proc.clock 0 = 0x9000 ∧
    (final (addClock 0x9000) (eightPages [1])).proc.head = 2 := by
  decide +kernel

end Example
end Xv6
