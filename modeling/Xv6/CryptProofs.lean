import Xv6.Crypt
import Xv6.Frames

/-! What the encryption routines compute. Each of them is given as a function on
the state: the page `mencrypt` picks and encrypts, the slot `addClock` fills and
the page it expels, and the entry `mdecrypt` rewrites. Results about encryption
are drawn from these equations and not from the loops of the code. -/
namespace Xv6
open PteBit Control
open Function (update update_idem update_of_ne update_self)

/-- The page is mapped and open to user code: `uva2ka` translates it. -/
def Pte.usable (pte : Pte) : Bool := pte.mapped && pte.has PTE_U

theorem Pte.usable_iff {pte : Pte} :
    pte.usable = true ↔ pte.mapped = true ∧ pte.has PTE_U = true := by
  simp [Pte.usable]

/-- The entry of a page `mencrypt` has encrypted. -/
def Pte.sealed (pte : Pte) : Pte := (((pte.set PTE_A).set PTE_E).clear PTE_P).clear PTE_A

/-- The entry of a page `mdecrypt` has decrypted. -/
def Pte.opened (pte : Pte) : Pte := (pte.clear PTE_E).set PTE_P

@[simp] theorem Pte.sealed_ppn (pte : Pte) : pte.sealed.ppn = pte.ppn := rfl
@[simp] theorem Pte.opened_ppn (pte : Pte) : pte.opened.ppn = pte.ppn := rfl

@[simp] theorem Pte.sealed_has (pte : Pte) (f : PteBit) : pte.sealed.has f =
    (f = PTE_E || pte.has f && f ≠ PTE_P && f ≠ PTE_A) := by
  cases f <;> simp [Pte.sealed]

@[simp] theorem Pte.opened_has (pte : Pte) (f : PteBit) : pte.opened.has f =
    (f = PTE_P || pte.has f && f ≠ PTE_E) := by
  cases f <;> simp [Pte.opened]

@[simp] theorem vpn_pgRoundDown (va : Nat) : vpn (pgRoundDown va) = vpn va := by
  simp only [vpn, pgRoundDown, PGSIZE]
  omega

namespace PgDir

theorem setPte_congr (d : PgDir) {a b : Nat} (same : vpn a = vpn b) : d.setPte a = d.setPte b := by
  have table : pdx a = pdx b := by rw [← vpn_div, ← vpn_div, same]
  have entry : ptx a = ptx b := by rw [← vpn_mod, ← vpn_mod, same]
  funext pte
  simp only [setPte, table, entry]

theorem walk_congr (d : PgDir) {a b : Nat} (same : vpn a = vpn b) :
    walkpgdir d a = walkpgdir d b := by
  have table : pdx a = pdx b := by rw [← vpn_div, ← vpn_div, same]
  rw [walk_eq, walk_eq, table, same]

theorem setPte_setPte (d : PgDir) (a : Nat) (x y : Pte) :
    (d.setPte a x).setPte a y = d.setPte a y := by
  unfold setPte
  cases tab : d.tabs (pdx a) with
  | none => simp only [tab]
  | some t => simp only [setTab, update_self, update_idem]

theorem walk_setPte_isSome (d : PgDir) (a : Nat) (new : Pte) (b : Nat) :
    (walkpgdir (d.setPte a new) b).isSome = (walkpgdir d b).isSome := by
  simp only [walkpgdir, Option.isSome_map, setPte_isSome]

theorem walk_setPte {d : PgDir} {a : Nat} {pte : Pte} (walk : walkpgdir d a = some pte) (new : Pte) :
    walkpgdir (d.setPte a new) a = some new := by
  have table : (d.tabs (pdx a)).isSome := by
    rw [walk_eq] at walk
    by_contra absent
    rw [if_neg absent] at walk
    contradiction
  rw [walk_eq, setPte_isSome, if_pos table, setPte_flat walk, update_self]

end PgDir

section Rules
variable {d : PgDir} {va : Nat} {s : St} {E : Stop → St → Prop}

theorem sat_derefPte {Q : Pte → St → Prop} : Sat (derefPte d va) s Q E ↔
    match walkpgdir d va with
    | some pte => Q pte s
    | none => E .nullPte s := by
  unfold derefPte
  cases walkpgdir d va <;> rfl

theorem sat_uva2ka {Q : Option Nat → St → Prop} : Sat (uva2ka d va) s Q E ↔
    match walkpgdir d va with
    | some pte => Q (if pte.usable then some pte.ppn else none) s
    | none => E .nullPte s := by
  unfold uva2ka Pte.usable
  rw [sat_bind, sat_derefPte]
  cases walkpgdir d va with
  | none => rfl
  | some pte => cases mapped : pte.mapped <;> cases user : pte.has PTE_U <;> simp [mapped, user]

theorem sat_storePte {Q : Unit → St → Prop} (table : (walkpgdir s.proc.pgdir va).isSome) (pte : Pte) :
    Sat (storePte va pte) s Q E ↔ Q () { s with proc := s.proc.setPte va pte } := by
  obtain ⟨old, walk⟩ := Option.isSome_iff_exists.mp table
  rw [storePte, sat_bind, sat_get, walk]
  rfl

end Rules

/-- Every page of the range is usable: the first loop of `mencrypt` succeeds. -/
def usableRange (d : PgDir) : Nat → Nat → Bool
  | 0, _ => true
  | n + 1, a => (d.flat (vpn a)).usable && usableRange d n (uint (a + PGSIZE))

/-- Every page of the range has a page-table page. -/
def tabledRange (d : PgDir) : Nat → Nat → Bool
  | 0, _ => true
  | n + 1, a => (walkpgdir d a).isSome && tabledRange d n (uint (a + PGSIZE))

/-- The page the second loop of `mencrypt` encrypts: the first of the range that
is not encrypted yet. -/
def target (d : PgDir) : Nat → Nat → Option Nat
  | 0, _ => none
  | n + 1, a =>
    if (d.flat (vpn a)).has PTE_E then target d n (uint (a + PGSIZE)) else some a

/-- The page `mencrypt` picks is usable and in the clear. -/
theorem target_usable {d : PgDir} {n a b : Nat} (usable : usableRange d n a = true)
    (picked : target d n a = some b) :
    (d.flat (vpn b)).usable = true ∧ (d.flat (vpn b)).has PTE_E = false := by
  induction n generalizing a with
  | zero => simp [target] at picked
  | succ n ih =>
    simp only [usableRange, Bool.and_eq_true] at usable
    rw [target] at picked
    split at picked
    · exact ih usable.2 picked
    · rename_i clear
      cases picked
      exact ⟨usable.1, by simpa using clear⟩

namespace St

/-- The bytes of the page at `va` flipped and its entry sealed. The translation
of the page has been used to do so. -/
def encryptPage (s : St) (va : Nat) : St where
  phys := s.phys.write (s.proc.pgdir.flat (vpn va)).ppn
    (s.phys.bytes (s.proc.pgdir.flat (vpn va)).ppn).flip
  proc :=
    { s.proc with
      pgdir := s.proc.pgdir.setPte va (s.proc.pgdir.flat (vpn va)).sealed
      tlb := update s.proc.tlb (vpn va) true }

def flushed (s : St) : St := { s with proc := { s.proc with tlb := fun _ => false } }

/-- The effect of `mencrypt`. -/
def mencrypted (s : St) (va : Nat) (len : Int) : St :=
  if usableRange s.proc.pgdir len.toNat (pgRoundDown va) then
    match target s.proc.pgdir len.toNat (pgRoundDown va) with
    | some a => s.encryptPage a
    | none => s.flushed
  else s

/-- The oldest clock entry had been referenced: its mark is cleared. -/
def aged (s : St) : St :=
  if (s.proc.pgdir.flat (vpn (s.proc.clock s.proc.head))).has PTE_A then
    { s with
      proc :=
        { s.proc with
          pgdir := s.proc.pgdir.setPte (s.proc.clock s.proc.head)
            ((s.proc.pgdir.flat (vpn (s.proc.clock s.proc.head))).clear PTE_A)
          head := (s.proc.head + 1) % CLOCKSIZE } }
  else s

/-- The effect of the eviction loop of `addClock`. -/
def evicted (s : St) (va : Nat) : St :=
  let t := s.aged.mencrypted (s.proc.clock s.proc.head) 1
  { t with proc := t.proc.setClock s.proc.head va ((t.proc.head + 1) % CLOCKSIZE) }

/-- The effect of `addClock`. -/
def admitted (s : St) (va : Nat) : St :=
  match emptySlot s.proc with
  | some i =>
    { s with
      proc := (s.proc.setClock (i % CLOCKSIZE) va ((i + 1) % CLOCKSIZE)).setPte va
        ((s.proc.pgdir.flat (vpn va)).clear PTE_A) }
  | none => s.evicted va

/-- What `mdecrypt` does first: the page is recorded unless its address is there. -/
def recorded (s : St) (va : Nat) : St := if (inQ s.proc va).isNone then s.admitted va else s

/-- What `mdecrypt` does next: the entry says that the page is present. -/
def revealed (s : St) (va : Nat) : St :=
  { s with proc := s.proc.setPte va (s.proc.pgdir.flat (vpn va)).opened }

/-- What `mdecrypt` does last: the bytes of the page are flipped. -/
def decryptPage (s : St) (va : Nat) : St where
  phys := s.phys.write (s.proc.pgdir.flat (vpn va)).ppn
    (s.phys.bytes (s.proc.pgdir.flat (vpn va)).ppn).flip
  proc :=
    { s.proc with
      pgdir := s.proc.pgdir.setPte va ((s.proc.pgdir.flat (vpn va)).opened.set PTE_A)
      tlb := update s.proc.tlb (vpn va) true }

/-- The effect of a page fault that `trap` serves. -/
def served (s : St) (va : Nat) : St := (s.recorded va).decryptPage va

/-- The effect of using the translation of `va`. -/
def touched (s : St) (va : Nat) : St :=
  { s with proc := s.proc.use va (s.proc.pgdir.flat (vpn va)) }

/-- The page a fault at `va` expels from a full clock, if it is in the clear. -/
def expels (s : St) (va : Nat) : Option Nat :=
  if inQ s.proc va = none ∧ emptySlot s.proc = none ∧
      (s.proc.pgdir.flat (vpn (s.proc.clock s.proc.head))).usable = true ∧
      (s.proc.pgdir.flat (vpn (s.proc.clock s.proc.head))).has PTE_E = false then
    some (vpn (s.proc.clock s.proc.head))
  else none

/-- What `mdecrypt` asks of a page it has recorded: user code may use it, and
its first byte is not zero as stored. -/
def Opens (s : St) (va : Nat) : Prop :=
  ((s.recorded va).proc.pgdir.flat (vpn va)).has PTE_U = true ∧
  (s.recorded va).phys.bytes ((s.recorded va).proc.pgdir.flat (vpn va)).ppn 0 ≠ 0

/-- The clock is full and its oldest entry lies where there is no page table. -/
def Stuck (s : St) (va : Nat) : Prop :=
  inQ s.proc va = none ∧ emptySlot s.proc = none ∧
  walkpgdir s.proc.pgdir (s.proc.clock s.proc.head) = none

end St

theorem mencryptCheck_spec (d : PgDir) (n a : Nat) (s : St) :
    Sat (mencryptCheck d n a) s (fun r t => r = usableRange d n a ∧ t = s)
      (fun e t => e = .nullPte ∧ t = s ∧ tabledRange d n a = false) := by
  induction n generalizing a with
  | zero => exact ⟨rfl, rfl⟩
  | succ n ih =>
    rw [mencryptCheck, sat_bind, sat_uva2ka]
    cases walk : walkpgdir d a with
    | none => exact ⟨rfl, rfl, by simp [tabledRange, walk]⟩
    | some pte =>
      have entry := PgDir.flat_of_walk walk
      dsimp only
      cases usable : pte.usable with
      | false => simp [usableRange, entry, usable]
      | true => simpa [usableRange, tabledRange, entry, walk, usable] using ih (uint (a + PGSIZE))

theorem translateAndSet_spec {s : St} {va : Nat} {pte : Pte}
    (walk : walkpgdir s.proc.pgdir va = some pte) (usable : pte.usable = true)
    (clear : pte.has PTE_E = false) :
    Sat (translateAndSet va) s (fun r t => r = some pte.ppn ∧ t = { s with
      proc := s.proc.setPte va (((pte.set PTE_E).clear PTE_P).clear PTE_A) })
      (fun _ _ => False) := by
  have present : pte.has PTE_P = true := by
    simp only [Pte.usable, Pte.mapped, clear, Bool.or_false, Bool.and_eq_true] at usable
    exact usable.1
  have user : pte.has PTE_U = true := by
    simp only [Pte.usable, Bool.and_eq_true] at usable
    exact usable.2
  rw [translateAndSet, sat_bind, sat_get, sat_bind, sat_derefPte, walk]
  simp [present, clear, user, modifyProc]

/-- One page of the range, in the clear, is encrypted. -/
theorem mencrypt_page {s : St} {va : Nat} {pte : Pte}
    (walk : walkpgdir s.proc.pgdir va = some pte) (usable : pte.usable = true)
    (clear : pte.has PTE_E = false) {Q : Int → St → Prop} {E : Stop → St → Prop}
    (post : Q 0 (s.encryptPage va)) :
    Sat (do
      xorPage va
      match ← translateAndSet va with
      | none => return -1
      | some _ => return 0) s Q E := by
  have entry := PgDir.flat_of_walk walk
  have present : pte.has PTE_P = true := by
    simp only [Pte.usable, Pte.mapped, clear, Bool.or_false, Bool.and_eq_true] at usable
    exact usable.1
  rw [sat_bind, xorPage, sat_bind, sat_get, walk]
  simp only [present, if_true, sat_modify]
  refine .seq (translateAndSet_spec (PgDir.walk_setPte walk (pte.set PTE_A)) ?_ ?_) ?_
    (fun _ _ h => h.elim)
  · simpa [Pte.usable, Pte.mapped] using usable
  · simpa using clear
  · rintro r t ⟨rfl, rfl⟩
    rw [sat_pure]
    simpa only [St.encryptPage, Proc.use, Proc.setPte, PgDir.setPte_setPte, entry, Pte.sealed]
      using post

theorem mencryptLoop_spec (n a : Nat) (s : St) (usable : usableRange s.proc.pgdir n a = true) :
    Sat (mencryptLoop n a) s (fun r t => r = 0 ∧ t = match target s.proc.pgdir n a with
      | some b => s.encryptPage b
      | none => s.flushed) (fun e t => e = .nullPte ∧ t = s ∧ tabledRange s.proc.pgdir n a = false) := by
  induction n generalizing a with
  | zero => exact ⟨rfl, rfl⟩
  | succ n ih =>
    simp only [usableRange, Bool.and_eq_true] at usable
    rw [mencryptLoop, sat_bind, sat_get, sat_bind, sat_uva2ka]
    cases walk : walkpgdir s.proc.pgdir a with
    | none => exact ⟨rfl, rfl, by simp [tabledRange, walk]⟩
    | some pte =>
      have entry := PgDir.flat_of_walk walk
      rw [entry] at usable
      dsimp only
      rw [sat_bind, sat_derefPte, walk]
      cases clear : pte.has PTE_E with
      | true => simpa [target, tabledRange, entry, walk, clear] using ih (uint (a + PGSIZE)) usable.2
      | false =>
        dsimp only
        rw [if_neg (by simp [clear])]
        refine mencrypt_page walk usable.1 clear ?_
        simp [target, entry, clear]

/-- `mencrypt` succeeds exactly when the whole range is usable, and then encrypts
at most one page of it. It reads through a null pointer only where a page table
is missing. -/
theorem mencrypt_spec (va : Nat) (len : Int) (s : St) :
    Sat (mencrypt va len) s (fun r t =>
      r = (if usableRange s.proc.pgdir len.toNat (pgRoundDown va) then 0 else -1) ∧
      t = s.mencrypted va len)
      (fun e t => e = .nullPte ∧ t = s ∧
        tabledRange s.proc.pgdir len.toNat (pgRoundDown va) = false) := by
  rw [mencrypt, sat_bind, sat_get]
  refine .bind (mencryptCheck_spec _ _ _ s) ?_
  rintro r t ⟨rfl, rfl⟩
  unfold St.mencrypted
  cases usable : usableRange t.proc.pgdir len.toNat (pgRoundDown va) with
  | false => exact ⟨rfl, rfl⟩
  | true => exact mencryptLoop_spec _ _ t usable

theorem mencrypt_one {s : St} {a : Nat} (table : (walkpgdir s.proc.pgdir a).isSome) :
    Sat (mencrypt a 1) s (fun _ t => t = s.mencrypted a 1) (fun _ _ => False) := by
  refine (mencrypt_spec a 1 s).mono (fun _ _ done => done.2) (fun _ _ failed => ?_)
  have missing := failed.2.2
  rw [show (1 : Int).toNat = 1 from rfl, tabledRange, tabledRange,
    PgDir.walk_congr _ (vpn_pgRoundDown a), table] at missing
  exact absurd missing (by decide)

@[simp] theorem mencrypted_head (s : St) (va : Nat) (len : Int) :
    (s.mencrypted va len).proc.head = s.proc.head := by
  unfold St.mencrypted
  split
  · split <;> rfl
  · rfl

/-- Some page of the range is sealed, and no other entry changes. -/
theorem mencrypted_flat (s : St) (va : Nat) (len : Int) :
    (s.mencrypted va len).proc.pgdir.flat = s.proc.pgdir.flat ∨
    ∃ a, usableRange s.proc.pgdir len.toNat (pgRoundDown va) = true ∧
      target s.proc.pgdir len.toNat (pgRoundDown va) = some a ∧
      (s.mencrypted va len).proc.pgdir.flat =
        update s.proc.pgdir.flat (vpn a) (s.proc.pgdir.flat (vpn a)).sealed := by
  unfold St.mencrypted
  split
  · rename_i usable
    split
    · rename_i a picked
      right
      refine ⟨a, usable, picked, ?_⟩
      exact PgDir.setPte_flat (PgDir.walk_of_mapped (Pte.usable_iff.mp (target_usable usable picked).1).1) _
    · exact Or.inl rfl
  · exact Or.inl rfl

/-- A round of the eviction loop on an entry that is not marked as referenced. -/
theorem evictLoop_unmarked {s : St} {a : Nat} {pte : Pte} (va head n : Nat)
    (walk : walkpgdir s.proc.pgdir a = some pte) (unmarked : pte.has PTE_A = false) :
    Sat (evictLoop va head (n + 1) a) s (fun _ t => t =
      { s.mencrypted a 1 with
        proc := (s.mencrypted a 1).proc.setClock head va ((s.proc.head + 1) % CLOCKSIZE) })
      (fun _ _ => False) := by
  rw [evictLoop, sat_bind, sat_get, sat_bind, sat_derefPte, walk]
  dsimp only
  rw [if_pos unmarked]
  refine .bind (mencrypt_one (by simp [walk])) ?_
  rintro r t rfl
  simp only [modifyProc, sat_modify, mencrypted_head]

theorem evictLoop_spec (va : Nat) (s : St)
    (table : (walkpgdir s.proc.pgdir (s.proc.clock s.proc.head)).isSome) :
    Sat (evictLoop va s.proc.head 2 (s.proc.clock s.proc.head)) s
      (fun _ t => t = s.evicted va) (fun _ _ => False) := by
  obtain ⟨pte, walk⟩ := Option.isSome_iff_exists.mp table
  have entry := PgDir.flat_of_walk walk
  cases marked : pte.has PTE_A with
  | false =>
    have aged : s.aged = s := by rw [St.aged, entry, if_neg (by simp [marked])]
    simpa only [St.evicted, aged, mencrypted_head] using
      evictLoop_unmarked va s.proc.head 1 walk marked
  | true =>
    -- The second round looks at the same entry, whose mark is now clear.
    have aged : s.aged = { s with proc := { s.proc with
        pgdir := s.proc.pgdir.setPte (s.proc.clock s.proc.head) (pte.clear PTE_A)
        head := (s.proc.head + 1) % CLOCKSIZE } } := by
      rw [St.aged, entry, if_pos marked]
    have walk' : walkpgdir s.aged.proc.pgdir (s.proc.clock s.proc.head) = some (pte.clear PTE_A) := by
      rw [aged]
      exact PgDir.walk_setPte walk _
    have second := evictLoop_unmarked va s.proc.head 0 walk' (by simp)
    rw [evictLoop, sat_bind, sat_get, sat_bind, sat_derefPte, walk]
    dsimp only
    rw [if_neg (by simp [marked])]
    rw [sat_bind, sat_storePte table]
    simp only [sat_bind, modifyProc, sat_modify, sat_get, Proc.setPte]
    rw [aged] at second
    simpa only [St.evicted, aged, mencrypted_head] using second

/-- `addClock` fails only when the clock is full and the entry at `head` lies
where there is no page table. -/
theorem addClock_spec {s : St} {va : Nat} (table : (walkpgdir s.proc.pgdir va).isSome) :
    Sat (addClock va) s
      (fun _ t => t = s.admitted va ∧ (emptySlot s.proc = none →
        (walkpgdir s.proc.pgdir (s.proc.clock s.proc.head)).isSome))
      (fun e _ => e = .nullPte ∧ emptySlot s.proc = none ∧
        walkpgdir s.proc.pgdir (s.proc.clock s.proc.head) = none) := by
  obtain ⟨pte, walk⟩ := Option.isSome_iff_exists.mp table
  have entry := PgDir.flat_of_walk walk
  rw [addClock, sat_bind, sat_get]
  dsimp only
  cases free : emptySlot s.proc with
  | some i =>
    simp only [sat_bind, modifyProc, sat_modify, sat_derefPte, walk, St.admitted, free, entry,
      true_and]
    exact fun h => by contradiction
  | none =>
    dsimp only
    cases table' : walkpgdir s.proc.pgdir (s.proc.clock s.proc.head) with
    | none =>
      rw [evictLoop, sat_bind, sat_get, sat_bind, sat_derefPte, table']
      exact ⟨rfl, rfl, rfl⟩
    | some old =>
      refine (evictLoop_spec va s (by simp [table'])).mono ?_ (fun _ _ h => h.elim)
      rintro _ t rfl
      exact ⟨by simp only [St.admitted, free], fun _ => rfl⟩

theorem mencrypted_one_flat (s : St) (a : Nat) :
    (s.mencrypted a 1).proc.pgdir.flat =
      if (s.proc.pgdir.flat (vpn a)).usable = true ∧ (s.proc.pgdir.flat (vpn a)).has PTE_E = false
      then update s.proc.pgdir.flat (vpn a) (s.proc.pgdir.flat (vpn a)).sealed
      else s.proc.pgdir.flat := by
  have range : usableRange s.proc.pgdir (1 : Int).toNat (pgRoundDown a) =
      (s.proc.pgdir.flat (vpn a)).usable := by simp [usableRange]
  have pick : target s.proc.pgdir (1 : Int).toNat (pgRoundDown a) =
      if (s.proc.pgdir.flat (vpn a)).has PTE_E then none else some (pgRoundDown a) := by
    simp [target]
  unfold St.mencrypted
  rw [range, pick]
  by_cases usable : (s.proc.pgdir.flat (vpn a)).usable = true
  · cases clear : (s.proc.pgdir.flat (vpn a)).has PTE_E with
    | true => simp [usable, St.flushed]
    | false =>
      have walk : walkpgdir s.proc.pgdir (pgRoundDown a) = some (s.proc.pgdir.flat (vpn a)) := by
        rw [PgDir.walk_congr _ (vpn_pgRoundDown a)]
        exact PgDir.walk_of_mapped (Pte.usable_iff.mp usable).1
      simp [usable, St.encryptPage, PgDir.setPte_flat walk]
  · simp [usable]

/-- Clearing the mark of an entry changes no other flag. -/
theorem unmark_flat (d : PgDir) (a v : Nat) :
    ((d.setPte a ((d.flat (vpn a)).clear PTE_A)).flat v) = d.flat v ∨
    ((d.setPte a ((d.flat (vpn a)).clear PTE_A)).flat v) = (d.flat v).clear PTE_A := by
  cases walk : walkpgdir d a with
  | none =>
    have absent : d.tabs (pdx a) = none := by
      simpa only [walkpgdir, Option.map_eq_none_iff] using walk
    simp only [PgDir.setPte, absent]
    exact Or.inl trivial
  | some pte =>
    rw [PgDir.setPte_flat walk]
    by_cases here : v = vpn a
    · subst here
      exact Or.inr (by rw [update_self])
    · exact Or.inl (by rw [update_of_ne here])

theorem aged_flat (s : St) (v : Nat) :
    s.aged.proc.pgdir.flat v = s.proc.pgdir.flat v ∨
    s.aged.proc.pgdir.flat v = (s.proc.pgdir.flat v).clear PTE_A := by
  unfold St.aged
  split
  · exact unmark_flat _ _ v
  · exact Or.inl rfl

theorem aged_has (s : St) (v : Nat) {f : PteBit} (other : f ≠ PTE_A) :
    (s.aged.proc.pgdir.flat v).has f = (s.proc.pgdir.flat v).has f := by
  obtain same | cleared := aged_flat s v
  · rw [same]
  · rw [cleared]
    simp [Ne.symm other]

theorem evicted_has (s : St) (va v : Nat) {f : PteBit} (other : f ≠ PTE_A) :
    ((s.evicted va).proc.pgdir.flat v).has f =
      if (s.proc.pgdir.flat (vpn (s.proc.clock s.proc.head))).usable = true ∧
          (s.proc.pgdir.flat (vpn (s.proc.clock s.proc.head))).has PTE_E = false ∧
          v = vpn (s.proc.clock s.proc.head)
      then (s.proc.pgdir.flat v).sealed.has f else (s.proc.pgdir.flat v).has f := by
  have usable : (s.aged.proc.pgdir.flat (vpn (s.proc.clock s.proc.head))).usable =
      (s.proc.pgdir.flat (vpn (s.proc.clock s.proc.head))).usable := by
    simp only [Pte.usable, Pte.mapped, aged_has s _ (show PTE_P ≠ PTE_A by decide),
      aged_has s _ (show PTE_E ≠ PTE_A by decide), aged_has s _ (show PTE_U ≠ PTE_A by decide)]
  change ((s.aged.mencrypted (s.proc.clock s.proc.head) 1).proc.pgdir.flat v).has f = _
  rw [mencrypted_one_flat, usable, aged_has s _ (show PTE_E ≠ PTE_A by decide)]
  by_cases sealing : (s.proc.pgdir.flat (vpn (s.proc.clock s.proc.head))).usable = true ∧
      (s.proc.pgdir.flat (vpn (s.proc.clock s.proc.head))).has PTE_E = false
  · rw [if_pos sealing]
    by_cases here : v = vpn (s.proc.clock s.proc.head)
    · subst here
      rw [update_self, if_pos ⟨sealing.1, sealing.2, rfl⟩]
      simp only [Pte.sealed_has, aged_has s _ other]
    · rw [update_of_ne here, if_neg (fun h => here h.2.2), aged_has s _ other]
  · rw [if_neg sealing, if_neg (fun h => sealing ⟨h.1, h.2.1⟩), aged_has s _ other]

/-- Recording a page seals the page it expels and changes no other page. -/
theorem recorded_has (s : St) (va v : Nat) {f : PteBit} (other : f ≠ PTE_A) :
    ((s.recorded va).proc.pgdir.flat v).has f =
      if s.expels va = some v then (s.proc.pgdir.flat v).sealed.has f
      else (s.proc.pgdir.flat v).has f := by
  unfold St.recorded St.expels
  cases queued : inQ s.proc va with
  | some i => simp
  | none =>
    simp only [Option.isNone_none, if_true, true_and]
    unfold St.admitted
    cases free : emptySlot s.proc with
    | some i =>
      simp only [false_and, reduceCtorEq, if_false]
      obtain same | cleared := unmark_flat s.proc.pgdir va v
      · exact congrArg (fun pte => Pte.has pte f) same
      · refine (congrArg (fun pte => Pte.has pte f) cleared).trans ?_
        simp [Ne.symm other]
    | none =>
      simp only [true_and]
      rw [evicted_has s va v other]
      by_cases sealing : (s.proc.pgdir.flat (vpn (s.proc.clock s.proc.head))).usable = true ∧
          (s.proc.pgdir.flat (vpn (s.proc.clock s.proc.head))).has PTE_E = false
      · simp [sealing, eq_comm]
      · rw [if_neg (fun h => sealing ⟨h.1, h.2.1⟩), if_neg sealing, if_neg (by simp)]

theorem mencrypted_tables (s : St) (va : Nat) (len : Int) (a : Nat) :
    (walkpgdir (s.mencrypted va len).proc.pgdir a).isSome = (walkpgdir s.proc.pgdir a).isSome := by
  unfold St.mencrypted
  split
  · split
    · exact PgDir.walk_setPte_isSome _ _ _ _
    · rfl
  · rfl

theorem recorded_tables (s : St) (va a : Nat) :
    (walkpgdir (s.recorded va).proc.pgdir a).isSome = (walkpgdir s.proc.pgdir a).isSome := by
  have aged : (walkpgdir s.aged.proc.pgdir a).isSome = (walkpgdir s.proc.pgdir a).isSome := by
    unfold St.aged
    split
    · exact PgDir.walk_setPte_isSome _ _ _ _
    · rfl
  unfold St.recorded
  split
  · unfold St.admitted
    split
    · exact PgDir.walk_setPte_isSome _ _ _ _
    · exact (mencrypted_tables _ _ _ _).trans aged
  · rfl

theorem mdecryptPage_spec {s : St} {va : Nat} (table : (walkpgdir s.proc.pgdir va).isSome) :
    Sat (mdecryptPage va) s (fun r t =>
      if (s.proc.pgdir.flat (vpn va)).has PTE_U ∧
          s.phys.bytes (s.proc.pgdir.flat (vpn va)).ppn 0 ≠ 0 then
        r = 0 ∧ t = s.decryptPage va
      else r = -1 ∧ t = s.revealed va) (fun _ _ => False) := by
  obtain ⟨pte, walk⟩ := Option.isSome_iff_exists.mp table
  have entry := PgDir.flat_of_walk walk
  have opened : walkpgdir (s.revealed va).proc.pgdir (pgRoundDown va) = some pte.opened := by
    rw [PgDir.walk_congr _ (vpn_pgRoundDown va), St.revealed, entry]
    exact PgDir.walk_setPte walk _
  have state : ({ s with proc := s.proc.setPte va ((pte.clear PTE_E).set PTE_P) } : St) =
      s.revealed va := by rw [St.revealed, entry, Pte.opened]
  rw [mdecryptPage, sat_bind, sat_get, sat_bind, sat_derefPte, walk, entry]
  dsimp only
  rw [sat_bind, modifyProc, sat_modify, state, sat_bind, sat_get, sat_bind, sat_uva2ka, opened]
  dsimp only
  cases user : pte.has PTE_U with
  | false =>
    have unusable : pte.opened.usable = false := by simp [Pte.usable, user]
    rw [unusable, if_neg (by simp)]
    exact ⟨rfl, rfl⟩
  | true =>
    have usable : pte.opened.usable = true := by simp [Pte.usable, Pte.mapped, user]
    rw [usable, if_pos rfl]
    dsimp only
    rw [sat_bind, sat_get]
    by_cases first : s.phys.bytes pte.ppn 0 = 0
    · rw [if_pos (by exact first), sat_pure, if_neg (by simp [first])]
      exact ⟨rfl, rfl⟩
    · rw [if_neg (by exact first), sat_bind, xorPage, sat_bind, sat_get, opened]
      dsimp only
      have present : pte.opened.has PTE_P = true := by simp
      rw [if_pos present, sat_modify, sat_pure, if_pos ⟨rfl, first⟩]
      refine ⟨rfl, ?_⟩
      simp only [St.decryptPage, St.revealed, Proc.use, Proc.setPte, entry, vpn_pgRoundDown,
        PgDir.setPte_congr _ (vpn_pgRoundDown va), PgDir.setPte_setPte, Pte.opened_ppn]

open Classical in
/-- `mdecrypt` on an entry that is not empty: it succeeds when the page is open
to user code and its first stored byte is not zero. It reads through a null
pointer when the clock is full and its oldest entry has no page table. -/
theorem mdecrypt_spec {s : St} {va : Nat} {pte : Pte} (walk : walkpgdir s.proc.pgdir va = some pte)
    (filled : pte ≠ .zero) :
    Sat (mdecrypt va) s
      (fun r t => ¬ s.Stuck va ∧
        if s.Opens va then r = 0 ∧ t = s.served va
        else r = -1 ∧ t = (s.recorded va).revealed va)
      (fun e _ => e = .nullPte ∧ s.Stuck va) := by
  have table : (walkpgdir s.proc.pgdir va).isSome := by simp [walk]
  have table' : (walkpgdir (s.recorded va).proc.pgdir va).isSome := by
    rw [recorded_tables]
    exact table
  have rest := mdecryptPage_spec table'
  rw [mdecrypt, sat_bind, sat_get]
  dsimp only
  rw [walk]
  dsimp only
  rw [if_neg filled]
  cases queued : inQ s.proc va with
  | some i =>
    have same : s.recorded va = s := by simp [St.recorded, queued]
    have free : ¬ s.Stuck va := by
      rintro ⟨absent, _⟩
      rw [queued] at absent
      contradiction
    unfold St.Opens St.served
    rw [same] at rest ⊢
    exact rest.mono (fun _ _ done => ⟨free, by convert done⟩) (fun _ _ h => h.elim)
  | none =>
    have same : s.recorded va = s.admitted va := by simp [St.recorded, queued]
    unfold St.Opens St.served
    rw [same] at rest ⊢
    dsimp only
    refine .seq (addClock_spec table) ?_ (fun _ _ failed => ⟨failed.1, queued, failed.2⟩)
    rintro _ t ⟨rfl, tables⟩
    have free : ¬ s.Stuck va := by
      rintro ⟨_, full, missing⟩
      have present := tables full
      rw [missing] at present
      contradiction
    exact rest.mono (fun _ _ done => ⟨free, by convert done⟩) (fun _ _ h => h.elim)

/-- A page fault is served, ends the process, or makes the kernel read through a
null pointer. -/
theorem trapPgflt_spec (s : St) (va : Nat) :
    Sat (trapPgflt va) s
      (fun _ t => (∃ pte, walkpgdir s.proc.pgdir va = some pte ∧ pte ≠ .zero) ∧ s.Opens va ∧
        ¬ s.Stuck va ∧ t = s.served va)
      (fun e t => e = .nullPte ∧ s.Stuck va ∨
        e = .exit ∧ (s.proc.pgdir.flat (vpn va) = .zero ∧ t = s ∨
          s.proc.pgdir.flat (vpn va) ≠ .zero ∧ ¬ s.Opens va ∧ t = (s.recorded va).revealed va)) := by
  rw [trapPgflt, sat_bind]
  cases walk : walkpgdir s.proc.pgdir va with
  | none =>
    have empty := PgDir.flat_of_walk_none walk (vpn_div va)
    rw [mdecrypt, sat_bind, sat_get]
    dsimp only
    rw [walk]
    exact Or.inr ⟨rfl, Or.inl ⟨empty, rfl⟩⟩
  | some pte =>
    have entry := PgDir.flat_of_walk walk
    by_cases filled : pte = .zero
    · rw [mdecrypt, sat_bind, sat_get]
      dsimp only
      rw [walk]
      dsimp only
      rw [if_pos filled]
      exact Or.inr ⟨rfl, Or.inl ⟨entry.trans filled, rfl⟩⟩
    · refine (mdecrypt_spec walk filled).mono ?_ (fun _ _ failed => Or.inl failed)
      rintro r t ⟨free, outcome⟩
      by_cases opens : s.Opens va
      · rw [if_pos opens] at outcome
        obtain ⟨rfl, rfl⟩ := outcome
        exact ⟨⟨pte, rfl, filled⟩, opens, free, rfl⟩
      · rw [if_neg opens] at outcome
        obtain ⟨rfl, rfl⟩ := outcome
        exact Or.inr ⟨rfl, Or.inr ⟨by rwa [entry], opens, rfl⟩⟩

theorem served_flat {s : St} {va : Nat} {pte : Pte} (walk : walkpgdir s.proc.pgdir va = some pte) :
    walkpgdir (s.served va).proc.pgdir va =
      some (((s.recorded va).proc.pgdir.flat (vpn va)).opened.set PTE_A) := by
  have table : (walkpgdir (s.recorded va).proc.pgdir va).isSome := by
    rw [recorded_tables]
    simp [walk]
  obtain ⟨old, walk'⟩ := Option.isSome_iff_exists.mp table
  exact PgDir.walk_setPte walk' _

/-- A page fault makes its page present, and of the others only the page it expels
is no longer present. -/
theorem served_present {s : St} {va : Nat} (filled : s.proc.pgdir.flat (vpn va) ≠ .zero) (v : Nat) :
    ((s.served va).proc.pgdir.flat v).has PTE_P = true ↔
      v = vpn va ∨ (s.proc.pgdir.flat v).has PTE_P = true ∧ s.expels va ≠ some v := by
  have table : (walkpgdir (s.recorded va).proc.pgdir va).isSome := by
    rw [recorded_tables, PgDir.walk_of_filled filled]
    rfl
  obtain ⟨old, walk⟩ := Option.isSome_iff_exists.mp table
  have flat := PgDir.setPte_flat walk
    (((s.recorded va).proc.pgdir.flat (vpn va)).opened.set PTE_A)
  change (((s.recorded va).proc.pgdir.setPte va
    (((s.recorded va).proc.pgdir.flat (vpn va)).opened.set PTE_A)).flat v).has PTE_P = true ↔ _
  rw [flat]
  by_cases here : v = vpn va
  · subst here
    simp
  · rw [update_of_ne here, recorded_has s va v (by decide)]
    by_cases expelled : s.expels va = some v
    · simp [here, expelled]
    · simp [here, expelled]

theorem touched_has (s : St) (va v : Nat) {f : PteBit} (other : f ≠ PTE_A) :
    ((s.touched va).proc.pgdir.flat v).has f = (s.proc.pgdir.flat v).has f := by
  change ((s.proc.pgdir.setPte va ((s.proc.pgdir.flat (vpn va)).set PTE_A)).flat v).has f = _
  cases walk : walkpgdir s.proc.pgdir va with
  | none =>
    have absent : s.proc.pgdir.tabs (pdx va) = none := by
      simpa only [walkpgdir, Option.map_eq_none_iff] using walk
    simp only [PgDir.setPte, absent]
  | some pte =>
    rw [PgDir.setPte_flat walk]
    by_cases here : v = vpn va
    · subst here
      rw [update_self]
      simp [Ne.symm other]
    · rw [update_of_ne here]

theorem resident_present {s : St} {va : Nat} : (s.proc.resident false va).isSome ↔
    (s.proc.pgdir.flat (vpn va)).has PTE_P = true := by
  rw [Proc.resident, Option.isSome_filter]
  cases walk : walkpgdir s.proc.pgdir va with
  | none =>
    rw [PgDir.flat_of_walk_none walk (vpn_div va)]
    simp
  | some pte =>
    rw [PgDir.flat_of_walk walk]
    simp

/-- An access to a resident page only marks it; another access is a page fault
followed by an access. -/
theorem access_spec (user : Bool) (s : St) (va : Nat) :
    Sat (access user va) s
      (fun f t => (s.proc.resident user va).isSome ∧ t = s.touched va ∧
          f = (s.proc.pgdir.flat (vpn va)).ppn ∨
        s.proc.resident user va = none ∧ s.proc.pgdir.flat (vpn va) ≠ .zero ∧ s.Opens va ∧
          ¬ s.Stuck va ∧ t = (s.served va).touched va ∧
          f = ((s.served va).proc.pgdir.flat (vpn va)).ppn)
      (fun e t => s.proc.resident user va = none ∧ (e = .nullPte ∧ s.Stuck va ∨
        e = .exit ∧ (s.proc.pgdir.flat (vpn va) = .zero ∧ t = s ∨
          s.proc.pgdir.flat (vpn va) ≠ .zero ∧ ¬ s.Opens va ∧
            t = (s.recorded va).revealed va))) := by
  have direct : ∀ (u : St) (pte : Pte), u.proc.resident user va = some pte →
      pte = u.proc.pgdir.flat (vpn va) := by
    intro u pte resident
    rw [Proc.resident, Option.filter_eq_some_iff] at resident
    exact (PgDir.flat_of_walk resident.1).symm
  rw [access, sat_bind, sat_get]
  cases here : s.proc.resident user va with
  | some pte =>
    obtain rfl := direct s pte here
    exact Or.inl ⟨rfl, rfl, rfl⟩
  | none =>
    dsimp only
    refine .seq (trapPgflt_spec s va) ?_ (fun _ _ stop => ⟨rfl, stop⟩)
    rintro _ t ⟨⟨pte, walk, filled⟩, opens, free, rfl⟩
    have entry := PgDir.flat_of_walk walk
    have resident : (s.served va).proc.resident user va =
        some (((s.recorded va).proc.pgdir.flat (vpn va)).opened.set PTE_A) := by
      rw [Proc.resident, served_flat walk]
      simp [opens.1]
    rw [sat_bind, sat_get, resident, direct _ _ resident]
    refine Or.inr ⟨rfl, by rwa [entry], opens, free, rfl, rfl⟩

end Xv6
