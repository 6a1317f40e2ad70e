import Xv6.ExecImage
import Xv6.Lib.Log
import Xv6.PageListing

/-! `sys_getpgtable`: the check of the buffer against what the loop writes. The size of the
buffer is a product of 32 bits, and the loop compares its counter with `num` only after a
write, so the check protects the process only for the values of `num` in between. -/
namespace Xv6
open PteBit Control

/-- `num*sizeof(struct pt_entry)`, as the `int` that `argptr` gets. -/
@[irreducible] def entriesSize (num : Int) : Int := (num * 8).bmod (2 ^ 32)

/-- `sys_getpgtable` goes on to `getpgtable`. -/
def entriesChecked (p : Proc) (entries : Nat) (num : Int) : Bool :=
  0 ≤ entriesSize num ∧ argptr p entries (entriesSize num).toNat

/-- `sys_getpgtable`, once it has fetched its arguments. -/
def sysGetpgtable [NullPte] (fuel entries : Nat) (num wsetOnly : Int) : K Int := do
  if entriesChecked (← get).proc entries num then
    return (← getpgtable fuel entries num wsetOnly).1
  else return -1

/-- The loop of `getpgtable` with a log of the entries it writes. -/
def getpgtableLog [NullPte] (entries : Nat) (num wsetOnly : Int) :
    Nat → Nat → Nat → EStateM Stop (St × List Nat) (Nat × List Nat)
  | 0, _, _ => throw .spin
  | fuel + 1, uva, i => do
    let p := (← quietly get).proc
    let pte ← quietly (derefPte p.pgdir uva)
    let next := uint (uva + 2 ^ 32 - PGSIZE)
    if pte.has PTE_U = false ∨ pte.mapped = false then
      let (n, seen) ← getpgtableLog entries num wsetOnly fuel next i
      return (n, uva :: seen)
    else if wsetOnly ≠ 0 ∧ inQ p uva = none then
      let (n, seen) ← getpgtableLog entries num wsetOnly fuel next i
      return (n, uva :: seen)
    else
      note (entries + 8 * i)
      quietly (writeEntry (entries + 8 * i) uva)
      if uva = 0 ∨ ((i + 1 : Nat) : Int) = num then
        return (i + 1, [uva])
      else
        let (n, seen) ← getpgtableLog entries num wsetOnly fuel next (i + 1)
        return (n, uva :: seen)

/-- `sys_getpgtable` with a log of the entries it writes. -/
def sysGetpgtableLog [NullPte] (fuel entries : Nat) (num wsetOnly : Int) :
    EStateM Stop (St × List Nat) Int := do
  if entriesChecked (← quietly get).proc entries num then
    if wsetOnly ≠ 0 ∧ wsetOnly ≠ 1 then
      return -1
    else
      let p := (← quietly get).proc
      let (i, _) ← getpgtableLog entries num wsetOnly fuel (scanStart p.sz) 0
      return i
  else return -1

theorem getpgtableLog_forgets [NullPte] (entries : Nat) (num wsetOnly : Int) (fuel uva i : Nat) :
    Forgets (getpgtableLog entries num wsetOnly fuel uva i)
      (getpgtableLoop entries num wsetOnly fuel uva i) := by
  induction fuel generalizing uva i with
  | zero => exact .throw _
  | succ fuel ih =>
    rw [getpgtableLog, getpgtableLoop]
    apply Forgets.bind (.quietly _)
    intro s
    apply Forgets.bind (.quietly _)
    intro pte
    apply Forgets.ite
    · exact .bind (ih _ _) fun r => .pure _
    apply Forgets.ite
    · exact .bind (ih _ _) fun r => .pure _
    apply Forgets.note
    apply Forgets.bind (.quietly _)
    intro _
    apply Forgets.ite
    · exact .pure _
    · exact .bind (ih _ _) fun r => .pure _

/-- Without its log the call is `sys_getpgtable`. -/
theorem sysGetpgtableLog_forgets [NullPte] (fuel entries : Nat) (num wsetOnly : Int) :
    Forgets (sysGetpgtableLog fuel entries num wsetOnly)
      (sysGetpgtable fuel entries num wsetOnly) := by
  intro s log Q E
  rw [sysGetpgtableLog, sysGetpgtable, sat_bind, sat_quietly, sat_get, sat_bind, sat_get]
  split
  · rw [getpgtable, sat_bind]
    split
    · rfl
    · rw [sat_bind, sat_quietly, sat_get, sat_bind, sat_bind, sat_get, sat_bind]
      exact getpgtableLog_forgets entries num wsetOnly fuel _ 0 s log
        (fun r t => Q (r.1 : Int) t) E
  · rfl

/-- The test of the loop on the entry it has read for page `v`. -/
def Proc.picks (p : Proc) (wsetOnly : Int) (v : Nat) (pte : Pte) : Bool :=
  pte.usable && (wsetOnly = 0 || (inQ p (v * 4096)).isSome)

/-- However the computation ends, its log satisfies `R`. -/
abbrev Leaves {α : Type} (R : List Nat → Prop) (m : EStateM Stop (St × List Nat) α) (s : St)
    (log : List Nat) : Prop :=
  Sat m (s, log) (fun _ t => R t.2) (fun _ t => R t.2)

/-- The entries of the log are among the first `n` of the buffer. -/
def Among (entries n : Nat) (log : List Nat) : Prop := ∀ e ∈ log, ∃ j < n, e = entries + 8 * j

section Scan
variable {entries i v fuel : Nat} {num wsetOnly : Int} {s : St} {log : List Nat}

/-- One round: what the loop does once it has read the entry of page `v`. -/
theorem log_round [NullPte] {R : List Nat → Prop} (low : v < 2 ^ 20)
    (read : Sat (derefPte s.proc.pgdir (v * 4096)) s (fun pte t =>
      if s.proc.picks wsetOnly v pte then
        R (log ++ [entries + 8 * i]) ∧ (((i + 1 : Nat) : Int) ≠ num → ∀ u, Leaves R
          (getpgtableLog entries num wsetOnly fuel (pageBelow v * 4096) (i + 1)) u
          (log ++ [entries + 8 * i]))
      else Leaves R (getpgtableLog entries num wsetOnly fuel (pageBelow v * 4096) i) t log)
      (fun _ _ => R log)) :
    Leaves R (getpgtableLog entries num wsetOnly (fuel + 1) (v * 4096) i) s log := by
  rw [Leaves, getpgtableLog, sat_bind, sat_quietly, sat_get, sat_bind, sat_quietly]
  refine read.imp (fun pte t rest => ?_)
  dsimp only
  rw [next_page low]
  by_cases usable : pte.usable = true
  · obtain ⟨mapped, user⟩ := Pte.usable_iff.mp usable
    rw [if_neg (by simp [mapped, user])]
    by_cases away : wsetOnly ≠ 0 ∧ inQ s.proc (v * 4096) = none
    · rw [Proc.picks, if_neg (by simp [away])] at rest
      rw [if_pos away, sat_bind]
      exact rest
    · have picked : s.proc.picks wsetOnly v pte = true := by
        rw [Proc.picks, usable, Bool.true_and, Bool.or_eq_true, decide_eq_true_eq,
          Option.isSome_iff_ne_none]
        exact or_iff_not_imp_left.mpr fun set none => away ⟨set, none⟩
      rw [if_pos picked] at rest
      rw [if_neg away, sat_bind, sat_note, sat_bind, sat_quietly]
      refine (sat_self _ _).mono (fun _ u _ => ?_) (fun _ _ _ => rest.1)
      split
      · exact rest.1
      · rename_i more
        rw [sat_bind]
        exact rest.2 (not_or.mp more).2 u
  · have closed : pte.has PTE_U = false ∨ pte.mapped = false := by
      rw [← Bool.not_eq_true, ← Bool.not_eq_true, ← not_and_or]
      exact fun both => usable (Pte.usable_iff.mpr ⟨both.2, both.1⟩)
    rw [Proc.picks, Bool.eq_false_iff.mpr usable, Bool.false_and, if_neg (by simp)] at rest
    rw [if_pos closed, sat_bind]
    exact rest

/-- The entries that are written are among the first `n`: the loop ends at the `n`-th. -/
theorem log_bounded [NullPte] {n : Nat} (fuel : Nat) (low : v < 2 ^ 20) (count : i < n)
    (before : Among entries n log) :
    Leaves (Among entries n) (getpgtableLog entries n wsetOnly fuel (v * 4096) i) s log := by
  induction fuel generalizing v i s log with
  | zero => exact before
  | succ fuel ih =>
    refine log_round low ((sat_self _ _).mono (fun pte t _ => ?_) (fun _ _ _ => before))
    split
    · have grown : Among entries n (log ++ [entries + 8 * i]) := by
        intro e member
        obtain old | new := List.mem_append.mp member
        · exact before e old
        · exact ⟨i, count, List.mem_singleton.mp new⟩
      exact ⟨grown, fun more u => ih (pageBelow_lt v) (by omega) grown⟩
    · exact ih (pageBelow_lt v) count before

end Scan

/-! The scan of the kernel, when page 0 is present: it reads an entry that has no page table
from the word at user address 0, and goes on. -/

section Null
variable {s t u : St} {v : Nat}

/-- The entry behind the null pointer. -/
def St.nullEntry (s : St) : Pte :=
  .ofWord (le ((List.range 4).map fun k => s.phys.bytes (s.proc.pgdir.flat 0).ppn (slot k)) 0 4)

/-- The entry that the scan reads for page `v`. -/
def St.lookUp (s : St) (v : Nat) : Pte :=
  if (walkpgdir s.proc.pgdir (v * 4096)).isSome then s.proc.pgdir.flat v else s.nullEntry

/-- The scan writes an entry for page `v`. -/
def St.lists (s : St) (wsetOnly : Int) (v : Nat) : Bool := s.proc.picks wsetOnly v (s.lookUp v)

/-- The kernel has read, and not changed, what the scan looks at. -/
structure Looked (s t : St) : Prop where
  marks : ∃ A, Marks s t A
  phys : t.phys = s.phys

theorem Looked.refl (s : St) : Looked s s := ⟨⟨_, .refl s⟩, rfl⟩

theorem Looked.trans (first : Looked s t) (second : Looked t u) : Looked s u := by
  obtain ⟨⟨A, marks⟩, phys⟩ := first
  obtain ⟨⟨B, marks'⟩, phys'⟩ := second
  exact ⟨⟨_, marks.trans marks'⟩, phys'.trans phys⟩

theorem Looked.holds (looked : Looked s t) (present : s.holds 0) : t.holds 0 := by
  obtain ⟨A, marks⟩ := looked.marks
  rwa [St.holds, marks.has _ (by decide)]

theorem Looked.lists (looked : Looked s t) (wsetOnly : Int) (v : Nat) :
    t.lists wsetOnly v = s.lists wsetOnly v := by
  obtain ⟨A, marks⟩ := looked.marks
  have queued : inQ t.proc (v * 4096) = inQ s.proc (v * 4096) := by
    rw [inQ, inQ, marks.clock, marks.head]
  have usable : (t.lookUp v).usable = (s.lookUp v).usable := by
    rw [St.lookUp, St.lookUp, marks.tabs, St.nullEntry, St.nullEntry, looked.phys, marks.ppn]
    split
    · rw [Pte.usable, Pte.usable, Pte.mapped, Pte.mapped, marks.has v (by decide),
        marks.has v (by decide), marks.has v (by decide)]
    · rfl
  rw [St.lists, St.lists, Proc.picks, Proc.picks, queued, usable]

theorem load_zero (present : s.holds 0) {k : Nat} (inside : k < 4) :
    Sat (load false (uint k)) s (fun b t => b = s.phys.bytes (s.proc.pgdir.flat 0).ppn (slot k) ∧
      Looked s t) (fun _ _ => False) := by
  have same : uint k = k := Nat.mod_eq_of_lt (by omega)
  have page : vpn k = 0 := by
    simp only [vpn, PGSIZE]
    omega
  have held : s.holds k := by rwa [St.holds, page]
  have resident := Option.isSome_iff_ne_none.mp (resident_present.mpr held)
  rw [same, load, sat_bind]
  refine (access_spec false s k).mono ?_ (fun _ _ stop => resident stop.1)
  rintro f t (⟨_, rfl, rfl⟩ | ⟨fault, _⟩)
  · rw [sat_bind, sat_get, sat_pure, page]
    exact ⟨rfl, ⟨_, .touched held⟩, rfl⟩
  · exact absurd fault resident

theorem Looked.byte (looked : Looked s t) (k : Nat) :
    t.phys.bytes (t.proc.pgdir.flat 0).ppn (slot k) = s.phys.bytes (s.proc.pgdir.flat 0).ppn (slot k) := by
  obtain ⟨A, marks⟩ := looked.marks
  rw [looked.phys, marks.ppn]

theorem derefPte_looks (present : s.holds 0) (low : v < 2 ^ 20) :
    Sat (@derefPte .userWord s.proc.pgdir (v * 4096)) s (fun pte t => pte = s.lookUp v ∧ Looked s t)
      (fun _ _ => False) := by
  unfold derefPte St.lookUp
  cases walk : walkpgdir s.proc.pgdir (v * 4096) with
  | some pte =>
    have entry := PgDir.flat_of_walk walk
    rw [vpn_page low] at entry
    exact ⟨entry.symm, .refl s⟩
  | none =>
    have next : ∀ {t : St} {k : Nat}, Looked s t → k < 4 → Sat (load false (uint k)) t
        (fun b u => b = s.phys.bytes (s.proc.pgdir.flat 0).ppn (slot k) ∧ Looked s u)
        (fun _ _ => False) := by
      intro t k looked inside
      refine (load_zero (looked.holds present) inside).imp ?_
      rintro b u ⟨value, later⟩
      exact ⟨value.trans (looked.byte k), looked.trans later⟩
    change Sat (do return Pte.ofWord (← loadWord 0)) s _ _
    rw [sat_bind, loadWord, sat_bind]
    refine (next (.refl s) (k := 0) (by decide)).imp ?_
    rintro _ t ⟨rfl, looked⟩
    rw [sat_bind]
    refine (next looked (k := 1) (by decide)).imp ?_
    rintro _ t ⟨rfl, looked⟩
    rw [sat_bind]
    refine (next looked (k := 2) (by decide)).imp ?_
    rintro _ t ⟨rfl, looked⟩
    rw [sat_bind]
    refine (next looked (k := 3) (by decide)).imp ?_
    rintro _ t ⟨rfl, looked⟩
    exact ⟨rfl, looked⟩

end Null

section Kernel
variable {entries i v : Nat} {num wsetOnly : Int} {s : St} {log : List Nat}

/-- A round of the scan of the kernel. -/
theorem log_looks {R : List Nat → Prop} {fuel : Nat} (present : s.holds 0) (low : v < 2 ^ 20)
    (rest : if s.lists wsetOnly v then
        R (log ++ [entries + 8 * i]) ∧ (((i + 1 : Nat) : Int) ≠ num → ∀ u, Leaves R
          (@getpgtableLog .userWord entries num wsetOnly fuel (pageBelow v * 4096) (i + 1)) u
          (log ++ [entries + 8 * i]))
      else ∀ t, Looked s t → Leaves R
        (@getpgtableLog .userWord entries num wsetOnly fuel (pageBelow v * 4096) i) t log) :
    Leaves R (@getpgtableLog .userWord entries num wsetOnly (fuel + 1) (v * 4096) i) s log := by
  refine @log_round _ _ _ _ _ _ _ _ .userWord _ low
    ((derefPte_looks present low).mono ?_ (fun _ _ no => no.elim))
  rintro _ t ⟨rfl, looked⟩
  change if s.lists wsetOnly v = true then _ else _
  split
  · rename_i listed
    rwa [if_pos listed] at rest
  · rename_i skipped
    rw [if_neg skipped] at rest
    exact rest t looked

/-- The log only grows. -/
theorem log_grows [NullPte] {e : Nat} (fuel : Nat) (low : v < 2 ^ 20) (member : e ∈ log) :
    Leaves (e ∈ ·) (getpgtableLog entries num wsetOnly fuel (v * 4096) i) s log := by
  induction fuel generalizing v i s log with
  | zero => exact member
  | succ fuel ih =>
    refine log_round low ((sat_self _ _).mono (fun pte t _ => ?_) (fun _ _ _ => member))
    split
    · have still := List.mem_append_left [entries + 8 * i] member
      exact ⟨still, fun _ u => ih (pageBelow_lt v) still⟩
    · exact ih (pageBelow_lt v) member

/-- The scan comes to the page that is `k` pages further down, or writes an entry before. -/
theorem log_of_listed (k : Nat) (present : s.holds 0) (low : v < 2 ^ 20)
    (listed : s.lists wsetOnly (pageBelow^[k] v) = true) :
    Leaves (entries + 8 * i ∈ ·)
      (@getpgtableLog .userWord entries num wsetOnly (k + 1) (v * 4096) i) s log := by
  have member : entries + 8 * i ∈ log ++ [entries + 8 * i] :=
    List.mem_append_right _ (List.mem_singleton_self _)
  induction k generalizing v s with
  | zero =>
    rw [Function.iterate_zero, id_eq] at listed
    refine log_looks present low ?_
    rw [if_pos listed]
    exact ⟨member, fun _ u => member⟩
  | succ k ih =>
    rw [Function.iterate_succ_apply] at listed
    refine log_looks present low ?_
    split
    · exact ⟨member, fun _ u => @log_grows _ _ _ _ _ _ _ .userWord _ (k + 1) (pageBelow_lt v) member⟩
    · exact fun t looked => ih (looked.holds present) (pageBelow_lt v) ((looked.lists _ _).trans listed)

theorem log_of_unlisted (present : s.holds 0) (never : ∀ v < 2 ^ 20, s.lists wsetOnly v = false)
    (fuel : Nat) (low : v < 2 ^ 20) :
    Leaves (· = log) (@getpgtableLog .userWord entries num wsetOnly fuel (v * 4096) i) s log := by
  induction fuel generalizing v s with
  | zero => exact rfl
  | succ fuel ih =>
    refine log_looks present low ?_
    rw [if_neg (by rw [never v low]; simp)]
    exact fun t looked => ih (looked.holds present)
      (fun w high => (looked.lists _ _).trans (never w high)) (pageBelow_lt v)

/-- Going down, the scan comes to every page. -/
theorem pageBelow_reaches {u v : Nat} (target : u < 2 ^ 20) (low : v < 2 ^ 20) :
    ∃ k, pageBelow^[k] v = u := by
  have down : ∀ k ≤ 2 ^ 20, pageBelow^[k] v = (v + 2 ^ 20 - k) % 2 ^ 20 := by
    intro k
    induction k with
    | zero =>
      intro _
      rw [Function.iterate_zero, id_eq]
      omega
    | succ k ih =>
      intro short
      rw [Function.iterate_succ_apply', ih (by omega), pageBelow]
      omega
  exact ⟨(v + 2 ^ 20 - u) % 2 ^ 20, by rw [down _ (by omega)]; omega⟩

end Kernel

section Scan
variable {entries i v : Nat} {num wsetOnly : Int} {s : St} {log : List Nat}

/-- The call with its log, once the check has passed. -/
theorem sat_sysGetpgtableLog [NullPte] {fuel : Nat} (size : s.proc.sz ≤ KERNBASE)
    (checked : entriesChecked s.proc entries num = true) (flag : wsetOnly = 0 ∨ wsetOnly = 1)
    {R : List Nat → Prop} :
    Sat (sysGetpgtableLog fuel entries num wsetOnly) (s, []) (fun _ t => R t.2) (fun _ t => R t.2) ↔
      Sat (getpgtableLog entries num wsetOnly fuel (pageBelow s.proc.pageCount * 4096) 0) (s, [])
        (fun _ t => R t.2) (fun _ t => R t.2) := by
  rw [sysGetpgtableLog, sat_bind, sat_quietly, sat_get]
  dsimp only
  rw [if_pos checked, if_neg (by omega), sat_bind, sat_quietly, sat_get, scanStart_page size, sat_bind]
  rfl

/-- A flag other than 0 and 1 is refused before the loop. -/
theorem log_of_flag [NullPte] {fuel : Nat} (flag : ¬ (wsetOnly = 0 ∨ wsetOnly = 1)) :
    Sat (sysGetpgtableLog fuel entries num wsetOnly) (s, log) (fun _ t => t.2 = log)
      (fun _ t => t.2 = log) := by
  rw [sysGetpgtableLog, sat_bind, sat_quietly, sat_get]
  split
  · rw [if_pos (not_or.mp flag)]
    rfl
  · rfl

end Scan

/-- In the kernel, where `sys_getpgtable` goes on to `getpgtable`, the entries it writes are in the buffer of
`num` entries, and the buffer is below the size of the process. -/
def EntriesInside (s : St) (entries : Nat) (num wsetOnly : Int) : Prop :=
  entriesChecked s.proc entries num = true →
    (∀ fuel, ∀ e ∈ trail (@sysGetpgtableLog .userWord fuel entries num wsetOnly) s,
      entries ≤ e ∧ e + 8 ≤ entries + 8 * num.toNat) ∧ entries + 8 * num.toNat ≤ s.proc.sz

section Size
variable {num : Int}

theorem entriesSize_small (positive : 0 < num) (small : num < 2 ^ 28) : entriesSize num = num * 8 := by
  unfold entriesSize
  rw [Int.bmod_eq_of_le_mul_two] <;> omega

theorem entriesSize_large (large : num = 2 ^ 28) : entriesSize num < 0 := by
  subst large
  rw [entriesSize]
  decide

end Size

section Inside
variable {s : St} {entries : Nat} {num wsetOnly : Int}

/-- What the check guarantees for a number of entries that does not wrap around. -/
theorem entriesChecked_small (positive : 0 < num) (small : num < 2 ^ 28)
    (size : s.proc.sz ≤ KERNBASE) (checked : entriesChecked s.proc entries num = true) :
    entries + 8 * num.toNat ≤ s.proc.sz := by
  rw [entriesChecked, decide_eq_true_eq, entriesSize_small positive small, argptr,
    decide_eq_true_eq] at checked
  obtain ⟨_, below, fits⟩ := checked
  simp only [uint, KERNBASE] at *
  omega

theorem log_among [NullPte] {n : Nat} (some : 0 < n) (size : s.proc.sz ≤ KERNBASE)
    (checked : entriesChecked s.proc entries n = true) (fuel : Nat) :
    Among entries n (trail (sysGetpgtableLog fuel entries n wsetOnly) s) := by
  have empty : Among entries n [] := fun e member => absurd member List.not_mem_nil
  apply trail_of_sat
  by_cases flag : wsetOnly = 0 ∨ wsetOnly = 1
  · rw [sat_sysGetpgtableLog size checked flag]
    exact log_bounded fuel (pageBelow_lt _) some empty
  · apply (log_of_flag flag).mono
    · rintro _ t same
      rwa [same]
    · rintro _ t same
      rwa [same]

/-- There is nothing to list: the scan goes on without an end. -/
def St.Bare (s : St) (wsetOnly : Int) : Prop :=
  wsetOnly = 0 ∨ wsetOnly = 1 → s.holds 0 ∧ ∀ v < 2 ^ 20, s.lists wsetOnly v = false

theorem log_nothing (size : s.proc.sz ≤ KERNBASE)
    (checked : entriesChecked s.proc entries num = true) (bare : s.Bare wsetOnly) (fuel : Nat) :
    trail (@sysGetpgtableLog .userWord fuel entries num wsetOnly) s = [] := by
  apply trail_of_sat (R := fun l => l = [])
  by_cases flag : wsetOnly = 0 ∨ wsetOnly = 1
  · obtain ⟨present, never⟩ := bare flag
    apply (@sat_sysGetpgtableLog _ _ _ _ .userWord _ size checked flag fun l => l = []).mpr
    exact log_of_unlisted present never fuel (pageBelow_lt _)
  · exact @log_of_flag _ _ _ _ _ .userWord _ flag

/-- While some page is listed, an entry is written for it or for a page above it. -/
theorem written_of_listed (size : s.proc.sz ≤ KERNBASE) (present : s.holds 0)
    (checked : entriesChecked s.proc entries num = true) (flag : wsetOnly = 0 ∨ wsetOnly = 1) {v : Nat}
    (low : v < 2 ^ 20) (listed : s.lists wsetOnly v = true) :
    ∃ fuel, entries ∈ trail (@sysGetpgtableLog .userWord fuel entries num wsetOnly) s := by
  obtain ⟨k, rfl⟩ := pageBelow_reaches low (pageBelow_lt s.proc.pageCount)
  have scan : Leaves (entries + 8 * 0 ∈ ·) (@getpgtableLog .userWord entries num wsetOnly
      (k + 1) (pageBelow s.proc.pageCount * 4096) 0) s [] :=
    log_of_listed k present (pageBelow_lt _) listed
  exact ⟨k + 1, trail_of_sat (R := fun l => entries ∈ l)
    ((@sat_sysGetpgtableLog _ _ _ _ .userWord _ size checked flag _).mpr scan)⟩

theorem inside_of_small (positive : 0 < num) (small : num < 2 ^ 28)
    (size : s.proc.sz ≤ KERNBASE) : EntriesInside s entries num wsetOnly := by
  intro checked
  refine ⟨fun fuel e member => ?_, entriesChecked_small positive small size checked⟩
  obtain ⟨n, rfl⟩ := Int.eq_ofNat_of_zero_le positive.le
  obtain ⟨j, inside, rfl⟩ :=
    @log_among _ _ _ .userWord _ (Int.natCast_pos.mp positive) size checked fuel e member
  rw [Int.toNat_natCast]
  omega

end Inside

/-- The entries stay inside the buffer when `num` is positive and so small that its product does
not wrap around, or when it is not positive and there is no page to list; if page 0 is present,
only then. -/
theorem getpgtable_inside_iff {s : St} (size : s.proc.sz ≤ KERNBASE) (entries : Nat)
    (num : BitVec 32) (wsetOnly : Int) :
    ((entriesChecked s.proc entries num.toInt = true →
        0 < num.toInt ∧ num.toInt < 2 ^ 28 ∨ num.toInt ≤ 0 ∧ s.Bare wsetOnly) →
      EntriesInside s entries num.toInt wsetOnly) ∧
    (s.holds 0 → EntriesInside s entries num.toInt wsetOnly →
      entriesChecked s.proc entries num.toInt = true →
        0 < num.toInt ∧ num.toInt < 2 ^ 28 ∨ num.toInt ≤ 0 ∧ s.Bare wsetOnly) := by
  have range := BitVec.toInt_lt (x := num)
  constructor
  · intro safe checked
    obtain ⟨positive, small⟩ | ⟨negative, bare⟩ := safe checked
    · exact inside_of_small positive small size checked
    · refine ⟨fun fuel e member => ?_, ?_⟩
      · rw [log_nothing size checked bare] at member
        exact absurd member List.not_mem_nil
      · rw [entriesChecked, decide_eq_true_eq, argptr, decide_eq_true_eq] at checked
        omega
  · intro present inside checked
    obtain ⟨written, fits⟩ := inside checked
    by_cases positive : 0 < num.toInt
    · refine Or.inl ⟨positive, ?_⟩
      by_contra large
      simp only [KERNBASE] at size
      have negative : entriesSize num.toInt < 0 := entriesSize_large (by omega)
      rw [entriesChecked, decide_eq_true_eq] at checked
      exact absurd checked.1 (by omega)
    · refine Or.inr ⟨by omega, fun flag => ⟨present, fun v low => ?_⟩⟩
      by_contra listed
      obtain ⟨fuel, member⟩ := written_of_listed size present checked flag low
        (Bool.not_eq_false _ ▸ listed)
      have entry := written fuel _ member
      omega

/-- With room for one entry the process is safe. -/
theorem one_entry_inside : EntriesInside launchSt 0x1000 (1 : BitVec 32).toInt 0 :=
  (getpgtable_inside_iff (by decide) 0x1000 1 0).1 fun _ => Or.inl (by decide)

/-- A process with two pages calls `getpgtable` with no room for an entry: an entry is written
all the same. A number of entries whose product wraps around to 0 passes the check as well. -/
theorem entry_written_outside :
    ¬ EntriesInside launchSt 0x1000 0 0 ∧ ¬ EntriesInside launchSt 0x1000 (2 ^ 29) 0 := by
  have none : entriesSize 0 = 0 := by
    rw [entriesSize]
    decide
  have zero : entriesChecked launchSt.proc 0x1000 0 = true := by
    rw [entriesChecked, none]
    decide
  obtain ⟨fuel, written⟩ : ∃ fuel,
      0x1000 ∈ trail (@sysGetpgtableLog .userWord fuel 0x1000 0 0) launchSt :=
    written_of_listed (by decide) rfl zero (Or.inl rfl) (v := 1) (by decide) (by decide +kernel)
  have wraps : entriesSize (2 ^ 29) = 0 := by
    rw [entriesSize]
    decide
  have wrapped : entriesChecked launchSt.proc 0x1000 (2 ^ 29) = true := by
    rw [entriesChecked, wraps]
    decide
  constructor
  · intro inside
    exact absurd ((inside zero).1 fuel 0x1000 written).2 (by decide)
  · intro inside
    exact absurd (inside wrapped).2 (by decide +kernel)

end Xv6
