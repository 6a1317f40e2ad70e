import Mathlib.Data.UInt
import Xv6.Kalloc

/-! The walk of `mpinit` over the entries of the MP configuration table. The table is given by
its bytes, from the header on; it lies in the memory that the kernel has mapped, so that no
pointer into it wraps. -/
namespace Xv6.Mp

def NCPU : Nat := 8
/-- `sizeof(struct mpconf)` and `sizeof(struct mpproc)`. -/
def sizeofConf : Nat := 44
def sizeofProc : Nat := 20

/-- `conf->length`. -/
def tableLength (conf : Nat → UInt8) : Nat := (conf 4).toNat + 256 * (conf 5).toNat

def sum (conf : Nat → UInt8) (len : Nat) : UInt8 := ((List.range len).map conf).sum

/-- The checks of `mpconfig`. -/
def mpconfig (conf : Nat → UInt8) : Bool :=
  [conf 0, conf 1, conf 2, conf 3] = [80, 67, 77, 80] ∧ (conf 6 = 1 ∨ conf 6 = 4) ∧
    sum conf (tableLength conf) = 0

/-- What `mpinit` records: the processors, as many as `ncpu` counts, and the I/O APIC. -/
structure Machine where
  cpus : List UInt8
  ioapicid : UInt8
  ismp : Bool
  deriving DecidableEq

def MPPROC : UInt8 := 0
def MPBUS : UInt8 := 1
def MPIOAPIC : UInt8 := 2
def MPIOINTR : UInt8 := 3
def MPLINTR : UInt8 := 4

/-- The `switch` of `mpinit` on the entry at `p`: where the next one begins and what is
recorded, if the type is known. -/
def entry (conf : Nat → UInt8) (p : Nat) (m : Machine) : Option (Nat × Machine) :=
  if conf p = MPPROC then
    some (p + sizeofProc,
      if m.cpus.length < NCPU then { m with cpus := m.cpus ++ [conf (p + 1)] } else m)
  else if conf p = MPIOAPIC then some (p + 8, { m with ioapicid := conf (p + 1) })
  else if conf p = MPBUS ∨ conf p = MPIOINTR ∨ conf p = MPLINTR then some (p + 8, m)
  else none

/-- The loop of `mpinit` for at most so many rounds. The `break` for an entry of another type
leaves the `switch` only, so that the pointer stays where it is. -/
def walk (conf : Nat → UInt8) : Nat → Nat → Machine → Except Stop Machine
  | 0, p, m => if p < tableLength conf then throw .spin else return m
  | rounds + 1, p, m =>
    if p < tableLength conf then
      match entry conf p m with
      | some (q, m') => walk conf rounds q m'
      | none => walk conf rounds p { m with ismp := false }
    else return m

def mpinit (conf : Nat → UInt8) (rounds : Nat) : Except Stop Machine :=
  if mpconfig conf = false then throw (.panic "Expect to run on an SMP")
  else do
    let m ← walk conf rounds sizeofConf ⟨[], 0, true⟩
    if m.ismp = false then throw (.panic "Didn't find a suitable machine") else return m

/-- The size of an entry by its type. -/
def entrySize (type : UInt8) : Option Nat :=
  if type = MPPROC then some sizeofProc
  else if type ∈ [MPBUS, MPIOAPIC, MPIOINTR, MPLINTR] then some 8 else none

/-- The entries up to `p`, and the processors among them in the order of the table. -/
inductive Entries (conf : Nat → UInt8) : Nat → List UInt8 → Prop where
  | start : Entries conf sizeofConf []
  | next {p k : Nat} {ids : List UInt8} : Entries conf p ids → p < tableLength conf →
      entrySize (conf p) = some k →
      Entries conf (p + k) (if conf p = MPPROC then ids ++ [conf (p + 1)] else ids)

section Walk
variable {conf : Nat → UInt8} {p : Nat} {ids : List UInt8} {m : Machine}

theorem entry_unknown (unknown : entrySize (conf p) = none) (m : Machine) : entry conf p m = none := by
  simp only [entrySize, List.mem_cons, List.not_mem_nil, or_false] at unknown
  unfold entry
  grind

/-- An entry of a known type is passed, and what is recorded stays in order. -/
theorem entry_known {k : Nat} (known : entrySize (conf p) = some k) (fine : m.ismp = true)
    (recorded : m.cpus = ids.take NCPU) :
    ∃ m', entry conf p m = some (p + k, m') ∧ m'.ismp = true ∧
      m'.cpus = (if conf p = MPPROC then ids ++ [conf (p + 1)] else ids).take NCPU := by
  simp only [entrySize, List.mem_cons, List.not_mem_nil, or_false] at known
  unfold entry
  by_cases processor : conf p = MPPROC
  · rw [if_pos processor] at known ⊢
    cases known
    refine ⟨_, rfl, ?_, ?_⟩
    · split <;> exact fine
    · rw [if_pos processor]
      by_cases room : ids.length < NCPU
      · rw [List.take_of_length_le room.le] at recorded
        rw [if_pos (by rwa [recorded]), List.take_of_length_le (by rw [List.length_append]; exact room), recorded]
      · rw [if_neg (by rw [recorded, List.length_take]; omega), recorded,
          List.take_append_of_le_length (by omega)]
  · rw [if_neg processor] at known ⊢
    rw [if_neg processor]
    by_cases apic : conf p = MPIOAPIC
    · rw [if_pos apic]
      rw [if_pos (Or.inr (Or.inl apic))] at known
      cases known
      exact ⟨_, rfl, fine, recorded⟩
    · rw [if_neg apic]
      split at known
      · cases known
        rw [if_pos (by tauto)]
        exact ⟨m, rfl, fine, recorded⟩
      · cases known

/-- The walk does not get past an entry of another type. -/
theorem walk_unknown (inside : p < tableLength conf) (unknown : entrySize (conf p) = none)
    (rounds : Nat) (m : Machine) : walk conf rounds p m = .error .spin := by
  induction rounds generalizing m with
  | zero => exact if_pos inside
  | succ rounds ih =>
    rw [walk, if_pos inside, entry_unknown unknown]
    exact ih _

theorem walk_known {k : Nat} (inside : p < tableLength conf) (known : entrySize (conf p) = some k)
    (fine : m.ismp = true) (recorded : m.cpus = ids.take NCPU) :
    ∃ m' : Machine, m'.ismp = true ∧
      m'.cpus = (if conf p = MPPROC then ids ++ [conf (p + 1)] else ids).take NCPU ∧
      ∀ rounds, walk conf (rounds + 1) p m = walk conf rounds (p + k) m' := by
  obtain ⟨m', is, fine, recorded⟩ := entry_known known fine recorded
  refine ⟨m', fine, recorded, fun rounds => ?_⟩
  rw [walk, if_pos inside, is]

/-- The walk passes the entries one by one. -/
theorem Entries.walk (entries : Entries conf p ids) :
    ∃ n, ∃ m : Machine, m.ismp = true ∧ m.cpus = ids.take NCPU ∧
      (∀ rounds, walk conf (n + rounds) sizeofConf ⟨[], 0, true⟩ = walk conf rounds p m) ∧
      ∀ rounds < n, walk conf rounds sizeofConf ⟨[], 0, true⟩ = .error .spin := by
  induction entries with
  | start => exact ⟨0, ⟨[], 0, true⟩, rfl, rfl, fun rounds => by rw [Nat.zero_add], nofun⟩
  | next _ inside known ih =>
    obtain ⟨n, m, fine, recorded, passes, short⟩ := ih
    obtain ⟨m', fine, recorded, step⟩ := walk_known inside known fine recorded
    refine ⟨n + 1, m', fine, recorded, fun rounds => ?_, fun rounds fewer => ?_⟩
    · rw [Nat.add_assoc, Nat.add_comm 1, passes, step]
    · obtain fewer | rfl := Nat.lt_succ_iff_lt_or_eq.mp fewer
      · exact short rounds fewer
      · have := passes 0
        rw [Nat.add_zero] at this
        rw [this, Mp.walk, if_pos inside]
        rfl

/-- A table of known entries is walked to its end. -/
theorem Entries.ends (known : ∀ p ids, Entries conf p ids → p < tableLength conf →
      (entrySize (conf p)).isSome = true) (entries : Entries conf p ids) (fine : m.ismp = true)
    (recorded : m.cpus = ids.take NCPU) :
    ∃ rounds, ∃ m' : Machine, Mp.walk conf rounds p m = .ok m' ∧ m'.ismp = true ∧
      ∃ q ids', Entries conf q ids' ∧ tableLength conf ≤ q ∧ m'.cpus = ids'.take NCPU := by
  induction left : tableLength conf - p using Nat.strongRecOn generalizing p ids m with
  | ind left ih =>
    by_cases inside : p < tableLength conf
    · obtain ⟨k, size⟩ := Option.isSome_iff_exists.mp (known p ids entries inside)
      have positive : 0 < k := by
        unfold entrySize at size
        split at size
        · exact Option.some.inj size ▸ by decide
        · split at size
          · exact Option.some.inj size ▸ by decide
          · cases size
      obtain ⟨m', fine, recorded, step⟩ := walk_known inside size fine recorded
      obtain ⟨rounds, last, run, rest⟩ :=
        ih _ (by omega) (entries.next inside size) fine recorded rfl
      exact ⟨rounds + 1, last, (step rounds).trans run, rest⟩
    · exact ⟨0, m, if_neg inside, fine, p, ids, entries, Nat.le_of_not_lt inside, recorded⟩

end Walk

/-- On a table that `mpconfig` accepts the walk ends, with the first `NCPU` processors of the
table recorded in order or the machine reported unsuitable, exactly if each entry it meets has
a known type. -/
theorem mpinit_ends_iff {conf : Nat → UInt8} (accepted : mpconfig conf = true) :
    (∃ rounds, (∃ m, mpinit conf rounds = .ok m ∧
        ∃ p ids, Entries conf p ids ∧ tableLength conf ≤ p ∧ m.cpus = ids.take NCPU) ∨
      mpinit conf rounds = .error (.panic "Didn't find a suitable machine")) ↔
    ∀ p ids, Entries conf p ids → p < tableLength conf → (entrySize (conf p)).isSome = true := by
  have run : ∀ rounds, mpinit conf rounds = (walk conf rounds sizeofConf ⟨[], 0, true⟩ >>= fun m =>
      if m.ismp = false then throw (.panic "Didn't find a suitable machine") else return m) := by
    intro rounds
    rw [mpinit, if_neg (by rw [accepted]; exact Bool.noConfusion)]
  constructor
  · rintro ⟨rounds, ends⟩ p ids entries inside
    rw [Option.isSome_iff_ne_none]
    intro unknown
    -- The loop stays at this entry, whatever the number of rounds.
    have spins : walk conf rounds sizeofConf ⟨[], 0, true⟩ = .error .spin := by
      obtain ⟨n, m, _, _, passes, short⟩ := entries.walk
      by_cases fewer : rounds < n
      · exact short rounds fewer
      · obtain ⟨more, rfl⟩ := Nat.exists_eq_add_of_le (Nat.le_of_not_lt fewer)
        rw [passes, walk_unknown inside unknown]
    rw [run, spins] at ends
    obtain ⟨m, ended, _⟩ | reported := ends
    · cases ended
    · cases reported
  · intro known
    obtain ⟨rounds, m, ended, fine, rest⟩ :=
      Entries.ends known .start (m := ⟨[], 0, true⟩) rfl rfl
    refine ⟨rounds, Or.inl ⟨m, ?_, rest⟩⟩
    rw [run, ended]
    exact if_neg (by rw [fine]; exact Bool.noConfusion)

/-- The header of a table of `n` bytes and its entries. -/
def tableOf (n checksum : UInt8) (entries : List UInt8) (i : Nat) : UInt8 :=
  ([80, 67, 77, 80, n, 0, 1, checksum] ++ List.replicate 36 0 ++ entries).getD i 0

/-- A table with one processor. -/
theorem mpinit_one_processor : ∃ rounds,
    (∃ m, mpinit (tableOf 64 136 [0, 7]) rounds = .ok m ∧ ∃ p ids,
      Entries (tableOf 64 136 [0, 7]) p ids ∧ tableLength (tableOf 64 136 [0, 7]) ≤ p ∧
        m.cpus = ids.take NCPU) ∨
    mpinit (tableOf 64 136 [0, 7]) rounds = .error (.panic "Didn't find a suitable machine") := by
  apply (mpinit_ends_iff (by decide +kernel)).mpr
  intro p ids entries inside
  have only : p = 44 ∨ 64 ≤ p := by
    induction entries with
    | start => exact Or.inl rfl
    | next _ before size ih =>
      obtain rfl | past := ih before
      · cases size
        exact Or.inr le_rfl
      · exact absurd before (Nat.not_lt_of_le past)
  obtain rfl | past := only
  · rfl
  · exact absurd inside (Nat.not_lt_of_le past)

/-- A table with one entry, of type 5. -/
theorem mpinit_spins : mpconfig (tableOf 45 157 [5]) = true ∧
    ∀ rounds, mpinit (tableOf 45 157 [5]) rounds = .error .spin := by
  have accepted : mpconfig (tableOf 45 157 [5]) = true := by decide +kernel
  refine ⟨accepted, fun rounds => ?_⟩
  rw [mpinit, if_neg (by rw [accepted]; exact Bool.noConfusion), walk_unknown (by decide) (by decide)]
  rfl
end Xv6.Mp
