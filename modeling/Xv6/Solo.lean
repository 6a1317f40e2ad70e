import Xv6.Steps

/-! Machines small enough to be written down: one process, whose address space
has one page-table page. Every frame of such a machine has one owner as soon as
the frames are distinct. -/
namespace Xv6
open PteBit

/-- A directory with one page-table page. -/
def PgDir.single (frame tab : Nat) (ptes : Nat → Pte) : PgDir :=
  ⟨frame, fun i => if i = 0 then some ⟨tab, ptes⟩ else none⟩

namespace PgDir
variable {frame tab n : Nat} {ptes : Nat → Pte}

theorem single_flat (v : Nat) :
    (single frame tab ptes).flat v = if v < 1024 then ptes v else .zero := by
  by_cases low : v < 1024
  · have table : v / 1024 = 0 := by omega
    have entry : v % 1024 = v := by omega
    simp only [flat, single, table, entry, if_true, if_pos low]
  · have table : v / 1024 ≠ 0 := by omega
    simp only [flat, single, if_neg table, if_neg low]

theorem single_frames (bound : n ≤ 1024) (empty : ∀ v, n ≤ v → ptes v = .zero) :
    (single frame tab ptes).frames =
      {frame} + {tab} + Tally.total n fun v => (ptes v).frames := by
  have tables : Tally.total 1024 (single frame tab ptes).tabFrame = {tab} := by
    rw [Tally.total_prefix (k := 1) (by omega) (fun i low _ => ?_), Tally.total_succ,
      Tally.total_zero, zero_add]
    · simp only [tabFrame, single, if_true, Option.elim_some]
    · simp only [tabFrame, single, if_neg (show i ≠ 0 by omega), Option.elim_none]
  have pages : (Tally.total (2 ^ 19) fun v => ((single frame tab ptes).flat v).frames) =
      Tally.total n fun v => (ptes v).frames := by
    rw [Tally.total_prefix (k := n) (by omega) (fun i low _ => ?_)]
    · refine Tally.total_congr fun v below => ?_
      rw [single_flat, if_pos (by omega)]
    · rw [single_flat]
      split
      · rw [empty i low, Pte.zero_frames]
      · exact Pte.zero_frames
  rw [frames, tables, pages]
  rfl

theorem single_sound (tidy : ∀ v < 1024, (ptes v).Tidy) : (single frame tab ptes).Sound := by
  refine ⟨fun v => ?_, fun v kernel => ?_⟩
  · rw [single_flat]
    split
    · rename_i low
      exact tidy v low
    · exact Or.inl rfl
  · rw [single_flat, if_neg (by omega)]
    exact Pte.has_zero _

end PgDir

/-- A machine that runs one process and no other. -/
def Sys.solo (m : Phys) (p : Proc) (kstack : Nat) : Sys where
  phys := m
  slots i := ⟨if i = 0 then .RUNNING else .UNUSED, i, none, some kstack, p, fun _ => none⟩
  files _ := ⟨.FD_NONE, 0, false, 0⟩
  pipes _ := ⟨false, false⟩
  nextpid := 2
  initproc := 1

/-- The frames of such a machine. -/
def soloPool (m : Phys) (p : Proc) (kstack : Nat) : Multiset Nat :=
  (m.freelist : Multiset Nat) + ({kstack} + p.pgdir.frames)

theorem solo_owned {m : Phys} {p : Proc} {kstack : Nat} (sound : p.pgdir.Sound)
    (size : p.sz ≤ KERNBASE) (nodup : (soloPool m p kstack).Nodup)
    (range : ∀ f ∈ soloPool m p kstack, f < PHYSTOP / PGSIZE) :
    (Sys.solo m p kstack).Owned (soloPool m p kstack) 0 := by
  have idle : ∀ k, ((Sys.solo m p kstack).files k).type ≠ .FD_PIPE := fun k => nofun
  have closed : (Sys.solo m p kstack).pipeFrames = 0 := Tally.total_eq_zero fun _ _ => rfl
  have procs : (Sys.solo m p kstack).procFrames = {kstack} + p.pgdir.frames := by
    rw [Sys.procFrames, Tally.total_prefix (k := 1) (by decide) (fun i low _ => ?_),
      Tally.total_succ, Tally.total_zero, zero_add]
    · rfl
    · simp only [Slot.frames, Sys.solo, if_neg (show i ≠ 0 by omega), if_true]
  refine ⟨?_, nodup, range, ⟨fun k _ => idle k, fun k pipe => absurd pipe (idle k),
    fun k _ pipe => absurd pipe (idle k), fun p w => ?_, fun p used => ?_⟩, fun i _ _ => ⟨sound, size⟩⟩
  · rw [procs, closed, add_zero, add_zero]
    rfl
  · cases w <;> rintro ⟨⟩
  · cases used

/-- The first `n` pages are mapped, to the frames from 1010 on. -/
structure Small (ptes : Nat → Pte) (n : Nat) : Prop where
  bound : n ≤ 500
  mapped : ∀ v < n, (ptes v).mapped = true ∧ (ptes v).ppn = 1010 + v
  tidy : ∀ v < n, (ptes v).Tidy
  empty : ∀ v, n ≤ v → ptes v = .zero

namespace Small
variable {ptes : Nat → Pte} {n : Nat}

theorem total (small : Small ptes n) :
    (Tally.total n fun v => (ptes v).frames) = (List.range' 1010 n : Multiset Nat) := by
  refine Tally.total_range' fun v below => ?_
  obtain ⟨mapped, ppn⟩ := small.mapped v below
  rw [Pte.frames, if_pos mapped, ppn]

theorem sound (small : Small ptes n) : (PgDir.single 1001 1002 ptes).Sound :=
  PgDir.single_sound fun v _ => by
    by_cases low : v < n
    · exact small.tidy v low
    · exact Or.inl (small.empty v (by omega))

theorem pool (small : Small ptes n) {m : Phys} {p : Proc} {k : Nat}
    (dir : p.pgdir = .single 1001 1002 ptes) (free : m.freelist = List.range' 2000 k) :
    soloPool m p 1003 =
      ((List.range' 2000 k ++ (1003 :: 1001 :: 1002 :: List.range' 1010 n) : List Nat) :
        Multiset Nat) := by
  have bound := small.bound
  rw [soloPool, dir, free, PgDir.single_frames (by omega) small.empty, small.total,
    ← Multiset.coe_add]
  rfl

/-- Every frame of a small machine has one owner. -/
theorem owned (small : Small ptes n) {m : Phys} {p : Proc} {k : Nat}
    (dir : p.pgdir = .single 1001 1002 ptes) (free : m.freelist = List.range' 2000 k)
    (few : k ≤ 50000) (size : p.sz ≤ KERNBASE) :
    (Sys.solo m p 1003).Owned (soloPool m p 1003) 0 := by
  have bound := small.bound
  refine solo_owned (by rw [dir]; exact small.sound) size ?_ fun f member => ?_
  · rw [small.pool dir free, Multiset.coe_nodup, List.nodup_append]
    refine ⟨List.nodup_range', ?_, ?_⟩
    · simp only [List.nodup_cons, List.mem_cons, List.mem_range'_1, not_or]
      exact ⟨⟨by omega, by omega, by omega⟩, ⟨by omega, by omega⟩, by omega, List.nodup_range'⟩
    · intro a left b right
      simp only [List.mem_cons, List.mem_range'_1] at left right
      omega
  · rw [small.pool dir free] at member
    simp only [Multiset.mem_coe, List.mem_append, List.mem_cons, List.mem_range'_1] at member
    simp only [PHYSTOP, PGSIZE]
    omega

end Small

def smallImage : Image := ⟨0x80108000, 1000, by decide, by decide, by decide⟩

/-- The machine after a call. -/
def after (i : Nat) (call : Call) (s : Sys) : Sys := Control.final (perform i call) s

theorem step_after {i : Nat} {call : Call} {s : Sys} {r : Option Int} (hi : i < NPROC)
    (live : (s.slots i).state.live = true) (result : Control.value (perform i call) s = some r) :
    Step s ⟨i, call, r⟩ (after i call s) :=
  ⟨hi, live, Control.run_of_value result⟩

/-- The machine after calls of process 0, and the events of these calls. -/
def afterAll : List Call → Sys → Sys
  | [], s => s
  | call :: rest, s => afterAll rest (after 0 call s)

def eventsOf : List Call → Sys → List Event
  | [], _ => []
  | call :: rest, s =>
    ⟨0, call, (Control.value (perform 0 call) s).join⟩ :: eventsOf rest (after 0 call s)

def allReturn : List Call → Sys → Bool
  | [], _ => true
  | call :: rest, s =>
    (s.slots 0).state.live && (Control.value (perform 0 call) s).isSome &&
      allReturn rest (after 0 call s)

/-- Calls that all return make a run. -/
theorem run_of_allReturn {P : Sys → Event → Prop} {calls : List Call} {s : Sys}
    (allowed : ∀ call ∈ calls, ∀ s r, P s ⟨0, call, r⟩) (returns : allReturn calls s = true) :
    Transition.Run (Transition.restrict Step P) s (eventsOf calls s) (afterAll calls s) := by
  induction calls generalizing s with
  | nil => exact .refl s
  | cons call rest ih =>
    simp only [allReturn, Bool.and_eq_true] at returns
    obtain ⟨⟨live, some⟩, others⟩ := returns
    obtain ⟨r, result⟩ := Option.isSome_iff_exists.mp some
    refine .next ⟨allowed call List.mem_cons_self _ _, ?_⟩
      (ih (fun call member => allowed call (List.mem_cons_of_mem _ member)) others)
    rw [result]
    exact step_after (by decide) live result

end Xv6
