import Mathlib.Data.Finset.Basic
import Xv6.Lib.Monitor

/-! Sleep locks: `acquiresleep`, `releasesleep` and `holdingsleep` of `sleeplock.c`. A
process stands for its pid. The lock is shared behind its spin lock `lk->lk`, and
the processes wait for it on the only channel there is, the lock itself. -/
namespace Xv6.SleepLocks
open Monitor Transition

/-- A sleep lock. The last field records who has got it and has not given it back. -/
structure SleepLock where
  locked : Bool
  pid : Nat
  holders : Finset Nat

/-- `initsleeplock` -/
def SleepLock.init : SleepLock := ⟨false, 0, ∅⟩

inductive Call where
  | acquire
  | release
  | holding

inductive Pc where
  | start
  | nap
  | stir
  | done
  | answer (r : Bool)

def acquiresleep (p : Nat) : Pc → Instr SleepLock Unit Pc
  | .start => .act fun lk =>
    if lk.locked then (lk, .nap) else (⟨true, p, insert p lk.holders⟩, .done)
  | .nap => .sleep () .start
  | .done => .leave
  | _ => .halt

def releasesleep (p : Nat) : Pc → Instr SleepLock Unit Pc
  | .start => .act fun lk => (⟨false, 0, lk.holders.erase p⟩, .stir)
  | .stir => .wakeup () .done
  | .done => .leave
  | _ => .halt

def holdingsleep (p : Nat) : Pc → Instr SleepLock Unit Pc
  | .start => .act fun lk => (lk, .answer (lk.locked && lk.pid == p))
  | .answer _ => .leave
  | _ => .halt

def instr (p : Nat) : Call → Pc → Instr SleepLock Unit Pc
  | .acquire => acquiresleep p
  | .release => releasesleep p
  | .holding => holdingsleep p

abbrev Pool := State Nat SleepLock Unit Call Pc

/-- Each process releases only what it holds. -/
def admits (s : Pool) (p : Nat) : Call → Prop
  | .release => p ∈ s.shared.holders
  | _ => True

def code : Code Nat SleepLock Unit Call Pc where
  first := fun _ => .start
  instr := instr
  admits := admits

section Proofs

/-- The process that holds the lock is the one it names. -/
def SleepLock.Fair (lk : SleepLock) : Prop :=
  if lk.locked then lk.holders = {lk.pid} else lk.holders = ∅

variable {lk : SleepLock} {p q : Nat} {pc : Pc}

theorem SleepLock.Fair.locked (fair : lk.Fair) (holds : p ∈ lk.holders) :
    lk.locked = true ∧ lk.pid = p := by
  unfold SleepLock.Fair at fair
  split_ifs at fair with locked
  · rw [fair, Finset.mem_singleton] at holds
    exact ⟨locked, holds.symm⟩
  · simp [fair] at holds

theorem SleepLock.Fair.holds_iff (fair : lk.Fair) :
    (lk.locked && lk.pid == p) = true ↔ p ∈ lk.holders := by
  rw [Bool.and_eq_true, beq_iff_eq]
  constructor
  · rintro ⟨locked, rfl⟩
    rw [SleepLock.Fair, if_pos locked] at fair
    simp [fair]
  · exact fair.locked

theorem SleepLock.Fair.acquired (fair : lk.Fair) (free : lk.locked = false) :
    SleepLock.Fair ⟨true, p, insert p lk.holders⟩ := by
  have nobody : lk.holders = ∅ := by simpa [SleepLock.Fair, free] using fair
  simp [SleepLock.Fair, nobody]

theorem SleepLock.Fair.released (fair : lk.Fair) (holds : p ∈ lk.holders) :
    SleepLock.Fair ⟨false, 0, lk.holders.erase p⟩ := by
  obtain ⟨locked, rfl⟩ := fair.locked holds
  have only : lk.holders = {lk.pid} := by simpa [SleepLock.Fair, locked] using fair
  simp [SleepLock.Fair, only]

/-- What a process knows inside a call. -/
def Knows (p : Nat) (lk : SleepLock) : Call → Pc → Prop
  | .acquire, .nap => lk.locked = true
  | .acquire, .done => p ∈ lk.holders
  | .release, .start => p ∈ lk.holders
  | .holding, .answer r => r = true ↔ p ∈ lk.holders
  | _, _ => True

def fair : Spec Nat SleepLock Unit Call Pc where
  inv := SleepLock.Fair
  cond := fun _ lk => lk.locked = true
  owes := fun op pc _ => op = .release ∧ pc = .stir
  sleeps := fun op _ => op = .acquire
  apart := fun _ _ => True
  outside := fun p op pc lk => pc = .start ∧ (op = .release → p ∈ lk.holders)
  inside := fun p op pc lk => lk.Fair ∧ Knows p lk op pc

theorem acquiresleep_fair (fine : lk.Fair) (knows : Knows p lk .acquire pc) :
    fair.Correct p .acquire pc lk (acquiresleep p pc) := by
  cases pc with
  | start =>
    by_cases locked : lk.locked = true
    · exact Spec.correct_act (if_pos locked) ⟨fine, locked⟩ (fun _ _ => .inl locked) fun _ _ _ _ _ => id
    · have free : lk.locked = false := by simpa using locked
      refine Spec.correct_act (if_neg locked) ⟨fine.acquired free, Finset.mem_insert_self ..⟩ (fun _ _ => .inl rfl) ?_
      -- Nobody holds the lock, so nobody is about to release it.
      rintro q op pc - - ⟨start, holds⟩
      exact ⟨start, fun release => absurd (fine.locked (holds release)).1 locked⟩
  | nap => exact ⟨fine, ⟨rfl, nofun⟩, rfl, knows, nofun⟩
  | done => exact fine
  | _ => trivial

theorem releasesleep_fair (fine : lk.Fair) (knows : Knows p lk .release pc) :
    fair.Correct p .release pc lk (releasesleep p pc) := by
  cases pc with
  | start =>
    refine Spec.correct_act rfl ⟨fine.released knows, trivial⟩ (fun _ _ => .inr ⟨rfl, rfl⟩) ?_
    rintro q op pc other - ⟨start, holds⟩
    refine ⟨start, fun release => absurd ?_ other⟩
    exact (fine.locked (holds release)).2.symm.trans (fine.locked knows).2
  | stir => exact ⟨⟨fine, trivial⟩, fun _ differ => absurd rfl differ⟩
  | done => exact fine
  | _ => trivial

theorem holdingsleep_fair (fine : lk.Fair) : fair.Correct p .holding pc lk (holdingsleep p pc) := by
  cases pc with
  | start =>
    exact Spec.correct_act rfl ⟨fine, fine.holds_iff⟩ (fun _ => .imp id nofun) fun _ _ _ _ _ => id
  | answer r => exact fine
  | _ => trivial

theorem fair_valid : fair.Valid code fun _ _ => True where
  call := by
    intro s p op sound _ admitted
    constructor
    · refine ⟨rfl, ?_⟩
      rintro rfl
      exact admitted
    · exact fun _ _ _ => ⟨trivial, trivial⟩
  enter := by
    rintro p op pc lk fine ⟨rfl, holds⟩
    constructor
    · exact fine
    · cases op with
      | release => exact holds rfl
      | acquire => trivial
      | holding => trivial
  correct := by
    rintro s p op pc - - ⟨fine, knows⟩
    cases op with
    | acquire => exact acquiresleep_fair fine knows
    | release => exact releasesleep_fair fine knows
    | holding => exact holdingsleep_fair fine
  leave := by
    rintro s p op pc - - - leaves c q u - - ⟨rfl, rfl⟩
    cases leaves

/-- At most one process holds the lock, whoever returns from `acquiresleep` holds it,
`holdingsleep` answers yes to the holder only, and a process that sleeps for the lock
while its spin lock is free finds it locked. -/
theorem sleep_lock_exclusive {es : List (Label Nat Call)} {s : Pool}
    (run : Run code.Step (.start .init) es s) :
    (∀ p q, p ∈ s.shared.holders → q ∈ s.shared.holders → p = q) ∧
    (∀ p, s.thread p = some ⟨.acquire, .done, .inside⟩ → p ∈ s.shared.holders) ∧
    (∀ p r, s.thread p = some ⟨.holding, .answer r, .inside⟩ → (r = true ↔ p ∈ s.shared.holders)) ∧
    (s.lock = none → ∀ p t c, s.thread p = some t → t.place.Waits c → s.shared.locked = true) := by
  have sound := (run.to_restrict fun _ _ => trivial).kept fair_valid.keeps
    (fair.sound_start (show SleepLock.init.Fair from rfl))
  have fine : s.shared.Fair := sound.always (fun _ => id) fun _ _ _ _ => And.left
  refine ⟨?_, ?_, ?_, ?_⟩
  · intro p q first second
    exact (fine.locked first).2.symm.trans (fine.locked second).2
  · intro p returns
    exact (sound.at_ p _ returns).2
  · intro p r answers
    exact (sound.at_ p _ answers).2
  · intro free p t c here waiting
    exact sound.waits free here waiting

instance (s : Pool) (p : Nat) (op : Call) : Decidable (code.admits s p op) := by
  cases op
  · exact isTrue trivial
  · exact inferInstanceAs (Decidable (p ∈ s.shared.holders))
  · exact isTrue trivial

/-- Process 2 sleeps until process 1 has released the lock. -/
def handOver : List (Label Nat Call) :=
  .call 1 .acquire :: List.replicate 3 (.move 1) ++ .call 2 .acquire :: List.replicate 5 (.move 2) ++
    .call 1 .release :: List.replicate 4 (.move 1) ++ List.replicate 5 (.move 2)

theorem handed_over : ∃ s : Pool, Run code.Step (.start .init) handOver s ∧ s.shared.holders = {2} ∧
    ∀ p, p ∈ s.shared.holders → p = 2 := by
  obtain ⟨s, walk, held⟩ := Code.run_of_any (q := fun s : Pool => s.shared.holders == {2})
    (show (code.walk (fun _ _ => true) (.start .init) handOver).any _ = true by decide +kernel)
  have run := walk.of_restrict
  have held : s.shared.holders = {2} := beq_iff_eq.mp held
  refine ⟨s, run, held, fun p holds => ?_⟩
  exact (sleep_lock_exclusive run).1 p 2 holds (by simp [held])

end Proofs
end Xv6.SleepLocks
