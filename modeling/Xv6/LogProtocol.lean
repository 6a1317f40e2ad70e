import Mathlib.Algebra.Order.BigOperators.Group.Finset
import Mathlib.Data.Fintype.BigOperators
import Xv6.Lib.Run
import Xv6.Lib.Tally
import Xv6.Log

/-! Operations of any number of processes on the log, at the granularity of
`log.lock`: `begin_op` with its sleepers, `log_write` with its test before the
lock, `end_op` and the commit by the last operation of a group. -/
namespace Xv6
open Transition
open Function (update update_of_ne update_self)

/-- Where a process stands with respect to the log. -/
inductive Place where
  | outside
  | sleeping
  | woken
  | inOp
  | inLogWrite (blockno : Nat)
  | inCommit
  | cleared
  deriving DecidableEq

/-- Between `begin_op` and `end_op`. -/
def Place.active : Place → Bool
  | .inOp => true
  | .inLogWrite _ => true
  | _ => false

/-- Inside the `commit` of `end_op`. -/
def Place.commits : Place → Bool
  | .inCommit => true
  | .cleared => true
  | _ => false

variable {P : Type}

/-- The log and the processes. The last three fields only record what has happened:
how often the header was cleared, how often it had been when an operation began,
and which blocks the operation has logged. -/
structure LogUse (P : Type) where
  log : Log
  place : P → Place
  cleared : Nat
  began : P → Nat
  wrote : P → Finset Nat

/-- `wakeup(&log)`. -/
def wakeup (place : P → Place) : P → Place := fun p =>
  if place p = .sleeping then .woken else place p

@[simp] theorem wakeup_active (place : P → Place) (p : P) :
    (wakeup place p).active = (place p).active := by
  unfold wakeup
  split
  · rename_i asleep
    rw [asleep]
    rfl
  · rfl

@[simp] theorem wakeup_commits (place : P → Place) (p : P) :
    (wakeup place p).commits = (place p).commits := by
  unfold wakeup
  split
  · rename_i asleep
    rw [asleep]
    rfl
  · rfl

theorem wakeup_not_sleeping (place : P → Place) (p : P) : wakeup place p ≠ .sleeping := by
  unfold wakeup
  split
  · exact nofun
  · assumption

theorem wakeup_of_active {place : P → Place} {p : P} (inside : (wakeup place p).active = true) :
    wakeup place p = place p := by
  unfold wakeup at inside ⊢
  split
  · rename_i asleep
    rw [if_pos asleep] at inside
    cases inside
  · rfl

inductive Act (P : Type) where
  | beginOp (p : P)
  | kill (p : P)
  | logWrite (p : P) (blockno : Nat)
  | record (p : P)
  | endOp (p : P)
  | clear (p : P)
  | endCommit (p : P)

/-- The log after `initlog` on a disk with nothing to recover. -/
def LogUse.boot (start : Nat) (size : Int) : LogUse P :=
  ⟨⟨start, size, 0, false, []⟩, fun _ => .outside, 0, fun _ => 0, fun _ => ∅⟩

section Steps
variable [DecidableEq P]

def LogUse.move (s : LogUse P) (p : P) (place : Place) : LogUse P :=
  { s with place := update s.place p place }

/-- The steps. A sleeper tests the condition of `begin_op` again when it has been
woken, and `kill` makes it runnable as well. -/
inductive LogUse.Step : LogUse P → Act P → LogUse P → Prop where
  | admitted {s : LogUse P} {p : P} {log : Log} :
      s.place p = .outside ∨ s.place p = .woken → beginOp.run s.log = .ok true log →
      Step s (.beginOp p) { s.move p .inOp with
        log := log
        began := update s.began p s.cleared
        wrote := update s.wrote p ∅ }
  | slept {s : LogUse P} {p : P} {log : Log} :
      s.place p = .outside ∨ s.place p = .woken → beginOp.run s.log = .ok false log →
      Step s (.beginOp p) { s.move p .sleeping with log := log }
  | killed {s : LogUse P} {p : P} : s.place p = .sleeping → Step s (.kill p) (s.move p .woken)
  | checked {s : LogUse P} {p : P} {blockno : Nat} {log : Log} :
      s.place p = .inOp → logWriteCheck.run s.log = .ok () log →
      Step s (.logWrite p blockno) { s.move p (.inLogWrite blockno) with log := log }
  | recorded {s : LogUse P} {p : P} {blockno : Nat} {log : Log} :
      s.place p = .inLogWrite blockno → (logWriteRecord blockno).run s.log = .ok () log →
      Step s (.record p) { s.move p .inOp with
        log := log
        wrote := update s.wrote p (insert blockno (s.wrote p)) }
  | ended {s : LogUse P} {p : P} {log : Log} :
      s.place p = .inOp → endOp.run s.log = .ok false log →
      Step s (.endOp p) { s with
        log := log
        place := wakeup (update s.place p .outside) }
  | last {s : LogUse P} {p : P} {log : Log} :
      s.place p = .inOp → endOp.run s.log = .ok true log →
      Step s (.endOp p) { s.move p .inCommit with log := log }
  | cleared {s : LogUse P} {p : P} : s.place p = .inCommit →
      Step s (.clear p) { s.move p .cleared with
        log := { s.log with lh := [] }
        cleared := s.cleared + 1 }
  | committed {s : LogUse P} {p : P} {log : Log} :
      s.place p = .cleared → endCommit.run s.log = .ok () log →
      Step s (.endCommit p) { s with
        log := log
        place := wakeup (update s.place p .outside) }

end Steps

section Runs
variable {log log' : Log}

theorem beginOp_admits (run : beginOp.run log = .ok true log') :
    log.committing = false ∧ log.lh.length + (log.outstanding + 1) * MAXOPBLOCKS ≤ LOGSIZE ∧
      log' = { log with outstanding := log.outstanding + 1 } := by
  change (if log.committing then _ else if _ then _ else _ : G Bool) log = _ at run
  split at run
  · cases run
  · split at run
    · cases run
    · cases run
      rename_i open_ room
      exact ⟨by simpa using open_, by omega, rfl⟩

theorem beginOp_sleeps (run : beginOp.run log = .ok false log') :
    log' = log ∧ (log.committing = true ∨
      LOGSIZE < log.lh.length + (log.outstanding + 1) * MAXOPBLOCKS) := by
  change (if log.committing then _ else if _ then _ else _ : G Bool) log = _ at run
  split at run
  · cases run
    rename_i busy
    exact ⟨rfl, Or.inl busy⟩
  · split at run
    · cases run
      rename_i full
      exact ⟨rfl, Or.inr full⟩
    · cases run

theorem logWriteCheck_passes (run : logWriteCheck.run log = .ok () log') : log' = log := by
  change (if _ then _ else if _ then _ else _ : G Unit) log = _ at run
  split at run
  · cases run
  · split at run
    · cases run
    · cases run
      rfl

theorem endOp_returns {r : Bool} (run : endOp.run log = .ok r log') :
    log.committing = false ∧ (r = true ↔ log.outstanding = 1) ∧
      log' = { log with outstanding := log.outstanding - 1, committing := r } := by
  change (if log.committing then _ else if log.outstanding - 1 = 0 then _ else _ : G Bool)
    { log with outstanding := log.outstanding - 1 } = _ at run
  split at run
  · cases run
  · rename_i open_
    have open_ : log.committing = false := by simpa using open_
    split at run
    · cases run
      rename_i none
      exact ⟨open_, ⟨fun _ => by omega, fun _ => rfl⟩, rfl⟩
    · cases run
      rename_i some
      refine ⟨open_, ⟨nofun, fun one => absurd one (by omega)⟩, ?_⟩
      rw [open_]

end Runs

section Invariant
variable [Fintype P]

/-- The operations under way. -/
def LogUse.active (s : LogUse P) : Nat := ∑ p, (s.place p).active.toNat

/-- The protocol of the group commit. -/
structure LogUse.Grouped (s : LogUse P) : Prop where
  outstanding : s.log.outstanding = s.active
  exclusive : s.log.committing = true → ∀ p, (s.place p).active = false
  committing : s.log.committing = true ↔ ∃ p, (s.place p).commits = true
  alone : ∀ p q, (s.place p).commits = true → (s.place q).commits = true → p = q
  empty : s.log.committing = false → s.log.outstanding = 0 → s.log.lh = []
  cleared : ∀ p, s.place p = .cleared → s.log.lh = []
  distinct : s.log.lh.Nodup
  whole : ∀ p, (s.place p).active = true → s.began p = s.cleared ∧ ∀ b ∈ s.wrote p, b ∈ s.log.lh
  due : ∀ p, s.place p = .sleeping → s.log.committing = true ∨ 0 < s.log.outstanding

theorem active_pos (place : P → Place) {p : P} (inside : (place p).active = true) :
    0 < ∑ q, (place q).active.toNat := by
  have one : (place p).active.toNat ≤ ∑ q, (place q).active.toNat :=
    Finset.single_le_sum (f := fun q => (place q).active.toNat) (fun _ _ => Nat.zero_le _)
      (Finset.mem_univ p)
  rw [inside] at one
  exact one

/-- Nobody commits. -/
theorem LogUse.Grouped.of_open {s : LogUse P} (open_ : s.log.committing = false)
    (none : ∀ p, (s.place p).commits = false) (outstanding : s.log.outstanding = s.active)
    (empty : s.log.outstanding = 0 → s.log.lh = []) (distinct : s.log.lh.Nodup)
    (whole : ∀ p, (s.place p).active = true →
      s.began p = s.cleared ∧ ∀ b ∈ s.wrote p, b ∈ s.log.lh)
    (due : ∀ p, s.place p = .sleeping → 0 < s.log.outstanding) : s.Grouped := by
  have idle : ¬ s.log.committing = true := by simp [open_]
  refine ⟨outstanding, fun busy => absurd busy idle, ⟨fun busy => absurd busy idle, ?_⟩, ?_,
    fun _ => empty, ?_, distinct, whole, fun p asleep => Or.inr (due p asleep)⟩
  · rintro ⟨p, inside⟩
    rw [none p] at inside
    cases inside
  · intro p _ inside
    rw [none p] at inside
    cases inside
  · intro p there
    have outside := none p
    rw [there] at outside
    cases outside

theorem LogUse.boot_grouped (start : Nat) (size : Int) :
    (LogUse.boot start size : LogUse P).Grouped := by
  refine .of_open rfl (fun _ => rfl) ?_ (fun _ => rfl) List.nodup_nil ?_ ?_
  · simp [LogUse.active, LogUse.boot, Place.active]
  · rintro _ ⟨⟩
  · rintro _ ⟨⟩

namespace LogUse.Grouped
variable {s : LogUse P} {p : P}

theorem not_committing (grouped : s.Grouped) (inside : (s.place p).active = true) :
    s.log.committing = false := by
  by_contra busy
  have none := grouped.exclusive (by simpa using busy) p
  rw [inside] at none
  cases none

theorem outstanding_pos (grouped : s.Grouped) (inside : (s.place p).active = true) :
    0 < s.log.outstanding := by
  rw [grouped.outstanding, Int.natCast_pos]
  exact active_pos s.place inside

theorem no_commits (grouped : s.Grouped) (open_ : s.log.committing = false) (q : P) :
    (s.place q).commits = false := by
  by_contra inside
  have busy := grouped.committing.mpr ⟨q, by simpa using inside⟩
  rw [open_] at busy
  cases busy

theorem endOp_goes (grouped : s.Grouped)
    (inside : s.place p = .inOp) : ∃ r log, endOp.run s.log = .ok r log := by
  have open_ := grouped.not_committing (p := p) (by rw [inside]; rfl)
  change ∃ r log, (if s.log.committing then _ else if s.log.outstanding - 1 = 0 then _ else _ : G Bool)
    { s.log with outstanding := s.log.outstanding - 1 } = .ok r log
  rw [open_]
  split
  · cases ‹false = true›
  · split
    · exact ⟨_, _, rfl⟩
    · exact ⟨_, _, rfl⟩

end LogUse.Grouped

variable [DecidableEq P]

theorem active_update (place : P → Place) (p : P) (new : Place) :
    ∑ q, (update place p new q).active.toNat + (place p).active.toNat =
      ∑ q, (place q).active.toNat + new.active.toNat := by
  have change := Tally.sum_change (f := fun q => (place q).active.toNat)
    (g := fun q => (update place p new q).active.toNat) (Finset.mem_univ p)
    fun q _ other => by rw [update_of_ne other]
  simpa using change

namespace LogUse.Grouped
variable {s : LogUse P} {p : P}

/-- A process moves to a place of the same kind. -/
theorem move (grouped : s.Grouped) {new : Place} (active : new.active = (s.place p).active)
    (commits : new.commits = (s.place p).commits) (cleared : new = .cleared → s.log.lh = [])
    (due : new = .sleeping → s.log.committing = true ∨ 0 < s.log.outstanding) :
    (s.move p new).Grouped := by
  have active : ∀ q, ((s.move p new).place q).active = (s.place q).active := by
    intro q
    obtain rfl | other := eq_or_ne q p
    · simpa [LogUse.move] using active
    · simp [LogUse.move, update_of_ne other]
  have commits : ∀ q, ((s.move p new).place q).commits = (s.place q).commits := by
    intro q
    obtain rfl | other := eq_or_ne q p
    · simpa [LogUse.move] using commits
    · simp [LogUse.move, update_of_ne other]
  constructor
  · rw [LogUse.active]
    simp only [active]
    exact grouped.outstanding
  · simp only [active]
    exact grouped.exclusive
  · simp only [commits]
    exact grouped.committing
  · simp only [commits]
    exact grouped.alone
  · exact grouped.empty
  · intro q there
    obtain rfl | other := eq_or_ne q p
    · exact cleared (by simpa [LogUse.move] using there)
    · exact grouped.cleared q (by simpa [LogUse.move, update_of_ne other] using there)
  · exact grouped.distinct
  · simp only [active]
    exact grouped.whole
  · intro q there
    obtain rfl | other := eq_or_ne q p
    · exact due (by simpa [LogUse.move] using there)
    · exact grouped.due q (by simpa [LogUse.move, update_of_ne other] using there)

end LogUse.Grouped

theorem nodup_absorb {lh : List Nat} (distinct : lh.Nodup) (blockno : Nat) :
    (absorb lh blockno).Nodup := by
  unfold absorb
  split
  · exact distinct
  · rename_i fresh
    exact List.nodup_append.mpr ⟨distinct, List.nodup_singleton _, fun b inside c new => by
      rintro rfl
      exact fresh (List.mem_singleton.mp new ▸ inside)⟩

theorem mem_absorb {lh : List Nat} {b blockno : Nat} :
    b ∈ absorb lh blockno ↔ b ∈ lh ∨ b = blockno := by
  unfold absorb
  split
  · rename_i inside
    constructor
    · exact Or.inl
    · rintro (old | rfl)
      · exact old
      · exact inside
  · simp

namespace LogUse.Grouped
variable {s : LogUse P} {p : P} {log : Log}

/-- The count of the operations when one begins or ends. -/
theorem counted (grouped : s.Grouped) (p : P) (new : Place) :
    ((∑ q, (update s.place p new q).active.toNat : Nat) : Int) =
      s.log.outstanding + new.active.toNat - (s.place p).active.toNat := by
  have change := active_update s.place p new
  have outstanding := grouped.outstanding
  rw [LogUse.active] at outstanding
  omega

theorem admitted (grouped : s.Grouped) (entering : s.place p = .outside ∨ s.place p = .woken)
    (run : beginOp.run s.log = .ok true log) : LogUse.Grouped { s.move p .inOp with
      log := log
      began := update s.began p s.cleared
      wrote := update s.wrote p ∅ } := by
  obtain ⟨open_, _, rfl⟩ := beginOp_admits run
  have outside : (s.place p).active = false := by
    obtain here | here := entering <;> rw [here] <;> rfl
  have counted := grouped.counted p .inOp
  rw [outside, show Place.inOp.active = true from rfl, Bool.toNat_false, Bool.toNat_true] at counted
  have nonneg := grouped.outstanding
  refine .of_open open_ (fun q => ?_) ?_ (fun none => ?_) grouped.distinct (fun q inside => ?_)
    (fun _ _ => ?_)
  · obtain rfl | other := eq_or_ne q p
    · simp [LogUse.move, Place.commits]
    · simp only [LogUse.move, update_of_ne other]
      exact grouped.no_commits open_ q
  · change s.log.outstanding + 1 = ((∑ q, (update s.place p .inOp q).active.toNat : Nat) : Int)
    omega
  · change s.log.outstanding + 1 = 0 at none
    omega
  · obtain rfl | other := eq_or_ne q p
    · simp [LogUse.move]
    · simp only [LogUse.move, update_of_ne other] at inside ⊢
      exact grouped.whole q inside
  · change 0 < s.log.outstanding + 1
    omega

theorem slept (grouped : s.Grouped) (entering : s.place p = .outside ∨ s.place p = .woken)
    (run : beginOp.run s.log = .ok false log) :
    LogUse.Grouped { s.move p .sleeping with log := log } := by
  obtain ⟨rfl, full⟩ := beginOp_sleeps run
  apply grouped.move
  · obtain here | here := entering <;> rw [here] <;> rfl
  · obtain here | here := entering <;> rw [here] <;> rfl
  · rintro ⟨⟩
  · intro _
    by_contra neither
    obtain ⟨open_, none⟩ := not_or.mp neither
    have nonneg := grouped.outstanding
    have zero : s.log.outstanding = 0 := by omega
    -- With nothing under way the header is empty and the operation fits.
    have empty := grouped.empty (by simpa using open_) zero
    obtain busy | full := full
    · exact open_ busy
    · rw [empty, zero] at full
      norm_num at full

theorem recorded (grouped : s.Grouped) {blockno : Nat} (here : s.place p = .inLogWrite blockno)
    (run : (logWriteRecord blockno).run s.log = .ok () log) : LogUse.Grouped { s.move p .inOp with
      log := log
      wrote := update s.wrote p (insert blockno (s.wrote p)) } := by
  cases run
  have inside : (s.place p).active = true := by rw [here]; rfl
  have open_ := grouped.not_committing inside
  have busy := grouped.outstanding_pos inside
  have moved : (s.move p .inOp).Grouped :=
    grouped.move (by rw [here]; rfl) (by rw [here]; rfl) (by rintro ⟨⟩) (by rintro ⟨⟩)
  refine { moved with empty := ?_, cleared := ?_, distinct := ?_, whole := ?_ }
  · intro _ none
    change s.log.outstanding = 0 at none
    omega
  · intro q there
    have commits := (moved.committing).mpr ⟨q, by rw [there]; rfl⟩
    exact absurd (commits.symm.trans open_) (by decide)
  · exact nodup_absorb grouped.distinct blockno
  · intro q active
    obtain ⟨began, wrote⟩ := moved.whole q active
    refine ⟨began, fun b member => mem_absorb.mpr ?_⟩
    obtain rfl | other := eq_or_ne q p
    · simp only [update_self, Finset.mem_insert] at member
      exact member.symm.imp (wrote b) id
    · simp only [update_of_ne other] at member
      exact Or.inl (wrote b member)

theorem ended (grouped : s.Grouped) (here : s.place p = .inOp)
    (run : endOp.run s.log = .ok false log) : LogUse.Grouped { s with
      log := log
      place := wakeup (update s.place p .outside) } := by
  obtain ⟨open_, one, rfl⟩ := endOp_returns run
  have more : s.log.outstanding ≠ 1 := fun same => by simpa using one.mpr same
  have counted := grouped.counted p .outside
  rw [here, show Place.inOp.active = true from rfl, show Place.outside.active = false from rfl,
    Bool.toNat_false, Bool.toNat_true] at counted
  refine .of_open rfl (fun q => ?_) ?_ (fun none => ?_) grouped.distinct (fun q active => ?_)
    (fun q asleep => absurd asleep (wakeup_not_sleeping _ q))
  · rw [wakeup_commits]
    obtain rfl | other := eq_or_ne q p
    · simp [Place.commits]
    · rw [update_of_ne other]
      exact grouped.no_commits open_ q
  · rw [LogUse.active]
    simp only [wakeup_active]
    omega
  · change s.log.outstanding - 1 = 0 at none
    omega
  · simp only [wakeup_active] at active
    obtain rfl | other := eq_or_ne q p
    · simp [Place.active] at active
    · rw [update_of_ne other] at active
      exact grouped.whole q active

theorem last (grouped : s.Grouped) (here : s.place p = .inOp)
    (run : endOp.run s.log = .ok true log) :
    LogUse.Grouped { s.move p .inCommit with log := log } := by
  obtain ⟨open_, one, rfl⟩ := endOp_returns run
  have one := one.mp rfl
  have counted := grouped.counted p .inCommit
  rw [here, show Place.inOp.active = true from rfl, show Place.inCommit.active = false from rfl,
    Bool.toNat_false, Bool.toNat_true] at counted
  have idle : ∀ q, (update s.place p Place.inCommit q).active = false := by
    intro q
    by_contra active
    have positive := active_pos (update s.place p .inCommit) (p := q) (by simpa using active)
    omega
  have commits : ∀ q, (update s.place p Place.inCommit q).commits = true → q = p := by
    intro q inside
    by_contra other
    rw [update_of_ne other, grouped.no_commits open_ q] at inside
    cases inside
  refine ⟨?_, fun _ => idle, ⟨fun _ => ⟨p, ?_⟩, fun _ => rfl⟩,
    fun q r inside inside' => (commits q inside).trans (commits r inside').symm, ?_, ?_,
    grouped.distinct, fun q active => ?_, fun _ _ => Or.inl rfl⟩
  · change s.log.outstanding - 1 = ((∑ q, (update s.place p .inCommit q).active.toNat : Nat) : Int)
    omega
  · simp [LogUse.move, Place.commits]
  · rintro ⟨⟩
  · intro q there
    change update s.place p .inCommit q = .cleared at there
    obtain rfl := commits q (by rw [there]; rfl)
    simp at there
  · exact absurd (active.symm.trans (idle q)) (by decide)

theorem emptied (grouped : s.Grouped) (here : s.place p = .inCommit) :
    LogUse.Grouped { s.move p .cleared with
      log := { s.log with lh := [] }
      cleared := s.cleared + 1 } := by
  have busy := grouped.committing.mpr ⟨p, by rw [here]; rfl⟩
  have emptied : LogUse.Grouped
      { s with log := { s.log with lh := [] }, cleared := s.cleared + 1 } :=
    { grouped with
      empty := fun _ _ => rfl
      cleared := fun _ _ => rfl
      distinct := List.nodup_nil
      whole := fun q active => absurd (active.symm.trans (grouped.exclusive busy q)) (by decide) }
  exact emptied.move (by rw [here]; rfl) (by rw [here]; rfl) (fun _ => rfl) (by rintro ⟨⟩)

theorem committed (grouped : s.Grouped) (here : s.place p = .cleared)
    (run : endCommit.run s.log = .ok () log) : LogUse.Grouped { s with
      log := log
      place := wakeup (update s.place p .outside) } := by
  cases run
  have idle := grouped.exclusive (grouped.committing.mpr ⟨p, by rw [here]; rfl⟩)
  have active : ∀ q, (wakeup (update s.place p .outside) q).active = false := by
    intro q
    rw [wakeup_active]
    obtain rfl | other := eq_or_ne q p
    · simp [Place.active]
    · rw [update_of_ne other]
      exact idle q
  refine .of_open rfl (fun q => ?_) ?_ (fun _ => grouped.cleared p here) grouped.distinct
    (fun q inside => absurd (inside.symm.trans (active q)) (by decide))
    (fun q asleep => absurd asleep (wakeup_not_sleeping _ q))
  · rw [wakeup_commits]
    obtain rfl | other := eq_or_ne q p
    · simp [Place.commits]
    · rw [update_of_ne other]
      by_contra inside
      exact other (grouped.alone q p (by simpa using inside) (by rw [here]; rfl))
  · have none := grouped.outstanding
    rw [LogUse.active] at none ⊢
    simp only [active]
    simp only [idle] at none
    exact none

end LogUse.Grouped

/-- No step breaks the protocol. -/
theorem step_grouped {s t : LogUse P} {a : Act P} (step : LogUse.Step s a t) (grouped : s.Grouped) :
    t.Grouped := by
  cases step with
  | admitted entering run => exact grouped.admitted entering run
  | slept entering run => exact grouped.slept entering run
  | killed asleep =>
    exact grouped.move (by rw [asleep]; rfl) (by rw [asleep]; rfl) (by rintro ⟨⟩) (by rintro ⟨⟩)
  | checked here run =>
    obtain rfl := logWriteCheck_passes run
    exact grouped.move (by rw [here]; rfl) (by rw [here]; rfl) (by rintro ⟨⟩) (by rintro ⟨⟩)
  | recorded here run => exact grouped.recorded here run
  | ended here run => exact grouped.ended here run
  | last here run => exact grouped.last here run
  | cleared here => exact grouped.emptied here
  | committed here run => exact grouped.committed here run

theorem run_grouped {start : Nat} {size : Int} {as : List (Act P)} {s : LogUse P}
    (run : Run LogUse.Step (LogUse.boot start size) as s) : s.Grouped :=
  run.kept (fun _ _ _ step => step_grouped step) (LogUse.boot_grouped start size)

/-- The group commit. While a commit runs no operation is under way, `log_write`
does not touch the header, and `end_op` does not meet another commit. What an
operation has logged is in the header since the operation began, and no commit has
emptied the header in between. The entries are distinct. A process that sleeps in
`begin_op` waits for a commit or for an operation that is there. -/
theorem group_commit {start : Nat} {size : Int} {as : List (Act P)} {s : LogUse P}
    (run : Run LogUse.Step (LogUse.boot start size) as s) :
    (s.log.committing = true → s.log.outstanding = 0 ∧
      ∀ p a t, LogUse.Step s a t → (a = .record p ∨ ∃ b, a = .logWrite p b) → False) ∧
    (∀ p, s.place p = .inOp → ∃ r log, endOp.run s.log = .ok r log) ∧
    (∀ p, (s.place p).active = true →
      s.began p = s.cleared ∧ ∀ b ∈ s.wrote p, b ∈ s.log.lh) ∧
    s.log.lh.Nodup ∧
    (∀ p, s.place p = .sleeping →
      (s.log.committing = true ∧ ∃ q, (s.place q).commits = true) ∨
        (0 < s.log.outstanding ∧ ∃ q, (s.place q).active = true)) := by
  have grouped := run_grouped run
  refine ⟨fun busy => ⟨?_, ?_⟩, fun p => grouped.endOp_goes, grouped.whole, grouped.distinct, ?_⟩
  · rw [grouped.outstanding, LogUse.active]
    simp [grouped.exclusive busy]
  · intro p a t step kind
    have idle := grouped.exclusive busy
    cases step with
    | @checked q b log here run =>
      have no := idle q
      rw [here] at no
      cases no
    | @recorded q b log here run =>
      have no := idle q
      rw [here] at no
      cases no
    | _ =>
      obtain same | ⟨b, same⟩ := kind
      · cases same
      · cases same
  · intro p asleep
    obtain busy | some := grouped.due p asleep
    · exact Or.inl ⟨busy, grouped.committing.mp busy⟩
    · refine Or.inr ⟨some, ?_⟩
      by_contra none
      push Not at none
      rw [grouped.outstanding, LogUse.active] at some
      have idle : ∀ q, (s.place q).active = false := fun q => by simpa using none q
      simp [idle] at some

/-- One process commits while another one waits. -/
theorem waiting_for_commit : ∃ s : LogUse (Fin 2),
    Run LogUse.Step (LogUse.boot 2 LOGSIZE)
      [.beginOp 0, .logWrite 0 60, .record 0, .endOp 0, .beginOp 1] s ∧
    s.log.committing = true ∧ s.log.lh = [60] ∧ s.place 1 = .sleeping ∧
    ((s.log.committing = true ∧ ∃ q, (s.place q).commits = true) ∨
      (0 < s.log.outstanding ∧ ∃ q, (s.place q).active = true)) := by
  have run : ∃ s : LogUse (Fin 2), Run LogUse.Step (LogUse.boot 2 LOGSIZE)
      [.beginOp 0, .logWrite 0 60, .record 0, .endOp 0, .beginOp 1] s ∧
      s.log.committing = true ∧ s.log.lh = [60] ∧ s.place 1 = .sleeping :=
    ⟨_, .next (.admitted (Or.inl rfl) rfl) (.next (.checked rfl rfl) (.next (.recorded rfl rfl)
      (.next (.last rfl rfl) (.next (.slept (Or.inl rfl) rfl) (.refl _))))), rfl, rfl, rfl⟩
  obtain ⟨s, run, busy, entries, asleep⟩ := run
  exact ⟨s, run, busy, entries, asleep, (group_commit run).2.2.2.2 1 asleep⟩

end Invariant

end Xv6
