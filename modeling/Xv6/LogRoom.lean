import Mathlib.Algebra.BigOperators.Ring.Finset
import Xv6.LogProtocol

/-! The room in the log. `begin_op` reserves `MAXOPBLOCKS` entries for each operation
under way, but not for what they have logged already, and `log_write` refuses the last
entry of the log, even for a block that is in the header. -/
namespace Xv6
open Transition
open Function (update update_eq_self update_idem update_of_ne update_self)

variable {P : Type}

section Use
variable [DecidableEq P]

/-- The operation of a process logs at most `limit` different blocks. -/
def Act.within (limit : Nat) (s : LogUse P) : Act P → Prop
  | .logWrite p blockno => (insert blockno (s.wrote p)).card ≤ limit
  | _ => True

/-- An operation can log fresh blocks one after another while the header has fewer
than 29 entries. -/
theorem logs_blocks (limit : Nat) (p : P) (bs : List Nat) (s : LogUse P) (inside : s.place p = .inOp)
    (size : s.log.size = LOGSIZE) (busy : 1 ≤ s.log.outstanding)
    (room : s.log.lh.length + bs.length < LOGSIZE) (fresh : (s.log.lh ++ bs).Nodup)
    (few : (s.wrote p).card + bs.length ≤ limit) :
    ∃ as t, Run (restrict LogUse.Step (Act.within limit)) s as t ∧ t.place = s.place ∧
      t.log = { s.log with lh := s.log.lh ++ bs } ∧ (∀ q, q ≠ p → t.wrote q = s.wrote q) ∧
      (t.wrote p).card ≤ (s.wrote p).card + bs.length := by
  induction bs generalizing s with
  | nil => exact ⟨[], s, .refl s, rfl, by rw [List.append_nil], fun _ _ => rfl, le_rfl⟩
  | cons b bs ih =>
    rw [List.length_cons] at room few ⊢
    have new : b ∉ s.log.lh := fun member =>
      (List.nodup_append.mp fresh).2.2 b member b List.mem_cons_self rfl
    have card := Finset.card_insert_le b (s.wrote p)
    have passes : logWriteCheck.run s.log = .ok () s.log := by
      change (if _ then _ else if _ then _ else _ : G Unit) s.log = _
      rw [if_neg (by omega), if_neg (by omega)]
      rfl
    have first : restrict LogUse.Step (Act.within limit) s (.logWrite p b)
        (s.move p (.inLogWrite b)) :=
      ⟨show (insert b (s.wrote p)).card ≤ limit by omega, .checked inside passes⟩
    have second : ∃ u, restrict LogUse.Step (Act.within limit) (s.move p (.inLogWrite b)) (.record p) u ∧
        u.place = s.place ∧ u.log = { s.log with lh := s.log.lh ++ [b] } ∧
        u.wrote = update s.wrote p (insert b (s.wrote p)) := by
      refine ⟨_, ⟨trivial, .recorded (update_self ..) rfl⟩, ?_, ?_, rfl⟩
      · simp only [LogUse.move, update_idem]
        rw [← inside, update_eq_self]
      · simp [LogUse.move, absorb, new]
    obtain ⟨u, second, place, log, wrote⟩ := second
    have written : (u.wrote p).card = (insert b (s.wrote p)).card := by
      rw [wrote, update_self]
    obtain ⟨as, t, rest, place', log', others, card'⟩ := ih u (by rw [place]; exact inside)
      (by rw [log]; exact size) (by rw [log]; exact busy)
      (by rw [log]; simp only [List.length_append, List.length_singleton]; omega)
      (by rw [log]; simpa using fresh) (by omega)
    refine ⟨_, t, .next first (.next second rest), place'.trans place, ?_, ?_, by omega⟩
    · rw [log', log]
      simp
    · intro q other
      rw [others q other, wrote, update_of_ne other]

end Use

section Room
variable [Fintype P]

/-- What the operation of `p` may still add. -/
def LogUse.quota (limit : Nat) (s : LogUse P) (p : P) : Nat :=
  if (s.place p).active then limit - (s.wrote p).card else 0

structure LogUse.Roomy (limit : Nat) (s : LogUse P) : Prop where
  size : s.log.size = LOGSIZE
  pending : ∀ p b, s.place p = .inLogWrite b → (insert b (s.wrote p)).card ≤ limit
  total : s.log.lh.length + ∑ p, s.quota limit p ≤ MAXOPBLOCKS + 2 * limit

theorem LogUse.quota_le (limit : Nat) (s : LogUse P) :
    ∑ p, s.quota limit p ≤ limit * s.active := by
  rw [LogUse.active, Finset.mul_sum]
  apply Finset.sum_le_sum
  intro p _
  rw [LogUse.quota]
  split
  · rename_i inside
    rw [inside, Bool.toNat_true]
    omega
  · omega

variable {limit : Nat} {s t : LogUse P} {a : Act P}

/-- A step that takes one process out of its operation, or leaves it outside, keeps
the room. -/
theorem LogUse.Roomy.rest (roomy : s.Roomy limit) {p : P} (size : t.log.size = s.log.size)
    (length : t.log.lh.length ≤ s.log.lh.length) (wrote : t.wrote = s.wrote)
    (here : (t.place p).active = false)
    (others : ∀ q, q ≠ p → (t.place q).active = true → t.place q = s.place q) :
    t.Roomy limit := by
  refine ⟨size.trans roomy.size, ?_, ?_⟩
  · intro q b there
    have active : (t.place q).active = true := by rw [there]; rfl
    have other : q ≠ p := by
      rintro rfl
      exact nomatch active.symm.trans here
    rw [wrote]
    exact roomy.pending q b ((others q other active).symm.trans there)
  · have sums : ∑ q, t.quota limit q ≤ ∑ q, s.quota limit q := by
      apply Finset.sum_le_sum
      intro q _
      rw [LogUse.quota]
      split
      · rename_i active
        have other : q ≠ p := by
          rintro rfl
          exact nomatch active.symm.trans here
        rw [others q other active] at active
        rw [LogUse.quota, if_pos active, wrote]
      · exact Nat.zero_le _
    have total := roomy.total
    omega

variable [DecidableEq P]

theorem step_roomy (small : limit ≤ MAXOPBLOCKS)
    (step : restrict LogUse.Step (Act.within limit) s a t) (grouped : s.Grouped)
    (roomy : s.Roomy limit) : t.Roomy limit := by
  have kept := step_grouped step.2 grouped
  obtain ⟨allowed, step⟩ := step
  -- Processes other than the one that moves.
  have others : ∀ {p q : P} {b : Nat}, update s.place p .inOp q = .inLogWrite b →
      q ≠ p ∧ s.place q = .inLogWrite b := by
    intro p q b there
    obtain rfl | other := eq_or_ne q p
    · simp at there
    · exact ⟨other, by simpa [update_of_ne other] using there⟩
  cases step with
  | @admitted p log entering run =>
    obtain ⟨open_, room, rfl⟩ := beginOp_admits run
    refine ⟨roomy.size, ?_, ?_⟩
    · intro q b there
      obtain ⟨other, there⟩ := others there
      simpa [LogUse.move, update_of_ne other] using roomy.pending q b there
    · -- Before the first operation of a group the header is empty.
      refine le_trans (Nat.add_le_add_left (LogUse.quota_le limit _) _) ?_
      obtain ⟨active, is⟩ : ∃ n, n = LogUse.active { s.move p .inOp with
        log := { s.log with outstanding := s.log.outstanding + 1 }
        began := update s.began p s.cleared
        wrote := update s.wrote p ∅ } := ⟨_, rfl⟩
      have count := kept.outstanding
      have before := grouped.outstanding
      have empty := grouped.empty open_
      rw [← is] at count ⊢
      change s.log.outstanding + 1 = (active : Int) at count
      change s.log.lh.length + limit * active ≤ MAXOPBLOCKS + 2 * limit
      simp only [MAXOPBLOCKS, LOGSIZE] at room small ⊢
      have few : active = 1 ∨ active = 2 ∨ active = 3 := by omega
      obtain rfl | rfl | rfl := few
      · rw [empty (by omega)]
        simp
        omega
      · omega
      · omega
  | @slept p log entering run =>
    obtain ⟨rfl, _⟩ := beginOp_sleeps run
    exact roomy.rest (p := p) rfl le_rfl rfl (by simp [LogUse.move, Place.active])
      fun q other _ => update_of_ne other ..
  | @killed p asleep =>
    exact roomy.rest (p := p) rfl le_rfl rfl (by simp [LogUse.move, Place.active])
      fun q other _ => update_of_ne other ..
  | @checked p blockno log here run =>
    obtain rfl := logWriteCheck_passes run
    refine ⟨roomy.size, fun q b there => ?_, ?_⟩
    · obtain rfl | other := eq_or_ne q p
      · have same : blockno = b := by simpa [LogUse.move] using there
        subst same
        exact allowed
      · exact roomy.pending q b (by simpa [LogUse.move, update_of_ne other] using there)
    · have same : ∀ q, LogUse.quota limit (s.move p (.inLogWrite blockno)) q = s.quota limit q := by
        intro q
        obtain rfl | other := eq_or_ne q p
        · simp [LogUse.quota, LogUse.move, here, Place.active]
        · simp [LogUse.quota, LogUse.move, update_of_ne other]
      change s.log.lh.length + ∑ q, LogUse.quota limit (s.move p (.inLogWrite blockno)) q ≤ _
      simp only [same]
      exact roomy.total
  | @recorded p blockno log here run =>
    cases run
    have pending := roomy.pending p blockno here
    have inside : (s.place p).active = true := by rw [here]; rfl
    have logged := (grouped.whole p inside).2
    refine ⟨roomy.size, ?_, ?_⟩
    · intro q b there
      obtain ⟨other, there⟩ := others there
      simpa [update_of_ne other] using roomy.pending q b there
    · obtain ⟨u, is⟩ : ∃ u : LogUse P, u = { s.move p .inOp with
        log := { s.log with lh := absorb s.log.lh blockno }
        wrote := update s.wrote p (insert blockno (s.wrote p)) } := ⟨_, rfl⟩
      have change := Tally.sum_change (f := s.quota limit) (g := u.quota limit) (Finset.mem_univ p)
        fun q _ other => by
          rw [is]
          simp [LogUse.quota, LogUse.move, update_of_ne other]
      have old : s.quota limit p = limit - (s.wrote p).card := by
        rw [LogUse.quota, if_pos inside]
      have new : u.quota limit p = limit - (insert blockno (s.wrote p)).card := by
        rw [is]
        simp [LogUse.quota, LogUse.move, Place.active]
      have total := roomy.total
      change (absorb s.log.lh blockno).length + ∑ q, LogUse.quota limit _ q ≤ _
      rw [← is]
      unfold absorb
      split
      · have grows := Finset.card_le_card (Finset.subset_insert blockno (s.wrote p))
        omega
      · rename_i fresh
        rw [Finset.card_insert_of_notMem fun member => fresh (logged _ member)] at new pending
        rw [List.length_append, List.length_singleton]
        omega
  | @ended p log here run =>
    obtain ⟨_, _, rfl⟩ := endOp_returns run
    exact roomy.rest (p := p) rfl le_rfl rfl (by rw [wakeup_active]; simp [Place.active])
      fun q other active => (wakeup_of_active active).trans (update_of_ne other ..)
  | @last p log here run =>
    obtain ⟨_, _, rfl⟩ := endOp_returns run
    exact roomy.rest (p := p) rfl le_rfl rfl (by simp [LogUse.move, Place.active])
      fun q other _ => update_of_ne other ..
  | @cleared p here =>
    exact roomy.rest (p := p) rfl (Nat.zero_le _) rfl (by simp [LogUse.move, Place.active])
      fun q other _ => update_of_ne other ..
  | @committed p log here run =>
    cases run
    exact roomy.rest (p := p) rfl le_rfl rfl (by rw [wakeup_active]; simp [Place.active])
      fun q other active => (wakeup_of_active active).trans (update_of_ne other ..)

theorem run_roomy {start : Nat} {as : List (Act P)} (small : limit ≤ MAXOPBLOCKS)
    (run : Run (restrict LogUse.Step (Act.within limit)) (LogUse.boot start LOGSIZE) as s) :
    s.Grouped ∧ s.Roomy limit := by
  refine run.kept (P := fun s => s.Grouped ∧ s.Roomy limit) ?_
    ⟨LogUse.boot_grouped start LOGSIZE, rfl, nofun, ?_⟩
  · rintro s a t step ⟨grouped, roomy⟩
    exact ⟨step_grouped step.2 grouped, step_roomy small step grouped roomy⟩
  · simp [LogUse.boot, LogUse.quota, Place.active]

/-- If every operation logs at most nine different blocks, `log_write` never finds
the log full. -/
theorem nine_blocks_fit {start : Nat} {as : List (Act P)}
    (run : Run (restrict LogUse.Step (Act.within 9)) (LogUse.boot start LOGSIZE) as s) {p : P}
    (inside : s.place p = .inOp) : logWriteCheck.run s.log = .ok () s.log := by
  obtain ⟨grouped, roomy⟩ := run_roomy (by decide) run
  have total := roomy.total
  have busy := grouped.outstanding_pos (p := p) (by rw [inside]; rfl)
  have size := roomy.size
  change (if _ then _ else if _ then _ else _ : G Unit) s.log = _
  simp only [MAXOPBLOCKS, LOGSIZE] at total size ⊢
  rw [if_neg (by omega), if_neg (by omega)]
  rfl

/-- Three operations of at most ten blocks each: the third one meets the panic with its
tenth block. -/
theorem ten_blocks_panic : ∃ as, ∃ s : LogUse (Fin 3),
    Run (restrict LogUse.Step (Act.within MAXOPBLOCKS)) (LogUse.boot 2 LOGSIZE) as s ∧
      s.place 2 = .inOp ∧ Act.within MAXOPBLOCKS s (.logWrite 2 89) ∧
      ∃ log, logWriteCheck.run s.log = .error (.panic "too big a transaction") log := by
  have begun : ∃ s : LogUse (Fin 3),
      Run (restrict LogUse.Step (Act.within MAXOPBLOCKS)) (LogUse.boot 2 LOGSIZE)
        [.beginOp 0, .beginOp 1, .beginOp 2] s ∧
      s.log = ⟨2, LOGSIZE, 3, false, []⟩ ∧ (∀ p, s.place p = .inOp) ∧ ∀ p, s.wrote p = ∅ :=
    ⟨_, .next ⟨trivial, .admitted (Or.inl rfl) rfl⟩ (.next ⟨trivial, .admitted (Or.inl rfl) rfl⟩
      (.next ⟨trivial, .admitted (Or.inl rfl) rfl⟩ (.refl _))), rfl, by decide, by decide⟩
  obtain ⟨s, run, log, inside, none⟩ := begun
  obtain ⟨as, t, run₁, place₁, log₁, others₁, _⟩ := logs_blocks MAXOPBLOCKS 0
    (List.range' 60 10) s (inside 0) (by rw [log]) (by rw [log]; decide) (by rw [log]; decide)
    (by rw [log]; decide) (by rw [none]; decide)
  rw [log] at log₁
  obtain ⟨bs, u, run₂, place₂, log₂, others₂, _⟩ := logs_blocks MAXOPBLOCKS 1
    (List.range' 70 10) t (by rw [place₁]; exact inside 1) (by rw [log₁]) (by rw [log₁]; decide)
    (by rw [log₁]; decide) (by rw [log₁]; decide)
    (by rw [others₁ 1 (by decide), none]; decide)
  rw [log₁] at log₂
  obtain ⟨cs, v, run₃, place₃, log₃, _, card⟩ := logs_blocks MAXOPBLOCKS 2
    (List.range' 80 9) u (by rw [place₂, place₁]; exact inside 2) (by rw [log₂])
    (by rw [log₂]; decide) (by rw [log₂]; decide) (by rw [log₂]; decide)
    (by rw [others₂ 2 (by decide), others₁ 2 (by decide), none]; decide)
  rw [log₂] at log₃
  refine ⟨_, v, ((run.append run₁).append run₂).append run₃, ?_, ?_, v.log, ?_⟩
  · rw [place₃, place₂, place₁]
    exact inside 2
  · have grows := Finset.card_insert_le 89 (v.wrote 2)
    rw [others₂ 2 (by decide), others₁ 2 (by decide), none] at card
    change (insert 89 (v.wrote 2)).card ≤ 10
    simp only [Finset.card_empty, List.length_range'] at card
    omega
  · rw [log₃]
    rfl

/-- An operation that has logged nine blocks may log one of them again. -/
theorem nine_block_operation_fits : ∃ as, ∃ s : LogUse (Fin 3),
    Run (restrict LogUse.Step (Act.within 9)) (LogUse.boot 2 LOGSIZE) as s ∧
      s.log.lh.length = 9 ∧ logWriteCheck.run s.log = .ok () s.log := by
  have begun : ∃ s : LogUse (Fin 3),
      Run (restrict LogUse.Step (Act.within 9)) (LogUse.boot 2 LOGSIZE) [.beginOp 0] s ∧
      s.log = ⟨2, LOGSIZE, 1, false, []⟩ ∧ s.place 0 = .inOp ∧ s.wrote 0 = ∅ :=
    ⟨_, .next ⟨trivial, .admitted (Or.inl rfl) rfl⟩ (.refl _), rfl, rfl, rfl⟩
  obtain ⟨s, run, log, inside, none⟩ := begun
  obtain ⟨as, t, run₁, place₁, log₁, _, _⟩ := logs_blocks 9 0 (List.range' 60 9) s
    inside (by rw [log]) (by rw [log]) (by rw [log]; decide) (by rw [log]; decide)
    (by rw [none]; decide)
  refine ⟨_, t, run.append run₁, by rw [log₁, log]; simp, ?_⟩
  exact nine_blocks_fit (run.append run₁) (p := 0) (by rw [place₁]; exact inside)

end Room

end Xv6
