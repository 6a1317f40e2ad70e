import Xv6.Mapping
import Xv6.System

/-! Calls that come to the null pointer of `walkpgdir`. Whatever the kernel does there, a call
that does not come to it is a call of the machine that stops at the pointer, so that the
invariants of that machine are those of the kernel up to the first call that does. -/
namespace Xv6
open Control Transition

/-- The computation reads through a null pointer. -/
def HitsNull {σ α : Type} (m : EStateM Stop σ α) (s : σ) : Prop := stopped m s = some .nullPte

theorem hitsNull_iff {σ α : Type} {m : EStateM Stop σ α} {s : σ} {P : Prop}
    (sat : Sat m s (fun _ _ => ¬ P) fun e _ => e = .nullPte ↔ P) : HitsNull m s ↔ P := by
  unfold HitsNull stopped
  unfold Sat at sat
  cases run : m.run s with
  | ok a t =>
    rw [run] at sat
    exact iff_of_false (by rintro ⟨⟩) sat
  | error e t =>
    rw [run] at sat
    exact (Option.some.injEq _ _).to_iff.trans sat

/-- Without the null pointer, the two machines do the same. -/
theorem Steady.run_eq {σ α : Type} {E : Stop → Prop} {m : NullPte → EStateM Stop σ α}
    (steady : Steady E m) {s : σ} (clear : ¬ HitsNull (m .stop) s) (N : NullPte) :
    (m N).run s = (m .stop).run s := by
  have ends := steady N s
  unfold Sat at ends
  unfold HitsNull stopped at clear
  cases run : (m .stop).run s with
  | ok a t =>
    rw [run] at ends
    exact ends
  | error e t =>
    rw [run] at ends clear
    exact ends.2.resolve_left fun null => clear (congrArg some null)

section Calls
variable {E : Stop → Prop} [Stop.Panics E] (ordinary : ∀ e : Stop, e.Ordinary → E e)
  (remap : E (.panic "p4Debug, remapping page"))
include ordinary remap

theorem growproc_steady (n : Int) : Steady E fun _ => growproc n := by
  have sweep : ∀ k a, Steady E fun _ => growprocLoop k a := by
    intro k
    induction k with
    | zero => exact fun _ => .pure _
    | succ k ih => exact fun _ => .bind ((mencrypt_steady _ _).mono ordinary) fun _ => ih _
  refine .bind .get fun s => .ite (.bind (.const (.zoom (allocuvm_only remap _ _ _))) fun r => ?_)
    (.ite (.bind (.const (.zoom (deallocuvm_only _ _ _))) fun r => ?_)
      (.bind (.modify _) fun _ => .pure _))
  · exact .bind (.modify _) fun _ => .ite (.pure _) (.bind (sweep _ _) fun _ =>
      .bind (.modify _) fun _ => .bind (.modify _) fun _ => .pure _)
  · exact .bind (.modify _) fun _ => .ite (.pure _) (.bind (.modify _) fun _ =>
      .bind (.modify _) fun _ => .pure _)

theorem execImage_steady (ip : Inode) (elf : ElfHdr) (path : Nat) (argv : List Nat) :
    Steady E fun _ => execImage ip elf path argv := by
  have bad : ∀ d, Steady E fun _ => (do onPhys (freevm d); return -1 : K Int) := fun d =>
    .bind (.const (.zoom (freevm_only d))) fun _ => .pure _
  refine .bind (.const (.zoom setupkvm_only)) fun r => ?_
  cases r with
  | none => exact .pure _
  | some d =>
    refine .bind (.const (.zoom (execLoad_only remap _ _ _ _ _))) fun r => ?_
    obtain ⟨sz, d⟩ := r
    cases sz with
    | none => exact bad d
    | some sz =>
      dsimp only
      generalize uint (pgRoundUp sz + 2 * PGSIZE) = newsz
      refine .bind (.const (.zoom (allocuvm_only remap _ _ _))) fun r => .ite (bad _)
        (.bind (.const (.zoom (clearpteu_only _ _))) fun d =>
          .bind ((execStack_steady _ _ _ _).mono ordinary) fun r => ?_)
      cases r with
      | none => exact bad d
      | some out => exact .bind ((execCommit_steady _ _ _ _ _).mono ordinary) fun _ => .pure _

theorem exec_steady (namei : List UInt8 → Option Inode) (path : Nat) (argv : List Nat) :
    Steady E fun _ => exec namei path argv := by
  refine .bind (.modify _) fun _ => .bind ((loadStr_steady _ _ _).mono ordinary) fun text => ?_
  cases namei text with
  | none => exact .pure _
  | some ip =>
    dsimp only
    cases readi ip 0 52 with
    | none => exact .pure _
    | some bs => exact .ite (.pure _) (.ite (.pure _) (execImage_steady ordinary remap _ _ _ _))

theorem sysExec_steady (namei : List UInt8 → Option Inode) (path uargv : Nat) :
    Steady E fun _ => sysExec namei path uargv := by
  refine .bind ((fetchstr_steady _).mono ordinary) fun _ =>
    .ite (.bind ((fetchArgs_steady _ _ _).mono ordinary) fun r => ?_) (.pure _)
  cases r with
  | none => exact .pure _
  | some argv => exact exec_steady ordinary remap _ _ _

end Calls

/-- Any reason to stop. -/
def Stop.Any (_ : Stop) : Prop := True

instance : Stop.Panics Stop.Any := ⟨trivial, trivial, trivial, trivial⟩

theorem perform_steady (i : Nat) (call : Call) : Steady Stop.Any fun _ => perform i call := by
  have any : ∀ {σ α : Type} (m : EStateM Stop σ α), Only Stop.Any m := fun m s =>
    (sat_self m s).mono (fun _ _ _ => trivial) fun _ _ _ => trivial
  have ordinary : ∀ e : Stop, e.Ordinary → e.Any := fun _ _ => trivial
  have int : ∀ a v, Steady Stop.Any fun _ => storeInt a v := fun a v =>
    .bind ((store_steady _ _ _).mono ordinary) fun _ =>
      .bind ((store_steady _ _ _).mono ordinary) fun _ =>
        .bind ((store_steady _ _ _).mono ordinary) fun _ => (store_steady _ _ _).mono ordinary
  refine .tryCatch (.bind ?_ fun _ => .pure _) (fun _ => any _) rfl
  cases call with
  | load va => exact .bind (.zoom ((load_steady _ _).mono ordinary)) fun _ => .pure _
  | store va b => exact .bind (.zoom ((store_steady _ _ _).mono ordinary)) fun _ => .pure _
  | mencrypt va len => exact .zoom ((mencrypt_steady _ _).mono ordinary)
  | growproc n => exact .zoom (growproc_steady ordinary trivial _)
  | exec namei path uargv => exact .zoom (sysExec_steady ordinary trivial _ _ _)
  | pipe fd =>
    refine .bind .get fun s => .ite (.pure _) (.bind (.const (any _)) fun r => ?_)
    cases r with
    | none => exact .pure _
    | some ends =>
      refine .bind (.const (any _)) fun r => ?_
      cases r with
      | none => exact .pure _
      | some fds => exact .bind (.zoom (.bind (int _ _) fun _ => int _ _)) fun _ => .pure _
  | _ => exact .const (any _)

/-- The call of the event reads through a null pointer. -/
def Event.ReadsNull (e : Event) (s : Sys) : Prop := HitsNull (perform e.proc e.call) s

/-- Whatever lies behind the null pointer, the steps that do not come to it are those of the
machine that stops there. -/
theorem step_clear_iff {N : NullPte} {s t : Sys} {e : Event} :
    Step s e t ∧ ¬ e.ReadsNull s ↔ @Step .stop s e t := by
  have same := fun clear => (perform_steady e.proc e.call).run_eq (s := s) clear N
  constructor
  · rintro ⟨⟨bound, live, run⟩, clear⟩
    exact ⟨bound, live, (same clear).symm.trans run⟩
  · rintro ⟨bound, live, run⟩
    have clear : ¬ e.ReadsNull s := by
      rw [Event.ReadsNull, HitsNull, stopped, run]
      rintro ⟨⟩
    exact ⟨⟨bound, live, (same clear).trans run⟩, clear⟩

/-- The steps that the condition admits and that do not come to the null pointer. -/
def clearly (allowed : Sys → Event → Prop) (s : Sys) (e : Event) : Prop :=
  allowed s e ∧ ¬ e.ReadsNull s

theorem run_clearly_iff {N : NullPte} {allowed : Sys → Event → Prop} {s t : Sys} {es : List Event} :
    Run (restrict Step (clearly allowed)) s es t ↔ Run (restrict (@Step .stop) allowed) s es t := by
  constructor
  · intro run
    induction run with
    | refl s => exact .refl s
    | next head _ ih => exact .next ⟨head.1.1, step_clear_iff.mp ⟨head.2, head.1.2⟩⟩ ih
  · intro run
    induction run with
    | refl s => exact .refl s
    | next head _ ih =>
      obtain ⟨step, clear⟩ := step_clear_iff.mpr head.2
      exact .next ⟨⟨head.1, clear⟩, step⟩ ih

end Xv6
