import Mathlib.Logic.Basic

/-! Finite runs of a labelled transition relation, with the two rules every
safety result of a machine rests on: an invariant of the steps is an invariant
of the runs, and so is an invariant of the steps that meet a condition on the
state before the step. -/
namespace Transition

variable {S : Type*} {E : Type*}

inductive Run (step : S → E → S → Prop) : S → List E → S → Prop where
  | refl (s) : Run step s [] s
  | next {s t u : S} {e : E} {rest : List E} :
      step s e t → Run step t rest u → Run step s (e :: rest) u

/-- The steps of `step` taken from a state in which `allowed` admits the label. -/
def restrict (step : S → E → S → Prop) (allowed : S → E → Prop) : S → E → S → Prop :=
  fun s e t => allowed s e ∧ step s e t

/-- A property of states that no step of the machine can break. -/
def Keeps (step : S → E → S → Prop) (P : S → Prop) : Prop :=
  ∀ s e t, step s e t → P s → P t

namespace Run

variable {step : S → E → S → Prop} {s t u : S} {es fs : List E}

theorem append (first : Run step s es t) (second : Run step t fs u) :
    Run step s (es ++ fs) u := by
  induction first with
  | refl => exact second
  | next head _ ih => exact .next head (ih second)

theorem kept {P : S → Prop} (run : Run step s es t) (keeps : Keeps step P) : P s → P t := by
  induction run with
  | refl => exact id
  | next head _ ih => exact fun start => ih (keeps _ _ _ head start)

theorem of_restrict {allowed : S → E → Prop} (run : Run (restrict step allowed) s es t) :
    Run step s es t := by
  induction run with
  | refl s => exact .refl s
  | next head _ ih => exact .next head.2 ih

theorem to_restrict {allowed : S → E → Prop} (run : Run step s es t)
    (always : ∀ s e, allowed s e) : Run (restrict step allowed) s es t := by
  induction run with
  | refl s => exact .refl s
  | next head _ ih => exact .next ⟨always _ _, head⟩ ih

theorem weaken {allowed permitted : S → E → Prop} (run : Run (restrict step allowed) s es t)
    (weaker : ∀ s e, allowed s e → permitted s e) : Run (restrict step permitted) s es t := by
  induction run with
  | refl s => exact .refl s
  | next head _ ih => exact .next ⟨weaker _ _ head.1, head.2⟩ ih

/-- The steps of a machine that can be executed, one after another. -/
theorem of_any {next : S → E → Option S} (sound : ∀ s e t, next s e = some t → step s e t) {q : S → Bool}
    (ends : (es.foldlM next s).any q = true) : ∃ t, Run step s es t ∧ q t = true := by
  induction es generalizing s with
  | nil => exact ⟨s, .refl s, ends⟩
  | cons e rest ih =>
    rw [List.foldlM_cons] at ends
    cases head : next s e with
    | none =>
      rw [head] at ends
      exact nomatch ends
    | some u =>
      rw [head] at ends
      obtain ⟨t, run, ended⟩ := ih ends
      exact ⟨t, .next (sound s e u head) run, ended⟩

/-- A machine whose every step is matched by a step of another one is matched by it
over whole runs. -/
theorem simulate {A : Type*} {other : A → E → A → Prop} {R : S → A → Prop} {a : A}
    (run : Run step s es t)
    (matched : ∀ s e t a, step s e t → R s a → ∃ b, other a e b ∧ R t b) (start : R s a) :
    ∃ b, Run other a es b ∧ R t b := by
  induction run generalizing a with
  | refl s => exact ⟨a, .refl a, start⟩
  | next head _ ih =>
    obtain ⟨b, first, related⟩ := matched _ _ _ _ head start
    obtain ⟨c, rest, ended⟩ := ih related
    exact ⟨c, .next first rest, ended⟩

end Run
end Transition
