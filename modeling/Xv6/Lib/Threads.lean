import Mathlib.Logic.Function.Basic
import Xv6.Lib.Control
import Xv6.Lib.Run

/-! Programs made of atomic sections, any number of which run interleaved on one
state. What a thread holds is recorded next to the state, and an invariant relates
the state to what all threads hold together. A section is judged on its own: it
runs while the other threads hold whatever they hold. -/
namespace Threads
open Control
open Function (update update_of_ne update_self)

/-- A program that runs one atomic section after another. -/
inductive Prog (ε σ α : Type) : Type 1 where
  | done (a : α)
  | act {β : Type} (m : EStateM ε σ β) (next : β → Prog ε σ α)

namespace Prog
variable {ε σ α β : Type}

def bind : Prog ε σ α → (α → Prog ε σ β) → Prog ε σ β
  | done a, f => f a
  | act m next, f => act m fun b => (next b).bind f

instance : Monad (Prog ε σ) where
  pure := done
  bind := bind

def atomic (m : EStateM ε σ α) : Prog ε σ α := act m done

end Prog

section Rules
variable {P ε σ γ α β : Type}

/-- How threads share a state: the invariant over what they hold, what is known of a
state besides when a section starts, what a thread holds between two programs, which
threads do not run, what a section may do to the state and why it may stop. -/
structure Discipline (P ε σ γ : Type) where
  inv : (P → γ) → σ → Prop
  given : σ → Prop
  rest : γ → Prop
  away : γ → Prop
  does : σ → σ → Prop
  stops : ε → Prop

/-- Thread `i` leaves the others what they hold, except that it may start one that
was away. -/
def Discipline.Spares (D : Discipline P ε σ γ) (i : P) (G G' : P → γ) : Prop :=
  ∀ j, j ≠ i → G' j = G j ∨ D.away (G j) ∧ D.rest (G' j)

/-- Thread `i`, which holds `g`, can run the program, and ends with `Q`. -/
def Discipline.Holds (D : Discipline P ε σ γ) (i : P) :
    Prog ε σ α → γ → (α → γ → Prop) → Prop
  | .done a, g, Q => Q a g
  | .act m next, g, Q => ¬ D.away g ∧ ∀ G s, G i = g → D.inv G s → D.given s →
      Sat m s (fun b t => D.does s t ∧ ∃ G', D.inv G' t ∧ D.Spares i G G' ∧
        D.Holds i (next b) (G' i) Q) (fun e _ => D.stops e)

namespace Discipline.Holds
variable {D : Discipline P ε σ γ} {i : P} {g : γ}

theorem atomic {m : EStateM ε σ α} {Q : α → γ → Prop} (here : ¬ D.away g)
    (h : ∀ G s, G i = g → D.inv G s → D.given s → Sat m s (fun b t => D.does s t ∧ ∃ G', D.inv G' t ∧
      D.Spares i G G' ∧ Q b (G' i)) (fun e _ => D.stops e)) :
    D.Holds i (.atomic m) g Q := ⟨here, h⟩

theorem mono {p : Prog ε σ α} {Q Q' : α → γ → Prop} (h : D.Holds i p g Q)
    (weaker : ∀ a g', Q a g' → Q' a g') : D.Holds i p g Q' := by
  induction p generalizing g with
  | done a => exact weaker a g h
  | act m next ih =>
    obtain ⟨here, section_⟩ := h
    refine ⟨here, fun G s own shared given =>
      (section_ G s own shared given).mono ?_ fun _ _ stop => stop⟩
    rintro b t ⟨does, G', kept, spares, rest⟩
    exact ⟨does, G', kept, spares, ih b rest⟩

theorem seq {p : Prog ε σ α} {f : α → Prog ε σ β} {Q : α → γ → Prop} {R : β → γ → Prop}
    (first : D.Holds i p g Q) (second : ∀ a g', Q a g' → D.Holds i (f a) g' R) :
    D.Holds i (p >>= f) g R := by
  induction p generalizing g with
  | done a => exact second a g first
  | act m next ih =>
    obtain ⟨here, section_⟩ := first
    refine ⟨here, fun G s own shared given =>
      (section_ G s own shared given).mono ?_ fun _ _ stop => stop⟩
    rintro b t ⟨does, G', kept, spares, rest⟩
    exact ⟨does, G', kept, spares, ih b rest⟩

end Discipline.Holds

end Rules

section Machine
variable {P ε σ γ Op : Type}

/-- The state, with the program each thread still has to run and whether it has run a
section of it. -/
structure Pool (P ε σ : Type) : Type 1 where
  state : σ
  prog : P → Prog ε σ Unit
  moved : P → Bool

inductive Label (P Op : Type) where
  | call (i : P) (op : Op)
  | move (i : P)

/-- A thread that is between two programs starts one, or a thread runs its next
section. A section that stops is not a step: the thread waits. -/
inductive Pool.Step [DecidableEq P] (admits : σ → P → Op → Prop) (body : P → Op → Prog ε σ Unit) :
    Pool P ε σ → Label P Op → Pool P ε σ → Prop where
  | call {c : Pool P ε σ} {i : P} {op : Op} : c.prog i = .done () → admits c.state i op →
      Step admits body c (.call i op)
        ⟨c.state, update c.prog i (body i op), update c.moved i false⟩
  | move {c : Pool P ε σ} {i : P} {β : Type} {m : EStateM ε σ β} {next : β → Prog ε σ Unit}
      {b : β} {t : σ} : c.prog i = .act m next → m.run c.state = .ok b t →
      Step admits body c (.move i) ⟨t, update c.prog i (next b), update c.moved i true⟩

/-- The threads between two programs, all of them. A thread that waits for its first
section is one of these. -/
def Pool.Quiet (c : Pool P ε σ) : Prop := ∀ i, c.prog i = .done () ∨ c.moved i = false

/-- The invariant holds, and every thread can run what it still has to run. -/
def Discipline.Sound (D : Discipline P ε σ γ) (c : Pool P ε σ) : Prop :=
  ∃ G, D.inv G c.state ∧ ∀ i, D.Holds i (c.prog i) (G i) (fun _ => D.rest) ∧
    (c.moved i = false → D.rest (G i))

variable {D : Discipline P ε σ γ} {admits : σ → P → Op → Prop} {body : P → Op → Prog ε σ Unit}

/-- The programs keep the discipline from wherever they may be started. -/
def Discipline.Ready (D : Discipline P ε σ γ) (admits : σ → P → Op → Prop)
    (body : P → Op → Prog ε σ Unit) : Prop :=
  ∀ G s i op, D.inv G s → D.rest (G i) → admits s i op →
    D.Holds i (body i op) (G i) fun _ => D.rest

theorem Discipline.Ready.keeps [DecidableEq P] (ready : D.Ready admits body) :
    Transition.Keeps (Transition.restrict (Pool.Step admits body) fun c _ => D.given c.state)
      D.Sound := by
  rintro c _ _ ⟨given, step⟩ ⟨G, shared, threads⟩
  cases step with
  | @call i op idle allowed =>
    refine ⟨G, shared, fun j => ?_⟩
    by_cases here : j = i
    · subst here
      have own := (threads j).1
      rw [idle] at own
      dsimp only
      rw [update_self, update_self]
      exact ⟨ready G c.state j op shared own allowed, fun _ => own⟩
    · dsimp only
      rw [update_of_ne here, update_of_ne here]
      exact threads j
  | @move i β m next b t current ran =>
    have own := (threads i).1
    rw [current] at own
    obtain ⟨_, G', kept, spares, rest⟩ := (own.2 G c.state rfl shared given).of_ok ran
    refine ⟨G', kept, fun j => ?_⟩
    by_cases here : j = i
    · subst here
      dsimp only
      rw [update_self, update_self]
      exact ⟨rest, nofun⟩
    · dsimp only
      rw [update_of_ne here, update_of_ne here]
      obtain same | ⟨away, resting⟩ := spares j here
      · rw [same]
        exact threads j
      · -- A thread that was away has no section to run.
        have other := (threads j).1
        cases running : c.prog j with
        | done a => exact ⟨resting, fun _ => resting⟩
        | act m next =>
          rw [running] at other
          exact absurd away other.1

namespace Discipline.Sound
variable {c c' : Pool P ε σ}

/-- Every step is one a section may make. -/
theorem does [DecidableEq P] (sound : D.Sound c) (given : D.given c.state) {i : P} (step : Pool.Step admits body c (.move i) c') :
    D.does c.state c'.state := by
  obtain ⟨G, shared, threads⟩ := sound
  cases step with
  | move current ran =>
    have own := (threads i).1
    rw [current] at own
    exact ((own.2 G c.state rfl shared given).of_ok ran).1

/-- A thread waits for no other reason. -/
theorem stops (sound : D.Sound c) (given : D.given c.state) {i : P} {β : Type} {m : EStateM ε σ β}
    {next : β → Prog ε σ Unit} {e : ε} {t : σ} (current : c.prog i = .act m next)
    (stopped : m.run c.state = .error e t) : D.stops e := by
  obtain ⟨G, shared, threads⟩ := sound
  have own := (threads i).1
  rw [current] at own
  exact (own.2 G c.state rfl shared given).of_error stopped

theorem quiet (sound : D.Sound c) (idle : c.Quiet) :
    ∃ G, D.inv G c.state ∧ ∀ i, D.rest (G i) := by
  obtain ⟨G, shared, threads⟩ := sound
  refine ⟨G, shared, fun i => ?_⟩
  obtain ⟨own, unmoved⟩ := threads i
  obtain done | waits := idle i
  · rwa [done] at own
  · exact unmoved waits

end Discipline.Sound
end Machine
end Threads
