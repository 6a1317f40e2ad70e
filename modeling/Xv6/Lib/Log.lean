import Xv6.Lib.Control

/-! Computations that keep a log beside their state. The log is still there when a
computation stops early, and a computation that forgets its log is the one it observes. -/
namespace Control

variable {ε σ α β γ : Type}

/-- A computation that adds nothing to the log. -/
def quietly (m : EStateM ε σ α) : EStateM ε (σ × List β) α :=
  zoom Prod.fst (fun s t => (t, s.2)) m

/-- An entry of the log. -/
def note (b : β) : EStateM ε (σ × List β) PUnit := modify fun s => (s.1, s.2 ++ [b])

theorem sat_quietly (m : EStateM ε σ α) (s : σ) (log : List β) (Q : α → σ × List β → Prop)
    (E : ε → σ × List β → Prop) :
    Sat (quietly m) (s, log) Q E ↔ Sat m s (fun a t => Q a (t, log)) (fun e t => E e (t, log)) :=
  sat_zoom _ _ m (s, log) Q E

theorem sat_note (b : β) (s : σ) (log : List β) (Q : PUnit → σ × List β → Prop)
    (E : ε → σ × List β → Prop) : Sat (note b) (s, log) Q E ↔ Q ⟨⟩ (s, log ++ [b]) := Iff.rfl

/-- Without its log the computation is `m`. -/
def Forgets (l : EStateM ε (σ × List β) α) (m : EStateM ε σ α) : Prop :=
  ∀ s log Q E, Sat l (s, log) (fun a t => Q a t.1) (fun e t => E e t.1) ↔ Sat m s Q E

namespace Forgets

theorem pure (a : α) : Forgets (β := β) (pure a : EStateM ε (σ × List β) α) (pure a) :=
  fun _ _ _ _ => Iff.rfl

theorem throw (e : ε) : Forgets (β := β) (throw e : EStateM ε (σ × List β) α) (throw e) :=
  fun _ _ _ _ => Iff.rfl

theorem quietly (m : EStateM ε σ α) : Forgets (β := β) (quietly m) m :=
  fun s log Q E => sat_quietly m s log (fun a t => Q a t.1) (fun e t => E e t.1)

theorem bind {l : EStateM ε (σ × List β) α} {m : EStateM ε σ α}
    {f : α → EStateM ε (σ × List β) γ} {g : α → EStateM ε σ γ} (first : Forgets l m)
    (second : ∀ a, Forgets (f a) (g a)) : Forgets (l >>= f) (m >>= g) := by
  intro s log Q E
  rw [sat_bind, sat_bind, ← first s log]
  have rest : ∀ a t, Sat (f a) t (fun a t => Q a t.1) (fun e t => E e t.1) ↔ Sat (g a) t.1 Q E :=
    fun a t => second a t.1 t.2 Q E
  simp only [rest]

/-- An entry of the log changes nothing else. -/
theorem note (b : β) {l : EStateM ε (σ × List β) α} {m : EStateM ε σ α} (rest : Forgets l m) :
    Forgets (note b >>= fun _ => l) m := by
  intro s log Q E
  rw [sat_bind, sat_note]
  exact rest s (log ++ [b]) Q E

theorem ite {c : Prop} [Decidable c] {l l' : EStateM ε (σ × List β) α} {m m' : EStateM ε σ α}
    (yes : Forgets l m) (no : Forgets l' m') :
    Forgets (if c then l else l') (if c then m else m') := by
  split
  · exact yes
  · exact no

end Forgets

/-- The log at the end of a computation, however it ends. -/
def trail (l : EStateM ε (σ × List β) α) (s : σ) : List β := (final l (s, [])).2

theorem trail_of_sat {l : EStateM ε (σ × List β) α} {s : σ} {R : List β → Prop}
    (kept : Sat l (s, []) (fun _ t => R t.2) (fun _ t => R t.2)) : R (trail l s) := by
  unfold Sat at kept
  unfold trail final
  cases run : l.run (s, []) with
  | ok a t =>
    rw [run] at kept
    exact kept
  | error e t =>
    rw [run] at kept
    exact kept

end Control
