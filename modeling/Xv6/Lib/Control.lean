import Mathlib.Logic.Basic

/-! Pre- and postconditions for computations that update a state and may stop
early. A computation that stops keeps the state it had reached, so the second
postcondition can speak about what an abandoned computation leaves behind. -/
namespace Control

variable {ε σ α β : Type}

/-- Run from `s`, the computation either returns a value and a state related
by `Q`, or stops for a reason and in a state related by `E`. -/
def Sat (m : EStateM ε σ α) (s : σ) (Q : α → σ → Prop) (E : ε → σ → Prop) : Prop :=
  match m.run s with
  | .ok a t => Q a t
  | .error e t => E e t

@[simp] theorem sat_pure (a : α) (s : σ) (Q : α → σ → Prop) (E : ε → σ → Prop) :
    Sat (pure a) s Q E ↔ Q a s := Iff.rfl

@[simp] theorem sat_throw (e : ε) (s : σ) (Q : α → σ → Prop) (E : ε → σ → Prop) :
    Sat (throw e : EStateM ε σ α) s Q E ↔ E e s := Iff.rfl

@[simp] theorem sat_get (s : σ) (Q : σ → σ → Prop) (E : ε → σ → Prop) :
    Sat (get : EStateM ε σ σ) s Q E ↔ Q s s := Iff.rfl

@[simp] theorem sat_set (t s : σ) (Q : PUnit → σ → Prop) (E : ε → σ → Prop) :
    Sat (set t : EStateM ε σ PUnit) s Q E ↔ Q ⟨⟩ t := Iff.rfl

@[simp] theorem sat_modify (f : σ → σ) (s : σ) (Q : PUnit → σ → Prop) (E : ε → σ → Prop) :
    Sat (modify f : EStateM ε σ PUnit) s Q E ↔ Q ⟨⟩ (f s) := Iff.rfl

@[simp] theorem sat_bind (m : EStateM ε σ α) (f : α → EStateM ε σ β) (s : σ)
    (Q : β → σ → Prop) (E : ε → σ → Prop) :
    Sat (m >>= f) s Q E ↔ Sat m s (fun a t => Sat (f a) t Q E) E := by
  unfold Sat
  rw [EStateM.run_bind]
  cases m.run s <;> rfl

@[simp] theorem sat_map (m : EStateM ε σ α) (f : α → β) (s : σ)
    (Q : β → σ → Prop) (E : ε → σ → Prop) :
    Sat (f <$> m) s Q E ↔ Sat m s (fun a t => Q (f a) t) E := by
  rw [map_eq_pure_bind, sat_bind]
  rfl

theorem run_bind_congr {m : EStateM ε σ α} {s t : σ} (same : m.run s = m.run t)
    (k : α → EStateM ε σ β) : (m >>= k).run s = (m >>= k).run t := by
  rw [EStateM.run_bind, EStateM.run_bind, same]

theorem run_tryCatch (m : EStateM ε σ α) (handle : ε → EStateM ε σ α) (s : σ) :
    (tryCatch m handle : EStateM ε σ α).run s = match m.run s with
    | .ok a t => .ok a t
    | .error e t => (handle e).run t := by
  change EStateM.tryCatch m handle s = match m s with
    | .ok a t => .ok a t
    | .error e t => handle e t
  unfold EStateM.tryCatch
  cases m s <;> rfl

@[simp] theorem sat_tryCatch (m : EStateM ε σ α) (handle : ε → EStateM ε σ α) (s : σ)
    (Q : α → σ → Prop) (E : ε → σ → Prop) :
    Sat (tryCatch m handle) s Q E ↔ Sat m s Q (fun e t => Sat (handle e) t Q E) := by
  unfold Sat
  rw [run_tryCatch]
  cases m.run s <;> rfl

/-- Run a computation on a part of the state. -/
def zoom {τ : Type} (view : σ → τ) (put : σ → τ → σ) (m : EStateM ε τ α) : EStateM ε σ α := fun s =>
  match m.run (view s) with
  | .ok a t => .ok a (put s t)
  | .error e t => .error e (put s t)

theorem run_zoom {τ : Type} (view : σ → τ) (put : σ → τ → σ) (m : EStateM ε τ α) (s : σ) :
    (zoom view put m).run s = match m.run (view s) with
    | .ok a t => .ok a (put s t)
    | .error e t => .error e (put s t) := rfl

@[simp] theorem sat_zoom {τ : Type} (view : σ → τ) (put : σ → τ → σ) (m : EStateM ε τ α) (s : σ)
    (Q : α → σ → Prop) (E : ε → σ → Prop) :
    Sat (zoom view put m) s Q E ↔
      Sat m (view s) (fun a t => Q a (put s t)) (fun e t => E e (put s t)) := by
  unfold Sat
  rw [run_zoom]
  cases m.run (view s) <;> rfl

theorem Sat.mono {m : EStateM ε σ α} {s : σ} {Q Q' : α → σ → Prop} {E E' : ε → σ → Prop}
    (h : Sat m s Q E) (value : ∀ a t, Q a t → Q' a t) (stop : ∀ e t, E e t → E' e t) :
    Sat m s Q' E' := by
  unfold Sat at h ⊢
  cases run : m.run s with
  | ok a t => rw [run] at h; exact value a t h
  | error e t => rw [run] at h; exact stop e t h

theorem Sat.imp {m : EStateM ε σ α} {s : σ} {Q Q' : α → σ → Prop} {E : ε → σ → Prop}
    (h : Sat m s Q E) (value : ∀ a t, Q a t → Q' a t) : Sat m s Q' E :=
  h.mono value fun _ _ stop => stop

/-- The rule for sequences. -/
theorem Sat.seq {m : EStateM ε σ α} {f : α → EStateM ε σ β} {s : σ} {Q : α → σ → Prop} {R : β → σ → Prop}
    {E E' : ε → σ → Prop} (first : Sat m s Q E) (next : ∀ a t, Q a t → Sat (f a) t R E')
    (stop : ∀ e t, E e t → E' e t) : Sat (m >>= f) s R E' :=
  (sat_bind m f s R E').mpr (first.mono next stop)

theorem Sat.bind {m : EStateM ε σ α} {f : α → EStateM ε σ β} {s : σ} {Q : α → σ → Prop} {R : β → σ → Prop}
    {E : ε → σ → Prop} (first : Sat m s Q E) (next : ∀ a t, Q a t → Sat (f a) t R E) : Sat (m >>= f) s R E :=
  first.seq next fun _ _ stop => stop

theorem Sat.of_ok {m : EStateM ε σ α} {s t : σ} {a : α} {Q : α → σ → Prop} {E : ε → σ → Prop}
    (h : Sat m s Q E) (run : m.run s = .ok a t) : Q a t := by
  unfold Sat at h
  rw [run] at h
  exact h

theorem Sat.of_error {m : EStateM ε σ α} {s t : σ} {e : ε} {Q : α → σ → Prop} {E : ε → σ → Prop}
    (h : Sat m s Q E) (run : m.run s = .error e t) : E e t := by
  unfold Sat at h
  rw [run] at h
  exact h

theorem Sat.and {m : EStateM ε σ α} {s : σ} {Q Q' : α → σ → Prop} {E E' : ε → σ → Prop}
    (first : Sat m s Q E) (second : Sat m s Q' E') :
    Sat m s (fun a t => Q a t ∧ Q' a t) (fun e t => E e t ∧ E' e t) := by
  unfold Sat at first second ⊢
  cases run : m.run s with
  | ok a t => rw [run] at first second; exact ⟨first, second⟩
  | error e t => rw [run] at first second; exact ⟨first, second⟩

/-- A computation ends in one way or the other. -/
theorem Sat.absurd {m : EStateM ε σ α} {s : σ} {Q : α → σ → Prop} {E : ε → σ → Prop}
    (h : Sat m s Q E) (value : ∀ a t, ¬ Q a t) (stop : ∀ e t, ¬ E e t) : False := by
  unfold Sat at h
  cases run : m.run s with
  | ok a t => rw [run] at h; exact value a t h
  | error e t => rw [run] at h; exact stop e t h

theorem sat_self (m : EStateM ε σ α) (s : σ) :
    Sat m s (fun a t => m.run s = .ok a t) (fun e t => m.run s = .error e t) := by
  unfold Sat
  cases m.run s <;> rfl

theorem sat_congr {m : EStateM ε σ α} {s : σ} {Q Q' : α → σ → Prop} {E E' : ε → σ → Prop}
    (value : ∀ a t, Q a t ↔ Q' a t) (stop : ∀ e t, E e t ↔ E' e t) : Sat m s Q E ↔ Sat m s Q' E' :=
  ⟨fun h => h.mono (fun a t => (value a t).mp) fun e t => (stop e t).mp,
    fun h => h.mono (fun a t => (value a t).mpr) fun e t => (stop e t).mpr⟩

/-- Computations with the same postconditions are equal. -/
theorem eq_of_sat {m n : EStateM ε σ α} (same : ∀ s Q E, Sat m s Q E ↔ Sat n s Q E) : m = n := by
  funext s
  have run := (same s _ _).mp (sat_self m s)
  change m.run s = n.run s
  cases ended : n.run s with
  | ok a t => exact run.of_ok ended
  | error e t => exact run.of_error ended

/-- The value a computation returns, if it returns, and the state it ends in. -/
def value (m : EStateM ε σ α) (s : σ) : Option α :=
  match m.run s with
  | .ok a _ => some a
  | .error _ _ => none

/-- Why a computation stops, if it stops. -/
def stopped (m : EStateM ε σ α) (s : σ) : Option ε :=
  match m.run s with
  | .ok _ _ => none
  | .error e _ => some e

def final (m : EStateM ε σ α) (s : σ) : σ :=
  match m.run s with
  | .ok _ t => t
  | .error _ t => t

theorem run_of_value {m : EStateM ε σ α} {s : σ} {a : α} (returns : value m s = some a) :
    m.run s = .ok a (final m s) := by
  unfold value at returns
  unfold final
  cases run : m.run s with
  | ok b t =>
    rw [run] at returns
    cases returns
    rfl
  | error e t =>
    rw [run] at returns
    cases returns

theorem run_of_stopped {m : EStateM ε σ α} {s : σ} {e : ε} (stops : stopped m s = some e) :
    m.run s = .error e (final m s) := by
  unfold stopped at stops
  unfold final
  cases run : m.run s with
  | ok a t =>
    rw [run] at stops
    cases stops
  | error e' t =>
    rw [run] at stops
    cases stops
    rfl

theorem sat_of_value {m : EStateM ε σ α} {s : σ} {a : α} {Q : α → σ → Prop} {E : ε → σ → Prop}
    (returns : value m s = some a) (post : Q a (final m s)) : Sat m s Q E := by
  unfold Sat
  rw [run_of_value returns]
  exact post

theorem Sat.returns {m : EStateM ε σ α} {s : σ} {Q : α → σ → Prop}
    (h : Sat m s Q (fun _ _ => False)) : ∃ a t, m.run s = .ok a t ∧ Q a t := by
  unfold Sat at h
  cases run : m.run s with
  | ok a t =>
    rw [run] at h
    exact ⟨a, t, rfl, h⟩
  | error e t =>
    rw [run] at h
    exact h.elim

/-- Whatever the state, the computation stops only for reasons in `E`. -/
def Only (E : ε → Prop) (m : EStateM ε σ α) : Prop :=
  ∀ s, Sat m s (fun _ _ => True) (fun e _ => E e)

namespace Only
variable {E : ε → Prop}

theorem pure (a : α) : Only E (pure a : EStateM ε σ α) := fun _ => trivial

theorem throw {e : ε} (allowed : E e) : Only E (throw e : EStateM ε σ α) := fun _ => allowed

theorem get : Only E (get : EStateM ε σ σ) := fun _ => trivial

theorem modify (f : σ → σ) : Only E (modify f : EStateM ε σ PUnit) := fun _ => trivial

theorem bind {m : EStateM ε σ α} {f : α → EStateM ε σ β} (first : Only E m)
    (second : ∀ a, Only E (f a)) : Only E (m >>= f) := by
  intro s
  exact .seq (first s) (fun a t _ => second a t) (fun _ _ stop => stop)

theorem ite {c : Prop} [Decidable c] {m n : EStateM ε σ α} (yes : Only E m) (no : Only E n) :
    Only E (if c then m else n) := by
  split
  · exact yes
  · exact no

theorem zoom {τ : Type} {view : σ → τ} {put : σ → τ → σ} {m : EStateM ε τ α} (only : Only E m) :
    Only E (zoom view put m) := by
  intro s
  rw [sat_zoom]
  exact only (view s)

theorem mono {F : ε → Prop} {m : EStateM ε σ α} (only : Only E m) (within : ∀ e, E e → F e) :
    Only F m :=
  fun s => (only s).mono (fun _ _ _ => trivial) fun e _ => within e

theorem sat {m : EStateM ε σ α} (only : Only E m) {s : σ} {Q : α → σ → Prop} {F : ε → σ → Prop}
    (h : Sat m s Q F) : Sat m s Q (fun e _ => E e) :=
  (h.and (only s)).mono (fun _ _ both => both.1) (fun _ _ both => both.2)

end Only

/-- A computation with a parameter. At the value `base` it stops only for reasons in `E`; at any
other value it does the same, unless at `base` it stops for the reason `gap`. -/
def Lifts {ι : Type} (base : ι) (gap : ε) (E : ε → Prop) (m : ι → EStateM ε σ α) : Prop :=
  ∀ i s, Sat (m base) s (fun a t => (m i).run s = .ok a t)
    (fun e t => E e ∧ (e = gap ∨ (m i).run s = .error e t))

namespace Lifts
variable {ι : Type} {base : ι} {gap : ε} {E : ε → Prop}

theorem only {m : ι → EStateM ε σ α} (lifts : Lifts base gap E m) : Only E (m base) :=
  fun s => (lifts base s).mono (fun _ _ _ => trivial) fun _ _ stop => stop.1

theorem const {m : EStateM ε σ α} (only : Only E m) : Lifts base gap E fun _ => m :=
  fun _ s => ((sat_self m s).and (only s)).mono (fun _ _ both => both.1)
    fun _ _ both => ⟨both.2, .inr both.1⟩

theorem pure (a : α) : Lifts base gap E fun _ => (pure a : EStateM ε σ α) := const (.pure a)

theorem throw {e : ε} (allowed : E e) : Lifts base gap E fun _ => (throw e : EStateM ε σ α) :=
  const (.throw allowed)

theorem get : Lifts base gap E fun _ => (get : EStateM ε σ σ) := const .get

theorem modify (f : σ → σ) : Lifts base gap E fun _ => (modify f : EStateM ε σ PUnit) :=
  const (.modify f)

theorem bind {m : ι → EStateM ε σ α} {f : ι → α → EStateM ε σ β} (first : Lifts base gap E m)
    (second : ∀ a, Lifts base gap E fun i => f i a) : Lifts base gap E fun i => m i >>= f i := by
  intro i s
  refine .seq (first i s) (fun a t run => ?_) fun e t stop => ⟨stop.1, stop.2.imp_right fun run => ?_⟩
  · rw [EStateM.run_bind, run]
    exact second a i t
  · rw [EStateM.run_bind, run]

theorem ite {c : Prop} [Decidable c] {m n : ι → EStateM ε σ α} (yes : Lifts base gap E m)
    (no : Lifts base gap E n) : Lifts base gap E fun i => if c then m i else n i := by
  by_cases h : c
  · simpa only [if_pos h] using yes
  · simpa only [if_neg h] using no

theorem zoom {τ : Type} {view : σ → τ} {put : σ → τ → σ} {m : ι → EStateM ε τ α}
    (lifts : Lifts base gap E m) : Lifts base gap E fun i => zoom view put (m i) := by
  intro i s
  rw [sat_zoom]
  refine (lifts i (view s)).mono (fun a t run => ?_) fun e t stop => ⟨stop.1, stop.2.imp_right fun run => ?_⟩
  · rw [run_zoom, run]
  · rw [run_zoom, run]

/-- The handler passes the gap on. -/
theorem tryCatch {m : ι → EStateM ε σ α} {handle : ε → EStateM ε σ α} (lifts : Lifts base gap E m)
    (handled : ∀ e, Only E (handle e)) (passes : handle gap = MonadExcept.throw gap) :
    Lifts base gap E fun i => tryCatch (m i) handle := by
  intro i s
  rw [sat_tryCatch]
  refine (lifts i s).mono (fun a t run => ?_) fun e t stop => ?_
  · rw [run_tryCatch, run]
  · by_cases same : e = gap
    · rw [same, passes]
      exact ⟨same ▸ stop.1, .inl rfl⟩
    · rw [run_tryCatch, stop.2.resolve_left same]
      exact (const (handled e) : Lifts base gap E fun _ => handle e) i t

theorem mono {F : ε → Prop} {m : ι → EStateM ε σ α} (lifts : Lifts base gap E m)
    (within : ∀ e, E e → F e) : Lifts base gap F m :=
  fun i s => (lifts i s).mono (fun _ _ run => run) fun _ _ stop => ⟨within _ stop.1, stop.2⟩

end Lifts

end Control
