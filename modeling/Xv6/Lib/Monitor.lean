import Mathlib.Logic.Function.Basic
import Xv6.Lib.Run

/-! Processes that share a state behind a spin lock and wait for it to change with
`sleep` and `wakeup`. `sleep` exchanges the lock for that of the scheduler, gives up the
processor, and takes the lock again after it was woken. A process may be killed at any
moment, which wakes it. A process may also lose the lock in the middle of a call and go on
without it.

The rule of the module: every process judges its own instructions, and pays with a
`wakeup` for each channel whose condition it has broken. -/
namespace Monitor
open Function (update update_eq_self update_of_ne update_self)

/-- What a process that has the lock does next. -/
inductive Instr (σ χ L : Type) where
  | act (f : σ → σ × L)
  | killed (next : Bool → L)
  | wakeup (chan : χ) (next : L)
  | sleep (chan : χ) (next : L)
  | lose (next : L)
  | leave
  | halt

/-- Where a process stands with respect to the lock and to that of the scheduler. -/
inductive Place (χ : Type) where
  | enter
  | inside
  -- Inside the call, but without the lock.
  | loose
  -- In `sleep`: both locks, the scheduler's only, neither.
  | swap (chan : χ)
  | dozing (chan : χ)
  | asleep (chan : χ)
  -- Runnable again, and running again in `sleep` with the lock of the scheduler.
  | woken
  | resumed
deriving DecidableEq

namespace Place
variable {χ : Type}

def locks : Place χ → Bool
  | inside | swap _ => true
  | _ => false

def schedules : Place χ → Bool
  | swap _ | dozing _ | resumed => true
  | _ => false

/-- A `wakeup` of the channel is needed for the process to go on. -/
def Waits (c : χ) : Place χ → Prop
  | dozing d | asleep d => d = c
  | _ => False

def wake [DecidableEq χ] (c : χ) : Place χ → Place χ
  | asleep d => if d = c then woken else asleep d
  | place => place

def rouse : Place χ → Place χ
  | asleep _ => woken
  | place => place

end Place

/-- A process inside a call: the call with its arguments, the point of the code and the
locals, and where it stands. -/
structure Thread (χ K L : Type) where
  op : K
  pc : L
  place : Place χ

structure State (P σ χ K L : Type) where
  shared : σ
  lock : Option P
  table : Option P
  thread : P → Option (Thread χ K L)
  killed : P → Bool

inductive Label (P K : Type) where
  | call (p : P) (op : K)
  | move (p : P)
  | kill (p : P)

namespace State
variable {P σ χ K L : Type} [DecidableEq P]

def start (shared : σ) : State P σ χ K L := ⟨shared, none, none, fun _ => none, fun _ => false⟩

def put (s : State P σ χ K L) (p : P) (t : Option (Thread χ K L)) : State P σ χ K L :=
  { s with thread := update s.thread p t }

/-- Every process is moved to another place. -/
def relocate (s : State P σ χ K L) (f : Place χ → Place χ) : State P σ χ K L :=
  { s with thread := fun p => (s.thread p).map fun t => { t with place := f t.place } }

def kill (s : State P σ χ K L) (p : P) : State P σ χ K L :=
  { s.put p ((s.thread p).map fun t => { t with place := t.place.rouse }) with
    killed := update s.killed p true }

variable [DecidableEq χ]

/-- Process `p` runs an instruction inside the call `op`. -/
def exec (s : State P σ χ K L) (p : P) (op : K) : Instr σ χ L → Option (State P σ χ K L)
  | .act f => some { s.put p (some ⟨op, (f s.shared).2, .inside⟩) with shared := (f s.shared).1 }
  | .killed next => some (s.put p (some ⟨op, next (s.killed p), .inside⟩))
  | .wakeup c next =>
    if s.table.isNone then some ((s.relocate (.wake c)).put p (some ⟨op, next, .inside⟩)) else none
  | .sleep c next =>
    if s.table.isNone then some { s.put p (some ⟨op, next, .swap c⟩) with table := some p } else none
  | .lose next => some { s.put p (some ⟨op, next, .loose⟩) with lock := none }
  | .leave => some { s.put p none with lock := none }
  | .halt => none

/-- Process `p` runs an instruction without the lock. To lose it again it has to take it first;
what would let go of it stops the machine. -/
def roam (s : State P σ χ K L) (p : P) (op : K) : Instr σ χ L → Option (State P σ χ K L)
  | .act f => some { s.put p (some ⟨op, (f s.shared).2, .loose⟩) with shared := (f s.shared).1 }
  | .killed next => some (s.put p (some ⟨op, next (s.killed p), .loose⟩))
  | .wakeup c next =>
    if s.table.isNone then some ((s.relocate (.wake c)).put p (some ⟨op, next, .loose⟩)) else none
  | .lose next => if s.lock.isNone then some (s.put p (some ⟨op, next, .loose⟩)) else none
  | .sleep .. | .leave | .halt => none

/-- The next step of process `p`. -/
def move (instr : P → K → L → Instr σ χ L) (s : State P σ χ K L) (p : P) :
    Option (State P σ χ K L) :=
  match s.thread p with
  | none => none
  | some ⟨op, pc, place⟩ =>
    match place with
    | .enter =>
      if s.lock.isNone then some { s.put p (some ⟨op, pc, .inside⟩) with lock := some p } else none
    | .inside => s.exec p op (instr p op pc)
    | .loose => s.roam p op (instr p op pc)
    | .swap c => some { s.put p (some ⟨op, pc, .dozing c⟩) with lock := none }
    | .dozing c => some { s.put p (some ⟨op, pc, .asleep c⟩) with table := none }
    | .asleep _ => none
    | .woken =>
      if s.table.isNone then some { s.put p (some ⟨op, pc, .resumed⟩) with table := some p } else none
    | .resumed => some { s.put p (some ⟨op, pc, .enter⟩) with table := none }

end State

variable {P σ χ K L : Type}

/-- The code of the calls: where each starts, and what it does next. -/
structure Code (P σ χ K L : Type) where
  first : K → L
  instr : P → K → L → Instr σ χ L
  admits : State P σ χ K L → P → K → Prop

def Code.Step [DecidableEq P] [DecidableEq χ] (code : Code P σ χ K L) (s : State P σ χ K L) :
    Label P K → State P σ χ K L → Prop
  | .call p op, t => s.thread p = none ∧ code.admits s p op ∧
      t = s.put p (some ⟨op, code.first op, .enter⟩)
  | .move p, t => s.move code.instr p = some t
  | .kill p, t => s.table = none ∧ t = s.kill p

/-- Only actions change the state. -/
theorem Code.Step.shared [DecidableEq P] [DecidableEq χ] {code : Code P σ χ K L} {s t : State P σ χ K L}
    {e : Label P K} (step : code.Step s e t) : t.shared = s.shared ∨
      ∃ p op pc f, code.instr p op pc = .act f ∧ t.shared = (f s.shared).1 := by
  cases e with
  | call p op => exact .inl (by rw [step.2.2]; rfl)
  | kill p => exact .inl (by rw [step.2]; rfl)
  | move p =>
    have ran : s.move code.instr p = some t := step
    unfold State.move at ran
    split at ran
    · cases ran
    · rename_i op pc place here
      cases place with
      | enter | woken =>
        obtain ⟨_, same⟩ := Option.ite_none_right_eq_some.mp ran
        cases same
        exact .inl rfl
      | swap | dozing | resumed =>
        cases ran
        exact .inl rfl
      | asleep => cases ran
      | inside =>
        cases instr : code.instr p op pc with
        | act f =>
          simp only [instr, State.exec] at ran
          cases ran
          exact .inr ⟨p, op, pc, f, instr, rfl⟩
        | wakeup | sleep =>
          simp only [instr, State.exec] at ran
          obtain ⟨_, same⟩ := Option.ite_none_right_eq_some.mp ran
          cases same
          exact .inl rfl
        | killed | lose | leave =>
          simp only [instr, State.exec] at ran
          cases ran
          exact .inl rfl
        | halt =>
          simp only [instr, State.exec] at ran
          cases ran
      | loose =>
        cases instr : code.instr p op pc with
        | act f =>
          simp only [instr, State.roam] at ran
          cases ran
          exact .inr ⟨p, op, pc, f, instr, rfl⟩
        | wakeup | lose =>
          simp only [instr, State.roam] at ran
          obtain ⟨_, same⟩ := Option.ite_none_right_eq_some.mp ran
          cases same
          exact .inl rfl
        | killed =>
          simp only [instr, State.roam] at ran
          cases ran
          exact .inl rfl
        | sleep | leave | halt =>
          simp only [instr, State.roam] at ran
          cases ran

section Walks
variable [DecidableEq P] [DecidableEq χ] (code : Code P σ χ K L)
  [∀ s p op, Decidable (code.admits s p op)]

def Code.next (s : State P σ χ K L) : Label P K → Option (State P σ χ K L)
  | .call p op =>
    if (s.thread p).isNone ∧ code.admits s p op then
      some (s.put p (some ⟨op, code.first op, .enter⟩)) else none
  | .move p => s.move code.instr p
  | .kill p => if s.table.isNone then some (s.kill p) else none

/-- The state after the given steps, if each of them is possible and passes the test. -/
def Code.walk (test : State P σ χ K L → Label P K → Bool) (s : State P σ χ K L) :
    List (Label P K) → Option (State P σ χ K L)
  | [] => some s
  | e :: rest => if test s e then (code.next s e).bind fun t => Code.walk test t rest else none

theorem Code.step_of_next {code : Code P σ χ K L} [∀ s p op, Decidable (code.admits s p op)]
    {s t : State P σ χ K L} {e : Label P K} (next : code.next s e = some t) : code.Step s e t := by
  cases e with
  | call p op =>
    obtain ⟨⟨idle, admitted⟩, same⟩ := Option.ite_none_right_eq_some.mp next
    exact ⟨Option.isNone_iff_eq_none.mp idle, admitted, (Option.some.inj same).symm⟩
  | move p => exact next
  | kill p =>
    obtain ⟨idle, same⟩ := Option.ite_none_right_eq_some.mp next
    exact ⟨Option.isNone_iff_eq_none.mp idle, (Option.some.inj same).symm⟩

/-- A walk that ends is a run. -/
theorem Code.run_of_walk {code : Code P σ χ K L} [∀ s p op, Decidable (code.admits s p op)]
    {test : State P σ χ K L → Label P K → Bool} {s t : State P σ χ K L} {es : List (Label P K)}
    (ends : code.walk test s es = some t) :
    Transition.Run (Transition.restrict code.Step fun s e => test s e = true) s es t := by
  induction es generalizing s with
  | nil =>
    cases ends
    exact .refl _
  | cons e rest ih =>
    obtain ⟨passes, ends⟩ := Option.ite_none_right_eq_some.mp ends
    obtain ⟨u, next, ends⟩ := Option.bind_eq_some_iff.mp ends
    exact .next ⟨passes, step_of_next next⟩ (ih ends)

theorem Code.run_of_any {code : Code P σ χ K L} [∀ s p op, Decidable (code.admits s p op)]
    {test : State P σ χ K L → Label P K → Bool} {s : State P σ χ K L} {es : List (Label P K)}
    {q : State P σ χ K L → Bool} (ends : (code.walk test s es).any q = true) :
    ∃ t, Transition.Run (Transition.restrict code.Step fun s e => test s e = true) s es t ∧ q t = true := by
  cases walked : code.walk test s es with
  | none => simp [walked] at ends
  | some t => exact ⟨t, run_of_walk walked, by simpa [walked] using ends⟩

end Walks

section Ownership

/-- Exactly the process named by the lock has it. -/
def Owned (lock : Option P) (has : P → Bool) : Prop := ∀ p, lock = some p ↔ has p = true

/-- The processes at a place of the given kind. -/
def held (kind : Place χ → Bool) (thread : P → Option (Thread χ K L)) (p : P) : Bool :=
  (thread p).any fun t => kind t.place

variable {lock : Option P} {has : P → Bool} {p q : P}

theorem Owned.unique (owned : Owned lock has) (first : has p = true) (second : has q = true) :
    p = q := Option.some.inj (((owned p).mpr first).symm.trans ((owned q).mpr second))

variable [DecidableEq P]

theorem Owned.keep {b : Bool} (owned : Owned lock has) (same : b = has p) :
    Owned lock (update has p b) := by
  subst same
  rwa [update_eq_self]

theorem Owned.take (owned : Owned none has) : Owned (some p) (update has p true) := by
  intro q
  by_cases here : q = p
  · subst here
    simp
  · have out : has q ≠ true := fun held => nomatch (owned q).mpr held
    simp [here, out, Ne.symm here]

theorem Owned.drop (owned : Owned lock has) (held : has p = true) :
    Owned none (update has p false) := by
  intro q
  by_cases here : q = p
  · subst here
    simp
  · have out : has q ≠ true := fun other => here (owned.unique other held)
    simp [here, out]

theorem held_update (kind : Place χ → Bool) (thread : P → Option (Thread χ K L)) (p : P)
    (t : Option (Thread χ K L)) : held kind (update thread p t) =
      update (held kind thread) p (t.any fun t => kind t.place) := by
  funext q
  by_cases here : q = p
  · subst here
    simp [held]
  · simp [held, here]

end Ownership

section Rules

/-- How the processes share the state. `inv` holds while the lock is free. A process
that waits on a channel relies on `cond`, unless the process that has the lock `owes` a
wakeup. `sleeps` names the channels a call waits on, and calls that are in progress at
the same time are `apart`. `inside` and `outside` hold at a point of the code with the
lock and without it. -/
structure Spec (P σ χ K L : Type) where
  inv : σ → Prop
  cond : χ → σ → Prop
  owes : K → L → χ → Prop
  sleeps : K → χ → Prop
  apart : K → K → Prop
  outside : P → K → L → σ → Prop
  inside : P → K → L → σ → Prop

def Spec.At (S : Spec P σ χ K L) (p : P) (x : σ) (t : Thread χ K L) : Prop :=
  match t.place with
  | .inside => S.inside p t.op t.pc x
  | .loose => False
  | .swap c => S.outside p t.op t.pc x ∧ S.sleeps t.op c ∧ S.inv x ∧ S.cond c x
  | .dozing c | .asleep c => S.outside p t.op t.pc x ∧ S.sleeps t.op c
  | _ => S.outside p t.op t.pc x

def Spec.Indebted (S : Spec P σ χ K L) (c : χ) (t : Thread χ K L) : Prop :=
  t.place = .inside ∧ S.owes t.op t.pc c

structure Spec.Sound (S : Spec P σ χ K L) (s : State P σ χ K L) : Prop where
  locked : Owned s.lock (held Place.locks s.thread)
  scheduled : Owned s.table (held Place.schedules s.thread)
  free : s.lock = none → S.inv s.shared
  at_ : ∀ p t, s.thread p = some t → S.At p s.shared t
  apart : ∀ p q t u, p ≠ q → s.thread p = some t → s.thread q = some u → S.apart t.op u.op
  heard : ∀ p t c, s.thread p = some t → t.place.Waits c →
    S.cond c s.shared ∨ ∃ q u, s.thread q = some u ∧ S.Indebted c u

variable {S : Spec P σ χ K L} {s : State P σ χ K L} {p : P} {t t' : Thread χ K L} {x : σ}

theorem Spec.sound_start (S : Spec P σ χ K L) (inv : S.inv x) : S.Sound (.start x) where
  locked := fun p => by simp [State.start, held]
  scheduled := fun p => by simp [State.start, held]
  free := fun _ => inv
  at_ := nofun
  apart := nofun
  heard := nofun

/-- While the lock is free, a process that waits on a channel has its condition. -/
theorem Spec.Sound.waits {c : χ} (sound : S.Sound s) (free : s.lock = none)
    (here : s.thread p = some t) (waiting : t.place.Waits c) : S.cond c s.shared := by
  obtain met | ⟨q, u, at_q, inside, _⟩ := sound.heard p t c here waiting
  · exact met
  · have taken := (sound.locked q).mpr (by simp [held, at_q, inside, Place.locks])
    exact nomatch free.symm.trans taken

theorem Spec.Sound.sleeper {c : χ} (sound : S.Sound s) (here : s.thread p = some t)
    (waiting : t.place.Waits c) : S.outside p t.op t.pc s.shared ∧ S.sleeps t.op c := by
  have own := sound.at_ p t here
  unfold Spec.At at own
  cases placed : t.place with
  | dozing d | asleep d =>
    rw [placed] at own waiting
    cases waiting
    exact own
  | _ =>
    rw [placed] at waiting
    exact waiting.elim

/-- What the points of the code agree on holds at every moment. -/
theorem Spec.Sound.always {J : σ → Prop} (sound : S.Sound s) (free : ∀ x, S.inv x → J x)
    (inside : ∀ p op pc x, S.inside p op pc x → J x) : J s.shared := by
  cases lock : s.lock with
  | none => exact free _ (sound.free lock)
  | some p =>
    have mine := (sound.locked p).mp lock
    cases here : s.thread p with
    | none => simp [held, here] at mine
    | some t =>
      obtain ⟨op, pc, place⟩ := t
      have own := sound.at_ p _ here
      cases place with
      | inside => exact inside p op pc _ own
      | swap c => exact free _ own.2.2.1
      | _ => simp [held, here, Place.locks] at mine

section Places
variable [DecidableEq P]

/-- Process `p` goes on inside its call, and the others stay where they are. -/
theorem Spec.Sound.becomes {lock table : Option P} {killed : P → Bool} (sound : S.Sound s)
    (here : s.thread p = some t) (op : t'.op = t.op)
    (locked : Owned lock (update (held Place.locks s.thread) p t'.place.locks))
    (scheduled : Owned table (update (held Place.schedules s.thread) p t'.place.schedules))
    (free : lock = none → S.inv x) (own : S.At p x t')
    (others : ∀ q u, q ≠ p → s.thread q = some u → S.At q x u)
    (waits : ∀ c, t'.place.Waits c → t.place.Waits c ∨ S.cond c x)
    (heard : ∀ c q u, s.thread q = some u → u.place.Waits c →
      S.cond c s.shared ∨ S.Indebted c t → S.cond c x ∨ S.Indebted c t') :
    S.Sound ⟨x, lock, table, update s.thread p (some t'), killed⟩ := by
  have told : ∀ c q u, s.thread q = some u → u.place.Waits c → S.cond c x ∨
      ∃ q u, update s.thread p (some t') q = some u ∧ S.Indebted c u := by
    intro c q u at_q waiting
    obtain met | ⟨r, v, at_r, debt⟩ := sound.heard q u c at_q waiting
    · obtain met | debt := heard c q u at_q waiting (.inl met)
      · exact .inl met
      · exact .inr ⟨p, t', update_self .., debt⟩
    · by_cases mover : r = p
      · subst mover
        obtain rfl : t = v := Option.some.inj (here.symm.trans at_r)
        obtain met | debt := heard c q u at_q waiting (.inr debt)
        · exact .inl met
        · exact .inr ⟨r, t', update_self .., debt⟩
      · exact .inr ⟨r, v, by rwa [update_of_ne mover], debt⟩
  constructor
  · rw [held_update]
    exact locked
  · rw [held_update]
    exact scheduled
  · exact free
  · intro q u at_q
    by_cases mover : q = p
    · subst mover
      obtain rfl : t' = u := by simpa using at_q
      exact own
    · exact others q u mover (by simpa [mover] using at_q)
  · have kept : ∀ q u, update s.thread p (some t') q = some u →
        ∃ v, s.thread q = some v ∧ u.op = v.op := by
      intro q u at_q
      by_cases mover : q = p
      · subst mover
        obtain rfl : t' = u := by simpa using at_q
        exact ⟨t, here, op⟩
      · exact ⟨u, by simpa [mover] using at_q, rfl⟩
    intro q r u v differ at_q at_r
    obtain ⟨u', at_q, same⟩ := kept q u at_q
    obtain ⟨v', at_r, same'⟩ := kept r v at_r
    rw [same, same']
    exact sound.apart q r u' v' differ at_q at_r
  · intro q u c at_q waiting
    by_cases mover : q = p
    · subst mover
      obtain rfl : t' = u := by simpa using at_q
      obtain before | met := waits c waiting
      · exact told c q t here before
      · exact .inl met
    · exact told c q u (by simpa [mover] using at_q) waiting

/-- Process `p` leaves its call and lets go of the lock. -/
theorem Spec.Sound.leaves (sound : S.Sound s) (here : s.thread p = some t) (inside : t.place = .inside)
    (inv : S.inv s.shared)
    (paid : ∀ c q u, s.thread q = some u → u.place.Waits c → S.owes t.op t.pc c → S.cond c s.shared) :
    S.Sound { s.put p none with lock := none } := by
  have still : ∀ q u, update s.thread p none q = some u → q ≠ p ∧ s.thread q = some u := by
    intro q u at_q
    by_cases mover : q = p
    · subst mover
      simp at at_q
    · exact ⟨mover, by simpa [mover] using at_q⟩
  have mine : held Place.locks s.thread p = true := by simp [held, here, inside, Place.locks]
  constructor
  · rw [State.put, held_update]
    exact sound.locked.drop mine
  · rw [State.put, held_update]
    exact sound.scheduled.keep (by simp [held, here, inside, Place.schedules])
  · exact fun _ => inv
  · exact fun q u at_q => sound.at_ q u (still q u at_q).2
  · exact fun q r u v differ at_q at_r => sound.apart q r u v differ (still q u at_q).2 (still r v at_r).2
  · intro q u c at_q waiting
    obtain met | ⟨r, v, at_r, debtor, debt⟩ := sound.heard q u c (still q u at_q).2 waiting
    · exact .inl met
    · -- Nobody else has the lock, so the debt is that of `p`.
      obtain rfl : r = p := sound.locked.unique (by simp [held, at_r, debtor, Place.locks]) mine
      obtain rfl : t = v := Option.some.inj (here.symm.trans at_r)
      exact .inl (paid c q u (still q u at_q).2 waiting debt)

theorem Spec.Sound.calls {op : K} {pc : L} (sound : S.Sound s) (idle : s.thread p = none)
    (own : S.outside p op pc s.shared)
    (apart : ∀ q u, s.thread q = some u → S.apart op u.op ∧ S.apart u.op op) :
    S.Sound (s.put p (some ⟨op, pc, .enter⟩)) := by
  have split : ∀ q u, update s.thread p (some ⟨op, pc, .enter⟩) q = some u →
      q = p ∧ u = ⟨op, pc, .enter⟩ ∨ q ≠ p ∧ s.thread q = some u := by
    intro q u at_q
    by_cases mover : q = p
    · subst mover
      exact .inl ⟨rfl, by simpa [eq_comm] using at_q⟩
    · exact .inr ⟨mover, by simpa [mover] using at_q⟩
  constructor
  · rw [State.put, held_update]
    exact sound.locked.keep (by simp [held, idle, Place.locks])
  · rw [State.put, held_update]
    exact sound.scheduled.keep (by simp [held, idle, Place.schedules])
  · exact sound.free
  · intro q u at_q
    obtain ⟨rfl, rfl⟩ | ⟨_, at_q⟩ := split q u at_q
    · exact own
    · exact sound.at_ q u at_q
  · intro q r u v differ at_q at_r
    obtain ⟨rfl, rfl⟩ | ⟨_, was_q⟩ := split q u at_q
    · obtain ⟨rfl, rfl⟩ | ⟨_, was_r⟩ := split r v at_r
      · exact absurd rfl differ
      · exact (apart r v was_r).1
    · obtain ⟨rfl, rfl⟩ | ⟨_, was_r⟩ := split r v at_r
      · exact (apart q u was_q).2
      · exact sound.apart q r u v differ was_q was_r
  · intro q u c at_q waiting
    obtain ⟨rfl, rfl⟩ | ⟨_, at_q⟩ := split q u at_q
    · exact waiting.elim
    · obtain met | ⟨r, v, at_r, debt⟩ := sound.heard q u c at_q waiting
      · exact .inl met
      · have other : r ≠ p := by
          rintro rfl
          exact nomatch idle.symm.trans at_r
        exact .inr ⟨r, v, by simpa [State.put, other] using at_r, debt⟩

/-- Process `p` moves to another place and leaves the state alone. -/
theorem Spec.Sound.walks {lock table : Option P} {killed : P → Bool} {op : K} {pc pc' : L}
    {place place' : Place χ} (sound : S.Sound s) (here : s.thread p = some ⟨op, pc, place⟩)
    (locked : Owned lock (update (held Place.locks s.thread) p place'.locks))
    (scheduled : Owned table (update (held Place.schedules s.thread) p place'.schedules))
    (free : lock = none → S.inv s.shared) (own : S.At p s.shared ⟨op, pc', place'⟩)
    (waits : ∀ c, place'.Waits c → place.Waits c ∨ S.cond c s.shared)
    (paid : place = .inside → ∀ c, S.owes op pc c → S.cond c s.shared) :
    S.Sound ⟨s.shared, lock, table, update s.thread p (some ⟨op, pc', place'⟩), killed⟩ := by
  refine sound.becomes here rfl locked scheduled free own (fun q u _ => sound.at_ q u) waits ?_
  rintro c q u - - (met | ⟨inside, debt⟩)
  · exact .inl met
  · exact .inl (paid inside c debt)

/-- Process `p` changes the state while it has the lock. -/
theorem Spec.Sound.stays {op : K} {pc pc' : L} (sound : S.Sound s)
    (here : s.thread p = some ⟨op, pc, .inside⟩) (own : S.inside p op pc' x)
    (debts : ∀ c q u, s.thread q = some u → u.place.Waits c →
      S.cond c s.shared ∨ S.owes op pc c → S.cond c x ∨ S.owes op pc' c)
    (stable : ∀ q (u : Thread χ K L), q ≠ p → S.apart op u.op → S.outside q u.op u.pc s.shared →
      S.outside q u.op u.pc x) :
    S.Sound { s.put p (some ⟨op, pc', .inside⟩) with shared := x } := by
  have mine : held Place.locks s.thread p = true := by simp [held, here, Place.locks]
  have taken : s.lock ≠ none := by simp [(sound.locked p).mpr mine]
  refine sound.becomes here rfl (sound.locked.keep mine.symm)
    (sound.scheduled.keep (by simp [held, here])) (fun none => absurd none taken) own ?_
    (fun _ => .inl) ?_
  · -- Nobody else has the lock, so the others rely on `outside` only.
    intro q u other at_q
    have before := sound.at_ q u at_q
    have out : u.place.locks ≠ true := fun locks =>
      other (sound.locked.unique (by simp [held, at_q, locks]) mine)
    have moved := stable q u other (sound.apart p q _ u (Ne.symm other) here at_q)
    unfold Spec.At at before ⊢
    cases placed : u.place with
    | inside | swap c => simp [placed, Place.locks] at out
    | loose =>
      rw [placed] at before
      exact before.elim
    | dozing c | asleep c =>
      rw [placed] at before
      exact ⟨moved before.1, before.2⟩
    | _ =>
      rw [placed] at before
      exact moved before
  · rintro c q u at_q waiting before
    obtain met | debt := debts c q u at_q waiting (before.imp_right And.right)
    · exact .inl met
    · exact .inr ⟨rfl, debt⟩

theorem Spec.Sound.kills (sound : S.Sound s) (p : P) : S.Sound (s.kill p) := by
  unfold State.kill State.put
  cases here : s.thread p with
  | none =>
    rw [Option.map_none, ← here, update_eq_self]
    exact ⟨sound.1, sound.2, sound.3, sound.4, sound.5, sound.6⟩
  | some t =>
    obtain ⟨op, pc, place⟩ := t
    have own := sound.at_ p _ here
    have locked : place.rouse.locks = held Place.locks s.thread p := by
      cases place <;> simp [held, here, Place.rouse, Place.locks]
    have scheduled : place.rouse.schedules = held Place.schedules s.thread p := by
      cases place <;> simp [held, here, Place.rouse, Place.schedules]
    refine sound.becomes here rfl (sound.locked.keep locked) (sound.scheduled.keep scheduled) sound.free
      ?_ (fun q u _ => sound.at_ q u) (fun c waiting => .inl ?_) ?_
    · cases place with
      | asleep c => exact own.1
      | _ => exact own
    · cases place with
      | asleep d => exact waiting.elim
      | _ => exact waiting
    · rintro c q u - - (met | ⟨inside, debt⟩)
      · exact .inl met
      · exact .inr ⟨by cases inside; rfl, debt⟩

end Places

section Channels
variable [DecidableEq χ]

/-- The processes a `wakeup` moves are woken from their sleep. -/
theorem Place.wake_cases (c : χ) (place : Place χ) :
    place.wake c = place ∨ place = .asleep c ∧ place.wake c = .woken := by
  cases place with
  | asleep d =>
    by_cases same : d = c
    · exact .inr ⟨by rw [same], by rw [Place.wake, if_pos same]⟩
    · exact .inl (by rw [Place.wake, if_neg same])
  | _ => exact .inl rfl

theorem Spec.Sound.wakes (sound : S.Sound s) (c : χ) : S.Sound (s.relocate (.wake c)) := by
  have back : ∀ q u, (s.relocate (.wake c)).thread q = some u →
      ∃ v, s.thread q = some v ∧ u = { v with place := v.place.wake c } := by
    intro q u at_q
    obtain ⟨v, at_q, same⟩ := Option.map_eq_some_iff.mp at_q
    exact ⟨v, at_q, same.symm⟩
  have same : ∀ kind : Place χ → Bool, kind (.asleep c) = kind .woken →
      held kind (s.relocate (.wake c)).thread = held kind s.thread := by
    intro kind alike
    funext q
    cases at_q : s.thread q with
    | none => simp [held, State.relocate, at_q]
    | some u =>
      obtain stays | ⟨asleep, woken⟩ := Place.wake_cases c u.place
      · simp [held, State.relocate, at_q, stays]
      · simp only [held, State.relocate, at_q, Option.map_some, Option.any_some]
        rw [woken, asleep]
        exact alike.symm
  constructor
  · rw [same Place.locks rfl]
    exact sound.locked
  · rw [same Place.schedules rfl]
    exact sound.scheduled
  · exact sound.free
  · intro q u at_q
    obtain ⟨v, was_q, rfl⟩ := back q u at_q
    have own := sound.at_ q v was_q
    obtain stays | ⟨asleep, woken⟩ := Place.wake_cases c v.place
    · rwa [stays]
    · unfold Spec.At at own ⊢
      rw [asleep] at own
      rw [woken]
      exact own.1
  · intro q r u v differ at_q at_r
    obtain ⟨u, was_q, rfl⟩ := back q u at_q
    obtain ⟨v, was_r, rfl⟩ := back r v at_r
    exact sound.apart q r u v differ was_q was_r
  · intro q u d at_q waiting
    obtain ⟨u, was_q, rfl⟩ := back q u at_q
    have before : u.place.Waits d := by
      obtain stays | ⟨_, woken⟩ := Place.wake_cases c u.place
      · rwa [stays] at waiting
      · rw [woken] at waiting
        exact waiting.elim
    obtain met | ⟨r, v, at_r, inside, debt⟩ := sound.heard q u d was_q before
    · exact .inl met
    · refine .inr ⟨r, { v with place := v.place.wake c }, ?_, ?_, debt⟩
      · simp [State.relocate, at_r]
      · rw [inside]
        rfl

/-- While the lock of the scheduler is free, nobody waits on a channel that was woken. -/
theorem Spec.Sound.unheard {c : χ} {q : P} {u : Thread χ K L} (sound : S.Sound s) (idle : s.table = none)
    (at_q : (s.relocate (.wake c)).thread q = some u) : ¬ u.place.Waits c := by
  obtain ⟨v, was_q, rfl⟩ := Option.map_eq_some_iff.mp at_q
  intro waiting
  cases placed : v.place with
  | dozing d =>
    have table : s.table = some q := (sound.scheduled q).mpr (by simp [held, was_q, placed, Place.schedules])
    exact nomatch idle.symm.trans table
  | asleep d => by_cases same : d = c <;> simp [placed, Place.wake, same, Place.Waits] at waiting
  | _ => simp [placed, Place.wake, Place.Waits] at waiting

end Channels

/-- What process `p` has to show for an instruction at a point where `inside` holds. -/
def Spec.Correct (S : Spec P σ χ K L) (p : P) (op : K) (pc : L) (x : σ) : Instr σ χ L → Prop
  | .act f => S.inside p op (f x).2 (f x).1 ∧
      (∀ c, S.cond c x ∨ S.owes op pc c → S.cond c (f x).1 ∨ S.owes op (f x).2 c) ∧
      ∀ q op' pc', q ≠ p → S.apart op op' → S.outside q op' pc' x → S.outside q op' pc' (f x).1
  | .killed next => ∀ b, S.inside p op (next b) x ∧ ∀ c, S.owes op pc c → S.owes op (next b) c
  | .wakeup c next => S.inside p op next x ∧ ∀ d, d ≠ c → S.owes op pc d → S.owes op next d
  | .sleep c next => S.inv x ∧ S.outside p op next x ∧ S.sleeps op c ∧ S.cond c x ∧
      ∀ d, S.owes op pc d → S.cond d x
  | .lose _ => False
  | .leave => S.inv x
  | .halt => True

theorem Spec.correct_act {f : σ → σ × L} {op : K} {pc pc' : L} {y : σ} (result : f x = (y, pc'))
    (own : S.inside p op pc' y)
    (debts : ∀ c, S.cond c x ∨ S.owes op pc c → S.cond c y ∨ S.owes op pc' c)
    (stable : ∀ q op' pc', q ≠ p → S.apart op op' → S.outside q op' pc' x → S.outside q op' pc' y) :
    S.Correct p op pc x (.act f) := by
  simp only [Spec.Correct, result]
  exact ⟨own, debts, stable⟩

/-- The code keeps the rules in every step that is allowed. -/
structure Spec.Valid (S : Spec P σ χ K L) (code : Code P σ χ K L)
    (allowed : State P σ χ K L → Label P K → Prop) : Prop where
  call : ∀ s p op, S.Sound s → allowed s (.call p op) → code.admits s p op →
    S.outside p op (code.first op) s.shared ∧
      ∀ q u, s.thread q = some u → S.apart op u.op ∧ S.apart u.op op
  enter : ∀ p op pc x, S.inv x → S.outside p op pc x → S.inside p op pc x
  correct : ∀ s p op pc, allowed s (.move p) → s.thread p = some ⟨op, pc, .inside⟩ →
    S.inside p op pc s.shared → S.Correct p op pc s.shared (code.instr p op pc)
  leave : ∀ s p op pc, S.Sound s → allowed s (.move p) → s.thread p = some ⟨op, pc, .inside⟩ →
    code.instr p op pc = .leave → ∀ c q u, s.thread q = some u → u.place.Waits c →
      S.owes op pc c → S.cond c s.shared

variable [DecidableEq P] [DecidableEq χ]

theorem Spec.Sound.exec {instr : Instr σ χ L} {op : K} {pc : L} {s' : State P σ χ K L}
    (sound : S.Sound s) (here : s.thread p = some ⟨op, pc, .inside⟩)
    (correct : S.Correct p op pc s.shared instr)
    (paid : instr = .leave → ∀ c q u, s.thread q = some u → u.place.Waits c →
      S.owes op pc c → S.cond c s.shared)
    (ran : s.exec p op instr = some s') : S.Sound s' := by
  cases instr with
  | act f =>
    obtain ⟨own, debts, stable⟩ := correct
    cases ran
    exact sound.stays here own (fun c _ _ _ _ => debts c) fun q u => stable q u.op u.pc
  | killed next =>
    obtain ⟨own, debts⟩ := correct (s.killed p)
    cases ran
    exact sound.stays here own (fun c _ _ _ _ => Or.imp_right (debts c)) fun _ _ _ _ => id
  | wakeup c next =>
    obtain ⟨own, debts⟩ := correct
    obtain ⟨idle, same⟩ := Option.ite_none_right_eq_some.mp ran
    cases same
    have still : (s.relocate (.wake c)).thread p = some ⟨op, pc, .inside⟩ := by
      simp [State.relocate, here, Place.wake]
    refine (sound.wakes c).stays still own ?_ fun _ _ _ _ => id
    intro d q u at_q waiting before
    have other : d ≠ c := by
      rintro rfl
      exact sound.unheard (Option.isNone_iff_eq_none.mp idle) at_q waiting
    exact before.imp_right (debts d other)
  | sleep c next =>
    obtain ⟨inv, own, sleeps, met, paid⟩ := correct
    obtain ⟨idle, same⟩ := Option.ite_none_right_eq_some.mp ran
    cases same
    have table := sound.scheduled
    rw [Option.isNone_iff_eq_none.mp idle] at table
    refine sound.walks here (sound.locked.keep (by simp [held, here, Place.locks])) table.take
      sound.free ⟨own, sleeps, inv, met⟩ (fun _ => False.elim) fun _ => paid
  | lose => exact correct.elim
  | leave =>
    cases ran
    exact sound.leaves here rfl correct (paid rfl)
  | halt => cases ran

variable {code : Code P σ χ K L} {allowed : State P σ χ K L → Label P K → Prop}

theorem Spec.Valid.moves {s' : State P σ χ K L} (valid : S.Valid code allowed) (sound : S.Sound s)
    (permitted : allowed s (.move p)) (ran : s.move code.instr p = some s') : S.Sound s' := by
  unfold State.move at ran
  cases here : s.thread p with
  | none => simp [here] at ran
  | some t =>
    obtain ⟨op, pc, place⟩ := t
    have own := sound.at_ p _ here
    simp only [here] at ran
    cases place with
    | enter =>
      obtain ⟨idle, same⟩ := Option.ite_none_right_eq_some.mp ran
      have idle := Option.isNone_iff_eq_none.mp idle
      cases same
      have lock := sound.locked
      rw [idle] at lock
      exact sound.walks here lock.take (sound.scheduled.keep (by simp [held, here, Place.schedules]))
        nofun (valid.enter p op pc s.shared (sound.free idle) own) (fun _ => False.elim) nofun
    | inside =>
      exact sound.exec here (valid.correct s p op pc permitted here own)
        (valid.leave s p op pc sound permitted here) ran
    | loose => exact own.elim
    | swap c =>
      cases ran
      obtain ⟨own, sleeps, inv, met⟩ := own
      refine sound.walks here (sound.locked.drop (by simp [held, here, Place.locks]))
        (sound.scheduled.keep (by simp [held, here, Place.schedules])) (fun _ => inv) ⟨own, sleeps⟩ ?_ nofun
      rintro d rfl
      exact .inr met
    | dozing c =>
      cases ran
      exact sound.walks here (sound.locked.keep (by simp [held, here, Place.locks]))
        (sound.scheduled.drop (by simp [held, here, Place.schedules])) sound.free own
        (fun _ => .inl) nofun
    | asleep c => cases ran
    | woken =>
      obtain ⟨idle, same⟩ := Option.ite_none_right_eq_some.mp ran
      cases same
      have table := sound.scheduled
      rw [Option.isNone_iff_eq_none.mp idle] at table
      exact sound.walks here (sound.locked.keep (by simp [held, here, Place.locks])) table.take
        sound.free own (fun _ => False.elim) nofun
    | resumed =>
      cases ran
      exact sound.walks here (sound.locked.keep (by simp [held, here, Place.locks]))
        (sound.scheduled.drop (by simp [held, here, Place.schedules])) sound.free own
        (fun _ => False.elim) nofun

theorem Spec.Valid.keeps (valid : S.Valid code allowed) :
    Transition.Keeps (Transition.restrict code.Step allowed) S.Sound := by
  rintro s e s' ⟨permitted, step⟩ sound
  cases e with
  | call p op =>
    obtain ⟨idle, admitted, rfl⟩ := step
    obtain ⟨own, apart⟩ := valid.call s p op sound permitted admitted
    exact sound.calls idle own apart
  | move p => exact valid.moves sound permitted step
  | kill p =>
    obtain ⟨_, rfl⟩ := step
    exact sound.kills p

section Custody

/-- What the state needs of a call in progress, some call in progress has. -/
def Carried {ρ : Type} (needs : σ → ρ → Prop) (carries : K → ρ → Prop) (s : State P σ χ K L) : Prop :=
  ∀ r, needs s.shared r → ∃ p t, s.thread p = some t ∧ carries t.op r

variable {ρ : Type} {needs : σ → ρ → Prop} {carries : K → ρ → Prop} {s' : State P σ χ K L}

omit [DecidableEq P] [DecidableEq χ] in
theorem Carried.same (carried : Carried needs carries s)
    (ops : ∀ q, (s'.thread q).map Thread.op = (s.thread q).map Thread.op)
    (fewer : ∀ r, needs s'.shared r → needs s.shared r ∨
      ∃ p t, s.thread p = some t ∧ carries t.op r) : Carried needs carries s' := by
  intro r need
  have before : ∃ p t, s.thread p = some t ∧ carries t.op r := by
    rcases fewer r need with old | new
    · exact carried r old
    · exact new
  obtain ⟨p, t, here, has⟩ := before
  have op := ops p
  rw [here] at op
  obtain ⟨u, there, same⟩ := Option.map_eq_some_iff.mp op
  exact ⟨p, u, there, same ▸ has⟩

omit [DecidableEq χ] in
theorem op_update {pc : L} {place : Place χ} (here : s.thread p = some t) (q : P) :
    (update s.thread p (some ⟨t.op, pc, place⟩) q).map Thread.op =
      (s.thread q).map Thread.op := by
  by_cases mover : q = p
  · subst mover
    simp [here]
  · simp [mover]

theorem Carried.exec {instr : Instr σ χ L} (carried : Carried needs carries s)
    (here : s.thread p = some t) (ran : s.exec p t.op instr = some s')
    (acts : ∀ f r, instr = .act f → needs (f s.shared).1 r → needs s.shared r ∨ carries t.op r)
    (leaves : ∀ r, instr = .leave → carries t.op r → ¬ needs s.shared r) :
    Carried needs carries s' := by
  cases instr with
  | act f =>
    cases ran
    refine carried.same (op_update here) fun r need => ?_
    exact (acts f r rfl need).imp_right fun has => ⟨p, t, here, has⟩
  | killed next =>
    cases ran
    exact carried.same (op_update here) fun _ => .inl
  | wakeup c next =>
    obtain ⟨_, same⟩ := Option.ite_none_right_eq_some.mp ran
    cases same
    refine carried.same (fun q => ?_) fun _ => .inl
    by_cases mover : q = p
    · subst mover
      simp [State.put, here]
    · simp [State.put, State.relocate, mover, Function.comp_def]
  | sleep c next =>
    obtain ⟨_, same⟩ := Option.ite_none_right_eq_some.mp ran
    cases same
    exact carried.same (op_update here) fun _ => .inl
  | lose next =>
    cases ran
    exact carried.same (op_update here) fun _ => .inl
  | leave =>
    cases ran
    intro r need
    obtain ⟨q, u, at_q, has⟩ := carried r need
    have other : q ≠ p := by
      rintro rfl
      cases here.symm.trans at_q
      exact leaves r rfl has need
    exact ⟨q, u, by simpa [State.put, other] using at_q, has⟩
  | halt => cases ran

/-- Custody is kept if an action only adds needs of its own call, and a call leaves when
nothing is needed of it. -/
theorem Spec.Sound.carried {e : Label P K} (sound : S.Sound s) (step : code.Step s e s')
    (carried : Carried needs carries s)
    (acts : ∀ p op pc x f r, S.inside p op pc x → code.instr p op pc = .act f →
      needs (f x).1 r → needs x r ∨ carries op r)
    (leaves : ∀ p op pc x r, S.inside p op pc x → code.instr p op pc = .leave →
      carries op r → ¬ needs x r) : Carried needs carries s' := by
  cases e with
  | call p op =>
    obtain ⟨idle, _, rfl⟩ := step
    intro r need
    obtain ⟨q, u, at_q, has⟩ := carried r need
    have other : q ≠ p := by
      rintro rfl
      exact nomatch idle.symm.trans at_q
    exact ⟨q, u, by simpa [State.put, other] using at_q, has⟩
  | move p =>
    have ran : s.move code.instr p = some s' := step
    unfold State.move at ran
    cases here : s.thread p with
    | none => simp [here] at ran
    | some t =>
      obtain ⟨op, pc, place⟩ := t
      have own := sound.at_ p _ here
      simp only [here] at ran
      cases place with
      | enter | woken =>
        obtain ⟨_, same⟩ := Option.ite_none_right_eq_some.mp ran
        cases same
        exact carried.same (op_update here) fun _ => .inl
      | inside => exact carried.exec here ran (acts p op pc _ · · own) (leaves p op pc _ · own)
      | loose => exact own.elim
      | asleep c => cases ran
      | swap c | dozing c | resumed =>
        cases ran
        exact carried.same (op_update here) fun _ => .inl
  | kill p =>
    obtain ⟨_, rfl⟩ := step
    refine carried.same (fun q => ?_) fun _ => .inl
    by_cases mover : q = p
    · subst mover
      simp [State.kill, State.put, Function.comp_def]
    · simp [State.kill, State.put, mover]

end Custody
end Rules
end Monitor
