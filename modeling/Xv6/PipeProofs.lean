import Xv6.Pipes

/-! Pipes are byte streams, and who sleeps on a pipe has a reason to. The first half
says what is in the ring at every moment. The second follows the debts of the processes
that have the lock: whoever puts a byte in owes a wakeup to the readers, whoever takes
one out owes it to the writers. -/
namespace Xv6.Pipes
open Monitor Circular Transition

section Stream

/-- The ring holds what was stored and not delivered, in order. -/
structure Pipe.Fifo (p : Pipe) : Prop where
  bound : ahead p.nread p.nwrite ≤ PIPESIZE
  stream : p.stored = p.delivered ++ p.content

variable {p : Pipe}

theorem Pipe.fifo_alloc (data : Fin PIPESIZE → UInt8) : (Pipe.alloc data).Fifo := by
  constructor
  · exact (ahead_self 0).trans_le (Nat.zero_le _)
  · simp [Pipe.alloc, Pipe.content, window_self]

theorem Pipe.full_iff : p.Full ↔ ahead p.nread p.nwrite = PIPESIZE := eq_add_iff (by decide)

theorem Pipe.Fifo.room (fifo : p.Fifo) (short : ¬ p.Full) : ahead p.nread p.nwrite < PIPESIZE :=
  Nat.lt_of_le_of_ne fifo.bound (mt full_iff.mpr short)

theorem Pipe.Fifo.store (fifo : p.Fifo) (short : ¬ p.Full) (c : UInt8) : (p.store c).Fifo := by
  have room := fifo.room short
  constructor
  · have next := ahead_next (a := p.nread) (b := p.nwrite) (by unfold PIPESIZE at room; omega)
    exact next.trans_le room
  · have pushed : (p.store c).content = p.content ++ [c] :=
      window_push (by decide) room (by decide) c
    change p.stored ++ [c] = p.delivered ++ (p.store c).content
    rw [pushed, fifo.stream, List.append_assoc]

theorem Pipe.Fifo.deliver (fifo : p.Fifo) (some : ¬ p.Empty) : p.deliver.Fifo := by
  constructor
  · have next := ahead_of_next (mt ahead_eq_zero.mp some)
    have bound := fifo.bound
    change ahead (p.nread + 1) p.nwrite ≤ PIPESIZE
    omega
  · have popped : p.content = _ :: p.deliver.content := window_pop some
    change p.stored = (p.delivered ++ [_]) ++ p.deliver.content
    rw [fifo.stream, popped, List.append_assoc]
    rfl

theorem Pipe.Fifo.close (fifo : p.Fifo) (writable : Bool) : (p.close writable).Fifo := by
  cases writable with
  | true => exact ⟨fifo.bound, fifo.stream⟩
  | false => exact ⟨fifo.bound, fifo.stream⟩

/-- What `piperead` knows when it is about to return `0`, from its first look at the ring on. -/
def Told (p : Pipe) : Call → Pc → Prop
  | .read _, .loop i => i = 0 → ¬ (p.Empty ∧ p.writeopen = true)
  | .read n, .done v | .read n, .ret v => v = 0 → n ≤ 0 ∨ p.Empty ∧ p.writeopen = false
  | _, _ => True

def flow (P : Type) : Spec P Pipe Chan Call Pc where
  inv := Pipe.Fifo
  cond := fun _ _ => True
  owes := fun _ _ _ => False
  sleeps := fun _ _ => True
  apart := fun _ _ => True
  outside := fun _ op pc _ => ∀ p, Told p op pc
  inside := fun _ op pc p => p.Fifo ∧ Told p op pc

variable {P : Type} {i : P} {op : Call} {pc : Pc}

/-- The ring changes in actions only. -/
theorem flow_act {f : Pipe → Pipe × Pc} {x : Pipe} {pc' : Pc} (result : f p = (x, pc')) (fifo : x.Fifo)
    (told : Told x op pc') : (flow P).Correct i op pc p (.act f) :=
  Spec.correct_act result ⟨fifo, told⟩ (fun _ _ => .inl trivial) fun _ _ _ _ _ => id

theorem pipewrite_flow (addr : Nat → UInt8) (n : Int) (fifo : p.Fifo) :
    (flow P).Correct i (.write addr n) pc p (pipewrite addr n pc) := by
  cases pc with
  | start => exact flow_act rfl fifo trivial
  | loop k =>
    by_cases more : (k : Int) < n
    · by_cases full : p.Full
      · by_cases reader : p.readopen = true
        · exact flow_act ((if_pos more).trans ((if_pos full).trans (if_pos reader))) fifo trivial
        · exact flow_act ((if_pos more).trans ((if_pos full).trans (if_neg reader))) fifo trivial
      · exact flow_act ((if_pos more).trans (if_neg full)) (fifo.store full (addr k)) trivial
    · exact flow_act (if_neg more) fifo trivial
  | blocked k => exact fun _ => ⟨⟨fifo, trivial⟩, fun _ => id⟩
  | stir k => exact ⟨⟨fifo, trivial⟩, fun _ _ => id⟩
  | nap k => exact ⟨fifo, fun _ => trivial, trivial, trivial, fun _ => False.elim⟩
  | done v => exact ⟨⟨fifo, trivial⟩, fun _ _ => id⟩
  | fail => exact fifo
  | ret v => exact fifo

theorem piperead_flow (n : Int) (fifo : p.Fifo) (told : Told p (.read n) pc) :
    (flow P).Correct i (.read n) pc p (piperead n pc) := by
  cases pc with
  | start =>
    by_cases waits : p.Empty ∧ p.writeopen = true
    · exact flow_act (if_pos waits) fifo trivial
    · exact flow_act (if_neg waits) fifo fun _ => waits
  | loop k =>
    by_cases more : (k : Int) < n
    · by_cases empty : p.Empty
      · refine flow_act ((if_pos more).trans (if_pos empty)) fifo fun zero => .inr ⟨empty, ?_⟩
        have unwatched := told (by omega)
        simpa [empty] using unwatched
      · exact flow_act ((if_pos more).trans (if_neg empty)) (fifo.deliver empty) nofun
    · exact flow_act (if_neg more) fifo fun zero => .inl (by omega)
  | blocked k =>
    intro killed
    cases killed with
    | false => exact ⟨⟨fifo, trivial⟩, fun _ => id⟩
    | true => exact ⟨⟨fifo, trivial⟩, fun _ => id⟩
  | stir k => trivial
  | nap k => exact ⟨fifo, fun _ => trivial, trivial, trivial, fun _ => False.elim⟩
  | done v => exact ⟨⟨fifo, told⟩, fun _ _ => id⟩
  | fail => exact fifo
  | ret v => exact fifo

theorem pipeclose_flow (writable : Bool) (fifo : p.Fifo) :
    (flow P).Correct i (.close writable) pc p (pipeclose writable pc) := by
  cases pc with
  | start => exact flow_act rfl (fifo.close writable) trivial
  | loop k =>
    by_cases both : p.readopen = false ∧ p.writeopen = false
    · exact flow_act (if_pos both) ⟨fifo.bound, fifo.stream⟩ trivial
    · exact flow_act (if_neg both) fifo trivial
  | done v => exact ⟨⟨fifo, trivial⟩, fun _ _ => id⟩
  | ret v => exact fifo
  | _ => trivial

theorem flow_valid : (flow P).Valid code fun _ _ => True where
  call := by
    intro s i op sound _ admitted
    constructor
    · intro p
      cases op <;> trivial
    · exact fun _ _ _ => ⟨trivial, trivial⟩
  enter := fun _ _ _ p fifo told => ⟨fifo, told p⟩
  correct := by
    rintro s i op pc - - ⟨fifo, told⟩
    cases op with
    | write addr n => exact pipewrite_flow addr n fifo
    | read n => exact piperead_flow n fifo told
    | close writable => exact pipeclose_flow writable fifo
  leave := fun _ _ _ _ _ _ _ _ _ _ _ _ _ => False.elim

/-- Pipes are byte streams: the ring never holds more than `PIPESIZE` bytes, the bytes
that were delivered are the first of those that were stored, and the others are in the
ring. `piperead` returns `0` from an empty pipe that nobody can write to, or when it was
asked for nothing. -/
theorem pipes_are_streams [DecidableEq P] (data : Fin PIPESIZE → UInt8) {es : List (Label P Call)} {s : Pool P}
    (run : Run code.Step (.start (.alloc data)) es s) :
    ahead s.shared.nread s.shared.nwrite ≤ PIPESIZE ∧
    s.shared.stored = s.shared.delivered ++ s.shared.content ∧
    ∀ i n, s.thread i = some ⟨.read n, .ret 0, .inside⟩ →
      n ≤ 0 ∨ s.shared.Empty ∧ s.shared.writeopen = false := by
  have sound := (run.to_restrict fun _ _ => trivial).kept flow_valid.keeps
    ((flow P).sound_start (Pipe.fifo_alloc data))
  have fifo : s.shared.Fifo := sound.always (fun _ => id) fun _ _ _ _ => And.left
  refine ⟨fifo.bound, fifo.stream, fun i n returns => ?_⟩
  exact (sound.at_ i _ returns).2 rfl

instance {n : Nat} (s : Pool (Fin n)) (p : Fin n) (op : Call) : Decidable (code.admits s p op) :=
  inferInstanceAs (Decidable (_ ∧ ∀ q, ∀ t ∈ s.thread q, _))

local instance twoThreads : NeZero 2 := ⟨by decide⟩

/-- A reader waits, a writer stores a byte, and the reader gets it. -/
def oneByte : List (Label (Fin 2) Call) :=
  .call 0 (.read 3) :: List.replicate 6 (.move 0) ++
    .call 1 (.write (fun _ => 7) 1) :: List.replicate 6 (.move 1) ++ List.replicate 8 (.move 0)

theorem pipe_delivers_byte : ∃ s : Pool (Fin 2), Run code.Step (.start (.alloc fun _ => 0)) oneByte s ∧
    s.shared.delivered = [7] ∧ s.shared.stored = s.shared.delivered ++ s.shared.content := by
  obtain ⟨s, walk, got⟩ := Code.run_of_any (q := fun s : Pool (Fin 2) => s.shared.delivered == [7])
    (show (code.walk (fun _ _ => true) (.start (.alloc fun _ => 0)) oneByte).any _ = true by
      decide +kernel)
  have run := walk.of_restrict
  exact ⟨s, run, beq_iff_eq.mp got, (pipes_are_streams _ run).2.1⟩

end Stream

section Wakeups

def Chan.Reason (p : Pipe) : Chan → Prop
  | .nread => p.Empty ∧ p.writeopen = true
  | .nwrite => p.Full ∧ p.readopen = true

/-- Why a process may sleep in the call. -/
def Call.Reason (p : Pipe) : Call → Prop
  | .read _ => p.Empty ∧ p.writeopen = true
  | .write .. => p.Full ∧ p.readopen = true
  | .close _ => False

def Call.Sleeps : Call → Chan → Prop
  | .read _, c => c = .nread
  | .write .., c => c = .nwrite
  | .close _, _ => False

theorem Call.Sleeps.reason {op : Call} {c : Chan} {p : Pipe} (sleeps : op.Sleeps c)
    (met : c.Reason p) : op.Reason p := by
  cases op with
  | read n =>
    cases sleeps
    exact met
  | write addr n =>
    cases sleeps
    exact met
  | close writable => exact sleeps.elim

/-- The readers are owed a wakeup by a writer from its first byte on, and the writers by
a reader. -/
def Owes : Call → Pc → Chan → Prop
  | .write .., .loop _, c | .write .., .blocked _, c | .write .., .stir _, c
  | .write .., .done _, c | .write .., .fail, c => c = .nread
  | .read _, .loop _, c | .read _, .done _, c => c = .nwrite
  | .close writable, .done _, c => c = if writable then .nread else .nwrite
  | _, _, _ => False

/-- What a process found before it waits or gives up. -/
def Found (p : Pipe) : Call → Pc → Prop
  | .write .., .blocked _ | .write .., .stir _ | .write .., .nap _ => p.Full ∧ p.readopen = true
  | .write .., .fail => p.Full
  | .read _, .blocked _ | .read _, .nap _ => p.Empty ∧ p.writeopen = true
  | _, _ => True

def wakeups (P : Type) : Spec P Pipe Chan Call Pc where
  inv := fun _ => True
  cond := fun c p => c.Reason p
  owes := Owes
  sleeps := Call.Sleeps
  apart := fun _ _ => True
  outside := fun _ op pc _ => ∀ p, Found p op pc
  inside := fun _ op pc p => Found p op pc

variable {P : Type} {i : P} {op : Call} {pc : Pc} {p : Pipe}

theorem wakeups_act {f : Pipe → Pipe × Pc} {x : Pipe} {pc' : Pc} (result : f p = (x, pc'))
    (found : Found x op pc')
    (debts : ∀ c : Chan, c.Reason p ∨ Owes op pc c → c.Reason x ∨ Owes op pc' c) :
    (wakeups P).Correct i op pc p (.act f) :=
  Spec.correct_act result found debts fun _ _ _ _ _ => id

theorem pipewrite_wakeups (addr : Nat → UInt8) (n : Int) (found : Found p (.write addr n) pc) :
    (wakeups P).Correct i (.write addr n) pc p (pipewrite addr n pc) := by
  cases pc with
  | start => exact wakeups_act rfl trivial fun c => .imp id False.elim
  | loop k =>
    by_cases more : (k : Int) < n
    · by_cases full : p.Full
      · by_cases reader : p.readopen = true
        · exact wakeups_act ((if_pos more).trans ((if_pos full).trans (if_pos reader))) ⟨full, reader⟩
            fun _ => id
        · exact wakeups_act ((if_pos more).trans ((if_pos full).trans (if_neg reader))) full fun _ => id
      · refine wakeups_act ((if_pos more).trans (if_neg full)) trivial ?_
        -- A stored byte only takes the reason from the readers.
        rintro c (reason | debt)
        · cases c with
          | nread => exact .inr rfl
          | nwrite => exact absurd reason.1 full
        · exact .inr debt
    · exact wakeups_act (if_neg more) trivial fun _ => id
  | blocked k =>
    intro killed
    cases killed with
    | false => exact ⟨found, fun _ => id⟩
    | true => exact ⟨found.1, fun _ => id⟩
  | stir k => exact ⟨found, fun _ other debt => absurd debt other⟩
  | nap k => exact ⟨trivial, fun _ => trivial, rfl, found, fun _ => False.elim⟩
  | done v => exact ⟨trivial, fun _ other debt => absurd debt other⟩
  | fail => trivial
  | ret v => trivial

theorem piperead_wakeups (n : Int) (found : Found p (.read n) pc) :
    (wakeups P).Correct i (.read n) pc p (piperead n pc) := by
  cases pc with
  | start =>
    by_cases waits : p.Empty ∧ p.writeopen = true
    · exact wakeups_act (if_pos waits) waits fun c => .imp id False.elim
    · exact wakeups_act (if_neg waits) trivial fun c => .imp id False.elim
  | loop k =>
    by_cases more : (k : Int) < n
    · by_cases empty : p.Empty
      · exact wakeups_act ((if_pos more).trans (if_pos empty)) trivial fun _ => id
      · refine wakeups_act ((if_pos more).trans (if_neg empty)) trivial ?_
        rintro c (reason | debt)
        · cases c with
          | nread => exact absurd reason.1 empty
          | nwrite => exact .inr rfl
        · exact .inr debt
    · exact wakeups_act (if_neg more) trivial fun _ => id
  | blocked k =>
    intro killed
    cases killed with
    | false => exact ⟨found, fun _ => id⟩
    | true => exact ⟨trivial, fun _ => id⟩
  | stir k => trivial
  | nap k => exact ⟨trivial, fun _ => trivial, rfl, found, fun _ => False.elim⟩
  | done v => exact ⟨trivial, fun _ other debt => absurd debt other⟩
  | fail => trivial
  | ret v => trivial

theorem pipeclose_wakeups (writable : Bool) :
    (wakeups P).Correct i (.close writable) pc p (pipeclose writable pc) := by
  cases pc with
  | start =>
    refine wakeups_act rfl trivial ?_
    rintro c (reason | debt)
    · cases writable <;> cases c
      · exact .inl reason
      · exact .inr rfl
      · exact .inr rfl
      · exact .inl reason
    · exact debt.elim
  | loop k =>
    by_cases both : p.readopen = false ∧ p.writeopen = false
    · exact wakeups_act (if_pos both) trivial fun c => .imp (by cases c <;> exact id) False.elim
    · exact wakeups_act (if_neg both) trivial fun c => .imp id False.elim
  | done v => exact ⟨trivial, fun _ other debt => absurd debt other⟩
  | ret v => trivial
  | _ => trivial

/-- `pipewrite` returns `-1` from its loop, past the wakeup, while a process waits for
bytes. -/
def Abandons (s : Pool P) : Label P Call → Prop
  | .move i => (∃ addr n, s.thread i = some ⟨.write addr n, .fail, .inside⟩) ∧
      ∃ q u, s.thread q = some u ∧ u.place.Waits .nread
  | _ => False

theorem wakeups_valid : (wakeups P).Valid code fun s e => ¬ Abandons s e where
  call := by
    intro s i op sound _ admitted
    constructor
    · intro p
      cases op <;> trivial
    · exact fun _ _ _ => ⟨trivial, trivial⟩
  enter := fun _ _ _ p _ found => found p
  correct := by
    intro s i op pc _ _ found
    cases op with
    | write addr n => exact pipewrite_wakeups addr n found
    | read n => exact piperead_wakeups n found
    | close writable => exact pipeclose_wakeups writable
  leave := by
    intro s i op pc sound kept here leaves c q u at_q waiting debt
    cases op with
    | write addr n =>
      cases pc with
      | fail =>
        cases debt
        exact absurd ⟨⟨addr, n, here⟩, q, u, at_q, waiting⟩ kept
      | ret v => exact debt.elim
      | _ => cases leaves
    | read n =>
      cases pc with
      | fail => exact debt.elim
      | ret v => exact debt.elim
      | _ => cases leaves
    | close writable =>
      cases pc with
      | ret v => exact debt.elim
      | _ => cases leaves

/-- While the lock is free, everyone who sleeps on the pipe has a reason to. -/
def Justified (s : Pool P) : Prop :=
  s.lock = none → ∀ i t c, s.thread i = some t → t.place.Waits c → t.op.Reason s.shared

theorem justified_of_sound {s : Pool P} (sound : (wakeups P).Sound s) : Justified s := by
  intro free i t c here waiting
  have sleeps : t.op.Sleeps c := (sound.sleeper here waiting).2
  exact sleeps.reason (sound.waits free here waiting)

theorem Pipe.Full.not_empty (full : p.Full) : ¬ p.Empty := by
  intro empty
  have none := ahead_eq_zero.mpr empty
  rw [full_iff.mp full] at none
  exact absurd none (by decide)

variable [DecidableEq P]

/-- A writer that gives up leaves the ring full and the readers asleep. -/
theorem Abandons.unjustified {s t : Pool P} {e : Label P Call} (sound : (wakeups P).Sound s)
    (abandons : Abandons s e) (step : code.Step s e t) : ¬ Justified t := by
  intro justified
  cases e with
  | move i =>
    obtain ⟨⟨addr, n, here⟩, q, u, at_q, waiting⟩ := abandons
    have other : q ≠ i := by
      rintro rfl
      cases here.symm.trans at_q
      exact waiting.elim
    have gone : some { s.put i none with lock := none } = some t := by
      have moved : s.move code.instr i = some t := step
      rw [State.move, here] at moved
      exact moved
    cases gone
    have still : Function.update s.thread i none q = some u := by rwa [Function.update_of_ne other]
    have full : s.shared.Full := sound.at_ i _ here
    have sleeps : u.op.Sleeps .nread := (sound.sleeper at_q waiting).2
    have reason := justified rfl q u _ still waiting
    cases op : u.op with
    | read n =>
      rw [op] at reason
      exact full.not_empty reason.1
    | write addr n => rw [op] at sleeps; cases sleeps
    | close writable => rw [op] at sleeps; exact sleeps.elim
  | call i op => exact abandons
  | kill i => exact abandons

/-- No wakeup is lost on a pipe as long as no writer gives up, with the ring full, while a
process waits for bytes; and the step in which one does loses it. -/
theorem sleepers_have_reason (data : Fin PIPESIZE → UInt8) {es : List (Label P Call)} {s : Pool P}
    (run : Run (restrict code.Step fun s e => ¬ Abandons s e) (.start (.alloc data)) es s) :
    Justified s ∧ ∀ e t, code.Step s e t → (Justified t ↔ ¬ Abandons s e) := by
  have sound := run.kept wakeups_valid.keeps ((wakeups P).sound_start trivial)
  refine ⟨justified_of_sound sound, fun e t step => ⟨?_, ?_⟩⟩
  · intro justified abandons
    exact abandons.unjustified sound step justified
  · intro kept
    exact justified_of_sound (wakeups_valid.keeps s e t ⟨kept, step⟩ sound)

/-- No writer gives up. -/
def keepsOn (s : Pool P) : Label P Call → Bool
  | .move i => (s.thread i).all fun t => match t.pc with | .fail => false | _ => true
  | _ => true

omit [DecidableEq P] in
theorem not_abandons {s : Pool P} {e : Label P Call} (on : keepsOn s e = true) : ¬ Abandons s e := by
  intro abandons
  cases e with
  | move i =>
    obtain ⟨⟨addr, n, fails⟩, _⟩ := abandons
    simp [keepsOn, fails] at on
  | call i op => exact abandons
  | kill i => exact abandons

/-- A reader falls asleep on a new pipe. -/
theorem reader_sleeps_for_reason : ∃ s : Pool (Fin 1),
    Run (restrict code.Step fun s e => ¬ Abandons s e) (.start (.alloc fun _ => 0))
      (.call 0 (.read 1) :: List.replicate 6 (.move 0)) s ∧
    (s.thread 0).map Thread.place = some (.asleep .nread) ∧ Justified s := by
  have walk : ∃ s : Pool (Fin 1), code.walk keepsOn (.start (.alloc fun _ => 0))
      (.call 0 (.read 1) :: List.replicate 6 (.move 0)) = some s ∧
      (s.thread 0).map Thread.place = some (.asleep .nread) := ⟨_, rfl, rfl⟩
  obtain ⟨s, walked, asleep⟩ := walk
  have run := (Code.run_of_walk walked).weaken fun _ _ => not_abandons
  exact ⟨s, run, asleep, (sleepers_have_reason _ run).1⟩

theorem step_act {s : Pool P} {f : Pipe → Pipe × Pc} {x : Pipe} {pc' : Pc}
    (here : s.thread i = some ⟨op, pc, .inside⟩) (acts : instr op pc = .act f) (result : f s.shared = (x, pc')) :
    code.Step s (.move i) { s.put i (some ⟨op, pc', .inside⟩) with shared := x } := by
  have runs : s.move code.instr i = s.exec i op (.act f) := by
    rw [State.move, here, ← acts]
    rfl
  exact runs.trans (by rw [State.exec, result])

/-- A writer stores `m` bytes. -/
theorem write_fills {s : Pool P} {addr : Nat → UInt8} {n : Int} {k : Nat} (m : Nat)
    (here : s.thread i = some ⟨.write addr n, .loop k, .inside⟩) (more : (k + m : Nat) ≤ n)
    (room : ahead s.shared.nread s.shared.nwrite + m ≤ PIPESIZE) :
    ∃ t, Run code.Step s (List.replicate m (.move i)) t ∧
      t.thread = Function.update s.thread i (some ⟨.write addr n, .loop (k + m), .inside⟩) ∧
      t.table = s.table ∧ t.shared.readopen = s.shared.readopen ∧
      ahead t.shared.nread t.shared.nwrite = ahead s.shared.nread s.shared.nwrite + m := by
  induction m generalizing s k with
  | zero => exact ⟨s, .refl s, by simp [← here], rfl, rfl, rfl⟩
  | succ m ih =>
    have short : ¬ s.shared.Full := by
      intro full
      have := Pipe.full_iff.mp full
      omega
    have next : ahead s.shared.nread (s.shared.nwrite + 1) = ahead s.shared.nread s.shared.nwrite + 1 :=
      ahead_next (by unfold PIPESIZE at room; omega)
    have step : code.Step s (.move i) { s.put i (some ⟨.write addr n, .loop (k + 1), .inside⟩) with
        shared := s.shared.store (addr k) } :=
      step_act here rfl ((if_pos (by omega)).trans (if_neg short))
    have stored : ahead (s.shared.store (addr k)).nread (s.shared.store (addr k)).nwrite = _ := next
    obtain ⟨t, run, threads, table, reader, filled⟩ := ih (k := k + 1)
      (s := { s.put i (some ⟨.write addr n, .loop (k + 1), .inside⟩) with shared := s.shared.store (addr k) })
      (Function.update_self ..) (by omega) (by dsimp only; omega)
    refine ⟨t, .next step run, ?_, table, reader, ?_⟩
    · rw [threads, State.put, Function.update_idem, Nat.add_right_comm, Nat.add_assoc]
    · rw [filled, stored, Nat.add_right_comm, Nat.add_assoc]

/-- A reader sleeps. A writer fills the ring and is killed before it has woken the reader:
it gives up, and the reader sleeps on. -/
theorem killed_writer_strands_reader : ∃ es, ∃ s : Pool (Fin 2),
    Run code.Step (.start (.alloc fun _ => 0)) es s ∧ ¬ Justified s := by
  have walk : ∃ s : Pool (Fin 2), code.walk (fun _ _ => true) (.start (.alloc fun _ => 0))
      (.call 0 (.read 1) :: List.replicate 6 (.move 0) ++
        .call 1 (.write (fun _ => 7) 513) :: List.replicate 2 (.move 1)) = some s ∧
      s.thread 0 = some ⟨.read 1, .start, .asleep .nread⟩ ∧
      s.thread 1 = some ⟨.write (fun _ => 7) 513, .loop 0, .inside⟩ ∧
      s.table = none ∧ s.shared.readopen = true ∧ ahead s.shared.nread s.shared.nwrite = 0 :=
    ⟨_, rfl, rfl, rfl, rfl, rfl, rfl⟩
  obtain ⟨s, walked, asleep, writing, table, reader, empty⟩ := walk
  obtain ⟨t, fills, threads, table', reader', filled⟩ :=
    write_fills PIPESIZE writing (by decide) (by rw [empty, Nat.zero_add])
  have full : t.shared.Full := Pipe.full_iff.mpr (by rw [filled, empty, Nat.zero_add])
  have writing : t.thread 1 = some ⟨.write (fun _ => 7) 513, .loop 512, .inside⟩ := by simp [threads]
  have asleep : t.thread 0 = some ⟨.read 1, .start, .asleep .nread⟩ := by simp [threads, asleep]
  have blocks := step_act writing rfl
    ((if_pos (by decide)).trans ((if_pos full).trans (if_pos (reader'.trans reader))))
  have quits : Run code.Step t [.move 1, .kill 1, .move 1, .move 1] _ :=
    .next blocks (.next ⟨table'.trans table, rfl⟩ (.next rfl (.next rfl (.refl _))))
  refine ⟨_, _, ((Code.run_of_walk walked).of_restrict.append fills).append quits, fun justified => ?_⟩
  have reason := justified rfl 0 _ .nread asleep rfl
  exact full.not_empty reason.1

end Wakeups
end Xv6.Pipes
