import Xv6.Console
import Xv6.Lib.Circular
import Xv6.Lib.Monitor

/-! The input of the console: `consoleintr` and `consoleread` of `console.c` with the ring
of three indices between them, behind `cons.lock`. Characters come in lists, as `getc`
delivers them to one interrupt, and are edited in place. Readers wait on `&input.r`. A reader
stores each character in the memory of its process, and a page fault there releases the lock:
the handler prints its messages with `cprintf`. -/
namespace Xv6.ConsoleInput
open Monitor Circular Transition Control

section Model
variable {P : Type}

abbrev INPUT_BUF : Nat := 128
abbrev CTRL_D : UInt8 := 4
abbrev CTRL_H : UInt8 := 8
abbrev NEWLINE : UInt8 := 10
abbrev RETURN : UInt8 := 13
abbrev CTRL_P : UInt8 := 16
abbrev CTRL_U : UInt8 := 21
abbrev DELETE : UInt8 := 127

/-- The ring. The last two fields record which bytes have been given to the readers, and
which bytes have been taken by whom. -/
structure Input (P : Type) where
  buf : Fin INPUT_BUF → UInt8
  r : UInt32
  w : UInt32
  e : UInt32
  committed : List UInt8
  taken : List (P × UInt8)

namespace Input

def init (buf : Fin INPUT_BUF → UInt8) : Input P := ⟨buf, 0, 0, 0, [], []⟩

/-- `input.e--` -/
def erase (x : Input P) : Input P := { x with e := x.e - 1 }

/-- `input.buf[input.e++ % INPUT_BUF] = c` -/
def store (x : Input P) (c : UInt8) : Input P :=
  { x with buf := Function.update x.buf (Circular.slot INPUT_BUF x.e) c, e := x.e + 1 }

/-- `input.w = input.e` -/
def commit (x : Input P) : Input P :=
  { x with w := x.e, committed := x.committed ++ window x.buf x.w x.e }

/-- The byte at `input.r`. -/
def peek (x : Input P) : UInt8 := x.buf (Circular.slot INPUT_BUF x.r)

/-- `input.r++` -/
def pop (x : Input P) (p : P) : Input P :=
  { x with r := x.r + 1, taken := x.taken ++ [(p, x.peek)] }

/-- `input.r--` -/
def unpop (x : Input P) : Input P := { x with r := x.r - 1, taken := x.taken.dropLast }

/-- The bytes that one process has taken. -/
def takenBy [DecidableEq P] (x : Input P) (p : P) : List UInt8 :=
  (x.taken.filter fun t => t.1 = p).map Prod.snd

end Input

/-- The memory of a process is its own, so a read starts with it. -/
inductive Call where
  | intr (chars : List UInt8)
  | read (mem : St) (dst : Nat) (n : Int)

/-- A reader: its memory, what the process had taken before the call, and what it has got
since then. -/
structure Reader where
  mem : St
  base : List UInt8
  got : List UInt8

/-- Where the next character goes. -/
def Reader.place (x : Reader) (dst : Nat) : Nat := uint (dst + x.got.length)

/-- The page of that place is present. -/
def Reader.lands (x : Reader) (dst : Nat) : Bool := (x.mem.proc.resident false (x.place dst)).isSome

/-- `*dst++ = c; --n`, unless it ends the process. -/
def Reader.stored (x : Reader) (dst : Nat) (c : UInt8) : Option Reader :=
  match (Xv6.store false (x.place dst) c).run x.mem with
  | .ok _ mem => some ⟨mem, x.base, x.got ++ [c]⟩
  | .error .. => none

/-- The points of the two routines: the characters still to come, the loop of `^U` and the
wakeup; and the points of a reader. `ret` says whether the read has consumed an end-of-file
mark. -/
inductive Pc where
  | start
  | chars (rest : List UInt8)
  | killLine (rest : List UInt8)
  | stir (rest : List UInt8)
  | done
  | loop (x : Reader)
  | blocked (x : Reader)
  | nap (x : Reader)
  | took (x : Reader) (c : UInt8)
  | put (x : Reader) (c : UInt8)
  | trapped (x : Reader) (c : UInt8)
  | fail
  | ret (x : Reader) (eof : Bool)

/-- A character is added to the line, which is committed when it ends or the ring is full. -/
def add (x : Input P) (c : UInt8) (rest : List UInt8) : Input P × Pc :=
  if c = NEWLINE ∨ c = CTRL_D ∨ (x.store c).e = (x.store c).r + UInt32.ofNat INPUT_BUF then
    ((x.store c).commit, .stir rest)
  else (x.store c, .chars rest)

/-- What the interrupt does with a character. -/
def edit (x : Input P) (c : UInt8) (rest : List UInt8) : Input P × Pc :=
  if c = CTRL_P then (x, .chars rest)
  else if c = CTRL_U then (x, .killLine rest)
  else if c = CTRL_H ∨ c = DELETE then
    if x.e ≠ x.w then (x.erase, .chars rest) else (x, .chars rest)
  else if c ≠ 0 ∧ ahead x.r x.e < INPUT_BUF then
    add x (if c = RETURN then NEWLINE else c) rest
  else (x, .chars rest)

/-- The listing that `^P` asks for comes after the lock is released. -/
def consoleintr (chars : List UInt8) : Pc → Instr (Input P) Unit Pc
  | .start => .act fun x => (x, .chars chars)
  | .chars [] => .act fun x => (x, .done)
  | .chars (c :: rest) => .act fun x => edit x c rest
  | .killLine rest => .act fun x =>
    if x.e ≠ x.w ∧ x.buf (Circular.slot INPUT_BUF (x.e - 1)) ≠ NEWLINE then (x.erase, .killLine rest)
    else (x, .chars rest)
  | .stir rest => .wakeup () (.chars rest)
  | .done => .leave
  | _ => .halt

/-- The character is stored, and the loop goes on unless a line ends. -/
def storeChar (x : Reader) (dst : Nat) (c : UInt8) : Instr (Input P) Unit Pc :=
  match x.stored dst c with
  | some y => .act fun i => (i, if c = NEWLINE then .ret y false else .loop y)
  | none => .halt

/-- `n` counts down in the source; here `got` grows, and `n < target` says that it is not
empty. The messages of the page fault find the lock held, and release it. -/
def consoleread [DecidableEq P] (p : P) (mem : St) (dst : Nat) (n : Int) :
    Pc → Instr (Input P) Unit Pc
  | .start => .act fun i => (i, .loop ⟨mem, i.takenBy p, []⟩)
  | .loop x => .act fun i =>
    if x.got.length < n then
      if i.r = i.w then (i, .blocked x) else (i.pop p, .took x i.peek)
    else (i, .ret x false)
  | .blocked x => .killed fun killed => if killed then .fail else .nap x
  | .nap x => .sleep () (.loop x)
  | .took x c => .act fun i =>
    if c = CTRL_D then
      if x.got ≠ [] then (i.unpop, .ret x false) else (i, .ret x true)
    else (i, .put x c)
  | .put x c => if x.lands dst then storeChar x dst c else .lose (.trapped x c)
  | .trapped x c => storeChar x dst c
  | .fail => .leave
  | .ret .. => .leave
  | _ => .halt

def instr [DecidableEq P] (p : P) : Call → Pc → Instr (Input P) Unit Pc
  | .intr chars => consoleintr chars
  | .read mem dst n => consoleread p mem dst n

abbrev Pool (P : Type) := State P (Input P) Unit Call Pc

def code [DecidableEq P] : Code P (Input P) Unit Call Pc where
  first := fun _ => .start
  instr := instr
  admits := fun _ _ _ => True

/-- The process that moves does not come to store a character in a page that is missing. -/
def spares (s : Pool P) : Label P Call → Bool
  | .move p =>
    match s.thread p with
    | some ⟨.read _ dst _, .put x _, _⟩ => x.lands dst
    | _ => true
  | _ => true

end Model

section Ring
variable {P : Type} {x : Input P} {c : UInt8} {p q : P}

/-- The committed bytes that nobody has taken are those between `r` and `w`, and the bytes
that are being edited follow. -/
structure Input.Sound (x : Input P) : Prop where
  between : ahead x.r x.w ≤ ahead x.r x.e
  bound : ahead x.r x.e ≤ INPUT_BUF
  stream : x.committed = x.taken.map Prod.snd ++ window x.buf x.r x.w

theorem Input.Sound.erase (sound : x.Sound) (more : x.e ≠ x.w) : x.erase.Sound := by
  have between := sound.between
  have bound := sound.bound
  have apart : ahead x.r x.w ≠ ahead x.r x.e := by
    intro same
    apply more
    rw [← add_ahead x.r x.e, ← same, add_ahead]
  have back : ahead x.r (x.e - 1) + 1 = ahead x.r x.e := ahead_prev (by omega)
  constructor
  · change ahead x.r x.w ≤ ahead x.r (x.e - 1)
    omega
  · change ahead x.r (x.e - 1) ≤ INPUT_BUF
    omega
  · exact sound.stream

theorem Input.Sound.store (sound : x.Sound) (room : ahead x.r x.e < INPUT_BUF) : (x.store c).Sound := by
  have between := sound.between
  have next : ahead x.r (x.e + 1) = ahead x.r x.e + 1 := ahead_next (by unfold INPUT_BUF at room; omega)
  constructor
  · change ahead x.r x.w ≤ ahead x.r (x.e + 1)
    omega
  · exact next.trans_le room
  · have kept : window (x.store c).buf x.r x.w = window x.buf x.r x.w :=
      window_write (by decide) between room c
    exact sound.stream.trans (by rw [← kept]; rfl)

theorem Input.Sound.commit (sound : x.Sound) : x.commit.Sound := by
  constructor
  · exact Nat.le_refl _
  · exact sound.bound
  · change x.committed ++ window x.buf x.w x.e = x.taken.map Prod.snd ++ window x.buf x.r x.e
    rw [sound.stream, List.append_assoc, window_append sound.between]

theorem Input.Sound.pop (sound : x.Sound) (some : x.r ≠ x.w) (p : P) : (x.pop p).Sound := by
  have between := sound.between
  have bound := sound.bound
  have ready := mt ahead_eq_zero.mp some
  have left : ahead (x.r + 1) x.w + 1 = ahead x.r x.w := ahead_of_next ready
  have rest : ahead (x.r + 1) x.e + 1 = ahead x.r x.e := ahead_of_next (by omega)
  constructor
  · change ahead (x.r + 1) x.w ≤ ahead (x.r + 1) x.e
    omega
  · change ahead (x.r + 1) x.e ≤ INPUT_BUF
    omega
  · have first : window x.buf x.r x.w = x.peek :: window x.buf (x.r + 1) x.w := window_pop some
    change x.committed = (x.taken ++ [(p, x.peek)]).map Prod.snd ++ window x.buf (x.r + 1) x.w
    rw [sound.stream, first, List.map_append, List.append_assoc]
    rfl

/-- What a character may do to the ring: edit behind `w`, or commit all there is. -/
structure Edits (x : Input P) (rest : List UInt8) (result : Input P × Pc) : Prop where
  sound : result.1.Sound
  taken : result.1.taken = x.taken
  grows : x.committed <+: result.1.committed
  next : result.2 = .chars rest ∨ result.2 = .killLine rest ∨ result.2 = .stir rest

theorem Input.Sound.add {rest : List UInt8} (sound : x.Sound) (room : ahead x.r x.e < INPUT_BUF) (c : UInt8) :
    Edits x rest (add x c rest) := by
  unfold ConsoleInput.add
  split_ifs with ends
  · exact ⟨(sound.store room).commit, rfl, List.prefix_append .., .inr (.inr rfl)⟩
  · exact ⟨sound.store room, rfl, List.prefix_refl _, .inl rfl⟩

theorem Input.Sound.edit {rest : List UInt8} (sound : x.Sound) (c : UInt8) :
    Edits x rest (edit x c rest) := by
  unfold ConsoleInput.edit
  split_ifs with listing line back more plain
  · exact ⟨sound, rfl, List.prefix_refl _, .inl rfl⟩
  · exact ⟨sound, rfl, List.prefix_refl _, .inr (.inl rfl)⟩
  · exact ⟨sound.erase more, rfl, List.prefix_refl _, .inl rfl⟩
  · exact ⟨sound, rfl, List.prefix_refl _, .inl rfl⟩
  · exact sound.add plain.2 _
  · exact sound.add plain.2 _
  · exact ⟨sound, rfl, List.prefix_refl _, .inl rfl⟩

theorem Input.unpop_pop (x : Input P) (p : P) : (x.pop p).unpop = x := by
  simp [Input.pop, Input.unpop]

variable [DecidableEq P]

end Ring

section Reads
variable {P : Type} [DecidableEq P] {x y : Input P} {p : P} {op : Call} {pc : Pc} {mem : St} {dst : Nat}
  {n : Int}

/-- A read that goes on: no more than it asked for, and nothing that ends it. -/
structure Reading (n : Int) (got : List UInt8) : Prop where
  short : (got.length : Int) ≤ max n 0
  mark : CTRL_D ∉ got
  line : NEWLINE ∉ got

/-- A read has stopped: at its length, at a newline, or at a `^D`. The mark is consumed by
a read that has got nothing; for any other it stays the next byte of the ring. -/
structure Stopped (x : Input P) (n : Int) (got : List UInt8) (eof : Bool) : Prop where
  short : (got.length : Int) ≤ max n 0
  mark : CTRL_D ∉ got
  line : NEWLINE ∉ got.dropLast
  reason : n ≤ got.length ∨ got.getLast? = some NEWLINE ∨ eof = true ∧ got = [] ∨
    got ≠ [] ∧ x.r ≠ x.w ∧ x.peek = CTRL_D

def marks (eof : Bool) : List UInt8 := if eof then [CTRL_D] else []

def Inside (p : P) (x : Input P) : Call → Pc → Prop
  | .intr _, .start | .intr _, .chars _ | .intr _, .killLine _ | .intr _, .stir _ | .intr _, .done => x.Sound
  | .read .., .start | .read .., .fail => x.Sound
  | .read _ _ n, .loop y | .read _ _ n, .blocked y | .read _ _ n, .nap y =>
    x.Sound ∧ x.takenBy p = y.base ++ y.got ∧ Reading n y.got
  | .read _ _ n, .took y c => ∃ z : Input P, x = z.pop p ∧ c = z.peek ∧ z.r ≠ z.w ∧ z.Sound ∧
      z.takenBy p = y.base ++ y.got ∧ Reading n y.got ∧ (y.got.length : Int) < n
  | .read _ _ n, .put y c => x.Sound ∧ x.takenBy p = y.base ++ (y.got ++ [c]) ∧ Reading n y.got ∧
      (y.got.length : Int) < n ∧ c ≠ CTRL_D
  | .read _ _ n, .ret y eof =>
    x.Sound ∧ x.takenBy p = y.base ++ y.got ++ marks eof ∧ Stopped x n y.got eof
  | _, _ => False

def Outside (p : P) (x : Input P) : Call → Pc → Prop
  | .intr _, .start | .read .., .start => True
  | .read _ _ n, .loop y => x.takenBy p = y.base ++ y.got ∧ Reading n y.got
  | _, _ => False

def reads (P : Type) [DecidableEq P] : Spec P (Input P) Unit Call Pc where
  inv := Input.Sound
  cond := fun _ _ => True
  owes := fun _ _ _ => False
  sleeps := fun _ _ => True
  apart := fun _ _ => True
  outside := fun p op pc x => Outside p x op pc
  inside := fun p op pc x => Inside p x op pc

theorem Inside.sound (inside : Inside p x op pc) : x.Sound := by
  cases op with
  | intr chars => cases pc <;> first | exact inside | exact inside.elim
  | read mem dst n =>
    cases pc with
    | start | fail => exact inside
    | loop | blocked | nap | put | ret => exact inside.1
    | took x c =>
      obtain ⟨y, rfl, _, some, sound, _⟩ := inside
      exact sound.pop some p
    | _ => exact inside.elim

instance (s : Pool P) (p : P) (op : Call) : Decidable (code.admits s p op) := isTrue trivial

end Reads

section Alone
variable {P : Type} [DecidableEq P] {s u : Pool P} {p : P} {mem : St} {dst : Nat} {n r : Int}
  {c t : Console} {x : Reader} {op : Call} {pc : Pc}

theorem release_unheld (free : c.held = false) :
    Sat release c (fun _ _ => False) (fun _ _ => True) := by
  rw [release, sat_bind, sat_get, free]
  trivial

theorem storeChar_unheld {dst : Nat} (char : UInt8)
    (messages : Sat (faultMessages dst) c (fun _ t => t.held = false) (fun _ _ => True)) :
    Sat (Xv6.storeChar dst char) c (fun _ t => t.held = false) (fun _ _ => True) := by
  rw [Xv6.storeChar]
  refine .bind messages fun _ t free => ?_
  rw [sat_bind, onSt, sat_zoom]
  exact (sat_self _ _).mono (fun _ _ _ => free) (fun _ _ _ => trivial)

theorem faultMessages_unheld (dst : Nat) (free : c.held = false) :
    Sat (faultMessages dst) c (fun _ t => t.held = false) (fun _ _ => True) := by
  have still : ∀ u : Console, u.held = false →
      Sat cprintf u (fun _ t => t.held = false) (fun _ _ => True) := by
    intro u free
    refine (cprintf_spec u).mono ?_ (fun _ _ stop => stop.elim)
    rintro _ t rfl
    simp [free]
  rw [faultMessages, sat_bind, sat_get]
  split
  · exact .bind (still c free) fun _ t free => still t free
  · exact free

/-- A process without the lock does not return from `consoleread`. -/
theorem consolereadLoop_unheld (target k dst : Nat) (free : c.held = false) :
    Sat (consolereadLoop target k dst []) c (fun _ _ => False) (fun _ _ => True) := by
  have panics : ∀ (u : Console) (r : Int), u.held = false →
      Sat (do release; return r) u (fun _ _ => False) (fun _ _ => True) := fun u r free =>
    .bind (release_unheld free) fun _ _ none => none.elim
  induction k generalizing c dst with
  | zero => exact panics c _ free
  | succ k ih =>
    rw [consolereadLoop, awaitInput]
    simp only [sat_bind, sat_get]
    split
    · rw [sat_pure]
      dsimp only
      rw [sat_bind, sat_get, sat_bind, sat_modify]
      split
      · split
        · rw [sat_bind, sat_modify]
          exact panics _ _ free
        · exact panics _ _ free
      · refine .bind (storeChar_unheld _ (faultMessages_unheld dst free)) fun _ u free => ?_
        split
        · exact panics u _ free
        · exact ih _ free
    · split
      · exact .bind (release_unheld free) fun _ _ none => none.elim
      · exact .bind (release_unheld free) fun _ _ none => none.elim

/-- The messages of the page fault release the lock, and nothing returns. -/
theorem fault_unreturned {dst : Nat} (absent : ¬ c.Present dst) (locking : c.locking = true)
    (char : UInt8) (target k : Nat) :
    Sat (do
      Xv6.storeChar dst char
      if char = NEWLINE then
        release
        return (target : Int) - k
      else consolereadLoop target k (uint (dst + 1)) []) c (fun _ _ => False) (fun _ _ => True) := by
  have messages : Sat (faultMessages dst) c (fun _ t => t.held = false) (fun _ _ => True) := by
    refine (faultMessages_absent absent locking).mono ?_ (fun _ _ no => no.elim)
    rintro _ t rfl
    rfl
  refine .bind (storeChar_unheld _ messages) fun _ u free => ?_
  split
  · exact .bind (release_unheld free) fun _ _ none => none.elim
  · exact consolereadLoop_unheld _ _ _ free

/-- The process that `c` describes is at the loop of `consoleread`, with the lock. -/
structure Mirrors (c : Console) (s : Pool P) (p : P) (op : Call) (x : Reader) : Prop where
  here : s.thread p = some ⟨op, .loop x, .inside⟩
  mem : c.st = x.mem
  input : c.input = window s.shared.buf s.shared.r s.shared.w
  held : c.held = true
  locking : c.locking = true
  alive : c.killed = false

/-- The process can come to return `r`, with the memory and the input of `t`. -/
def Returns (s : Pool P) (p : P) (op : Call) (r : Int) (t : Console) : Prop :=
  ∃ es y eof u, Run code.Step s es u ∧ u.thread p = some ⟨op, .ret y eof, .inside⟩ ∧
    r = y.got.length ∧ t.st = y.mem ∧ t.input = window u.shared.buf u.shared.r u.shared.w

/-- An action of the process inside its call. -/
theorem act_step {f : Input P → Input P × Pc} {pc' : Pc} {i : Input P}
    (here : s.thread p = some ⟨op, pc, .inside⟩) (acts : instr p op pc = .act f)
    (result : f s.shared = (i, pc')) :
    ∃ u : Pool P, code.Step s (.move p) u ∧ u.thread p = some ⟨op, pc', .inside⟩ ∧ u.shared = i := by
  refine ⟨{ s.put p (some ⟨op, pc', .inside⟩) with shared := i }, ?_, Function.update_self .., rfl⟩
  simp only [Code.Step, State.move, here, code, acts, State.exec, result]

theorem Returns.step {e : Label P Call} (step : code.Step s e u) (later : Returns u p op r t) :
    Returns s p op r t := by
  obtain ⟨es, y, eof, v, run, rest⟩ := later
  exact ⟨_, y, eof, v, .next step run, rest⟩

theorem Returns.ret {y : Reader} {eof : Bool} (here : s.thread p = some ⟨op, .ret y eof, .inside⟩)
    (count : r = y.got.length) (mem : t.st = y.mem)
    (input : t.input = window s.shared.buf s.shared.r s.shared.w) : Returns s p op r t :=
  ⟨[], y, eof, s, .refl s, here, count, mem, input⟩

/-- A mark ends the read, and goes back unless it comes first. -/
theorem mark_alone {k : Nat} {i : Input P} (count : x.got.length + (k + 1) = n.toNat)
    (here : s.thread p = some ⟨.read mem dst n, .took x i.peek, .inside⟩)
    (popped : s.shared = i.pop p) (some : i.r ≠ i.w) (mark : i.peek = CTRL_D) (same : c.st = x.mem)
    (input : c.input = window i.buf (i.r + 1) i.w) (held : c.held = true) :
    Sat (do
      if k + 1 < n.toNat then
        modify fun s => { s with input := i.peek :: s.input }
      release
      return (n.toNat : Int) - (k + 1)) c (Returns s p (.read mem dst n)) (fun _ _ => True) := by
  by_cases first : x.got = []
  · rw [if_neg (by simp [first] at count; omega)]
    refine .seq (release_spec _ held) ?_ (fun _ _ _ => trivial)
    rintro _ t rfl
    obtain ⟨u, step, here, same'⟩ := act_step here rfl
      ((if_pos mark).trans (if_neg (not_not.mpr first)))
    refine .step step (.ret here (by omega) same ?_)
    rw [same', popped]
    exact input
  · have some' : 0 < x.got.length := List.length_pos_iff.mpr first
    rw [if_pos (by omega), sat_bind, sat_modify]
    refine .seq (release_spec _ held) ?_ (fun _ _ _ => trivial)
    rintro _ t rfl
    obtain ⟨u, step, here, same'⟩ := act_step here rfl ((if_pos mark).trans (if_pos first))
    refine .step step (.ret here (by omega) same ?_)
    rw [same', popped, Input.unpop_pop]
    exact (congrArg _ input).trans (window_pop some).symm

theorem consolereadLoop_alone {k : Nat} (count : x.got.length + k = n.toNat)
    (mirrors : Mirrors c s p (.read mem dst n) x) :
    Sat (consolereadLoop n.toNat k (x.place dst) []) c (Returns s p (.read mem dst n))
      (fun _ _ => True) := by
  induction k generalizing c s x with
  | zero =>
    rw [consolereadLoop]
    refine .seq (release_spec c mirrors.held) ?_ (fun _ _ _ => trivial)
    rintro _ t rfl
    obtain ⟨u, step, here, same⟩ := act_step mirrors.here rfl (if_neg (by omega))
    exact .step step (.ret here (by omega) mirrors.mem (by rw [same]; exact mirrors.input))
  | succ k ih =>
    rw [consolereadLoop, awaitInput]
    simp only [sat_bind, sat_get]
    by_cases empty : s.shared.r = s.shared.w
    · have none : c.input = [] := by rw [mirrors.input, empty, window_self]
      rw [if_neg (by simp [none]), if_neg (by simp [mirrors.alive]), sat_bind]
      exact (release_spec c mirrors.held).mono (fun _ _ _ => trivial) (fun _ _ _ => trivial)
    have input := mirrors.input.trans (window_pop empty)
    have head : c.input.headD 0 = s.shared.peek := by
      rw [input]
      rfl
    have tail : c.input.tail = window s.shared.buf (s.shared.r + 1) s.shared.w := by
      rw [input]
      rfl
    rw [if_pos (by simp [input]), sat_pure]
    dsimp only
    rw [sat_bind, sat_get, sat_bind, sat_modify, head]
    -- Both take the character at `r`.
    obtain ⟨s₁, step₁, here₁, same₁⟩ := act_step mirrors.here rfl
      ((if_pos (by omega)).trans (if_neg empty))
    by_cases mark : s.shared.peek = CTRL_D
    · rw [if_pos mark]
      exact (mark_alone (c := { c with input := c.input.tail }) count here₁ same₁ empty mark
        mirrors.mem tail mirrors.held).imp fun r t later => .step step₁ later
    · rw [if_neg mark]
      obtain ⟨s₂, step₂, here₂, same₂⟩ := act_step here₁ rfl (if_neg mark)
      obtain ⟨d, is⟩ : ∃ d : Console, d = { c with input := c.input.tail } := ⟨_, rfl⟩
      have same : d.st = x.mem := by rw [is]; exact mirrors.mem
      change Sat _ { c with input := c.input.tail } _ _
      rw [← is]
      by_cases lands : x.lands dst = true
      · -- The page is present, so both store the character with the lock.
        have here : d.Present (x.place dst) := by
          rw [Console.Present, same]
          exact (resident_iff _ _).mp lands
        obtain ⟨_, m, run, _⟩ := Sat.returns (store_present here s.shared.peek)
        rw [same] at run
        have stored : x.stored dst s.shared.peek = some ⟨m, x.base, x.got ++ [s.shared.peek]⟩ := by
          rw [Reader.stored, run]
        have next : instr p (.read mem dst n) (.put x s.shared.peek) = .act fun i : Input P =>
            (i, if s.shared.peek = NEWLINE then .ret ⟨m, x.base, x.got ++ [s.shared.peek]⟩ false
              else .loop ⟨m, x.base, x.got ++ [s.shared.peek]⟩) := by
          rw [instr, consoleread, if_pos lands, storeChar, stored]
        have long : (x.got ++ [s.shared.peek]).length = x.got.length + 1 := by simp
        rw [sat_bind, Xv6.storeChar]
        refine .seq (faultMessages_present here) ?_ (fun _ _ no => no.elim)
        rintro _ _ rfl
        rw [sat_bind, onSt, sat_zoom, same, Sat, run]
        dsimp only
        rw [copy, sat_modify]
        by_cases newline : s.shared.peek = NEWLINE
        · rw [if_pos newline]
          obtain ⟨s₃, step₃, here₃, same₃⟩ := act_step here₂ next (congrArg _ (if_pos newline))
          refine .seq (release_spec _ (by rw [is]; exact mirrors.held)) ?_ (fun _ _ _ => trivial)
          rintro _ t rfl
          refine .step step₁ (.step step₂ (.step step₃ (.ret here₃ (by rw [long]; omega) rfl ?_)))
          rw [same₃, same₂, same₁, is]
          exact tail
        · rw [if_neg newline]
          obtain ⟨s₃, step₃, here₃, same₃⟩ := act_step here₂ next (congrArg _ (if_neg newline))
          have place : uint (x.place dst + 1) =
              Reader.place ⟨m, x.base, x.got ++ [s.shared.peek]⟩ dst := by
            simp only [Reader.place, long, uint]
            omega
          rw [place]
          refine (ih (s := s₃) (by rw [long]; omega) ⟨here₃, rfl, ?_, ?_, ?_, ?_⟩).imp
            fun r t later => .step step₁ (.step step₂ (.step step₃ later))
          · rw [same₃, same₂, same₁, is]
            exact tail
          · rw [is]
            exact mirrors.held
          · rw [is]
            exact mirrors.locking
          · rw [is]
            exact mirrors.alive
      · have absent : ¬ d.Present (x.place dst) := by
          rw [Console.Present, same]
          exact fun here => lands ((resident_iff _ _).mpr here)
        exact (fault_unreturned absent (by rw [is]; exact mirrors.locking) _ _ _).imp
          fun _ _ none => none.elim

/-- What the console of one process returns, the process can return among others: when it has
the memory of `c`, and the input of `c` is the committed input. -/
theorem consoleread_alone (free : c.held = false) (locking : c.locking = true)
    (alive : c.killed = false) (word : dst < 2 ^ 32)
    (here : s.thread p = some ⟨.read c.st dst n, .start, .enter⟩) (unlocked : s.lock = none)
    (input : c.input = window s.shared.buf s.shared.r s.shared.w) :
    Sat (Xv6.consoleread dst n []) c (Returns s p (.read c.st dst n)) (fun _ _ => True) := by
  obtain ⟨s₁, step₁, here₁, same₁⟩ : ∃ u : Pool P, code.Step s (.move p) u ∧
      u.thread p = some ⟨.read c.st dst n, .start, .inside⟩ ∧ u.shared = s.shared := by
    refine ⟨{ s.put p (some ⟨.read c.st dst n, .start, .inside⟩) with lock := some p }, ?_,
      Function.update_self .., rfl⟩
    simp [Code.Step, State.move, here, unlocked]
  obtain ⟨s₂, step₂, here₂, same₂⟩ := act_step here₁ rfl rfl
  rw [Xv6.consoleread]
  refine .seq (acquire_spec c free) ?_ (fun _ _ _ => trivial)
  rintro _ d rfl
  have start : Reader.place ⟨c.st, s₁.shared.takenBy p, []⟩ dst = dst := Nat.mod_eq_of_lt word
  have loop := consolereadLoop_alone (k := n.toNat) (c := { c with held := true }) (Nat.zero_add _)
    ⟨here₂, rfl, by rw [same₂, same₁]; exact input, rfl, locking, alive⟩
  rw [start] at loop
  exact loop.imp fun r t later => .step step₁ (.step step₂ later)

end Alone
end Xv6.ConsoleInput
