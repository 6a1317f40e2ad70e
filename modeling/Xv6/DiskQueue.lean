import Xv6.Lib.Monitor
import Xv6.Lib.Ring
import Xv6.Log

/-! The request queue of the disk driver: `iderw`, `idestart` and `ideintr` of `ide.c`.
The queue is the intrusive list that starts at `idequeue` and goes on through `qnext`.
Processes wait for their buffer on the buffer itself, behind `idelock`. The disk makes
no errors, and interrupts once for each command. -/
namespace Xv6.DiskQueue
open Monitor Transition
open Function (update)

section Model
variable {B D : Type}

/-- The fields of a buffer that the driver reads or writes. -/
structure Buf (D : Type) where
  valid : Bool
  dirty : Bool
  dev : Nat
  blockno : Nat
  data : D

/-- `(b->flags & (B_VALID|B_DIRTY)) == B_VALID` -/
def Buf.Synced (b : Buf D) : Prop := b.valid = true ∧ b.dirty = false

instance (b : Buf D) : Decidable b.Synced :=
  inferInstanceAs (Decidable (b.valid = true ∧ b.dirty = false))

/-- The driver, the buffers and the disk. `next none` is `idequeue` and `next (some b)` is
`b->qnext`. The last three fields record the requests in the order in which they were
put in the queue, in which commands were given to the disk, and in which they ended. -/
structure Ide (B D : Type) where
  next : Option B → Option B
  buf : B → Buf D
  havedisk1 : Bool
  disk : Nat → Nat → D
  queued : List B
  started : List B
  finished : List B

/-- What is still to be done. -/
def Ide.pending (x : Ide B D) : List B := x.queued.drop x.finished.length

/-- After `ideinit`: the queue is empty. -/
def Ide.init (links : Option B → Option B) (buf : B → Buf D) (havedisk1 : Bool) (disk : Nat → Nat → D)
    [DecidableEq B] : Ide B D :=
  ⟨update links none none, buf, havedisk1, disk, [], [], []⟩

/-- The caller has locked the buffer, and `buf` is what it holds at the call. -/
inductive Call (B D : Type) where
  | rw (b : B) (buf : Buf D)
  | intr

def Call.target : Call B D → Option B
  | .rw b _ => some b
  | .intr => none

/-- The points of the two routines. A request remembers its number in the queue. -/
inductive Pc (B : Type) where
  | start
  | walk (pp : Option B)
  | begin (k : Nat)
  | wait (k : Nat)
  | nap (k : Nat)
  | ret (k : Nat)
  | stir (b : B)
  | again
  | done
  | panic
deriving DecidableEq

variable [DecidableEq B]

/-- The command for a buffer, unless the kernel panics with "incorrect blockno". -/
def idestart (x : Ide B D) (b : B) : Option (Ide B D) :=
  let buf := x.buf b
  if buf.blockno ≥ FSSIZE then none
  else some { x with
    started := x.started ++ [b]
    disk := if buf.dirty then
        update x.disk (buf.dev % 2) (update (x.disk (buf.dev % 2)) buf.blockno buf.data)
      else x.disk }

/-- `b->qnext = 0`, with the buffer as its process has left it. -/
def Ide.take (x : Ide B D) (b : B) (buf : Buf D) : Ide B D :=
  { x with buf := update x.buf b buf, next := update x.next (some b) none }

/-- `*pp = b` -/
def Ide.link (x : Ide B D) (pp : Option B) (b : B) : Ide B D :=
  { x with next := update x.next pp (some b), queued := x.queued ++ [b] }

/-- `idequeue = b->qnext`, the data of a read, and the flags. -/
def Ide.finish (x : Ide B D) (b : B) : Ide B D :=
  let buf := x.buf b
  let data := if buf.dirty then buf.data else x.disk (buf.dev % 2) buf.blockno
  { x with
    next := update x.next none (x.next (some b))
    buf := update x.buf b { buf with data := data, valid := true, dirty := false }
    finished := x.finished ++ [b] }

/-- The tests before `acquire` are made behind it here: nobody else touches a buffer that
its process has locked and that is not in the queue. -/
def iderw (b : B) (buf : Buf D) : Pc B → Instr (Ide B D) B (Pc B)
  | .start => .act fun x =>
    if buf.Synced then (x, .panic)
    else if buf.dev ≠ 0 ∧ x.havedisk1 = false then (x, .panic)
    else (x.take b buf, .walk none)
  | .walk pp => .act fun x =>
    match x.next pp with
    | some c => (x, .walk (some c))
    | none => (x.link pp b, .begin x.queued.length)
  | .begin k => .act fun x =>
    if x.next none = some b then
      match idestart x b with
      | some y => (y, .wait k)
      | none => (x, .panic)
    else (x, .wait k)
  | .wait k => .act fun x => if (x.buf b).Synced then (x, .ret k) else (x, .nap k)
  | .nap k => .sleep b (.wait k)
  | .ret _ => .leave
  | _ => .halt

def ideintr : Pc B → Instr (Ide B D) B (Pc B)
  | .start => .act fun x =>
    match x.next none with
    | none => (x, .done)
    | some b => (x.finish b, .stir b)
  | .stir b => .wakeup b .again
  | .again => .act fun x =>
    match x.next none with
    | none => (x, .done)
    | some b =>
      match idestart x b with
      | some y => (y, .done)
      | none => (x, .panic)
  | .done => .leave
  | _ => .halt

def instr : Call B D → Pc B → Instr (Ide B D) B (Pc B)
  | .rw b buf => iderw b buf
  | .intr => ideintr

abbrev Pool (P B D : Type) := State P (Ide B D) B (Call B D) (Pc B)

variable {P : Type}

/-- Processes call `iderw` on buffers that nobody else has, and the disk interrupts when
a command is active and its interrupt has not been raised before. -/
def admits (s : Pool P B D) (_ : P) : Call B D → Prop
  | .rw b _ => ∀ q, ∀ t ∈ s.thread q, t.op.target ≠ some b
  | .intr => s.shared.finished.length < s.shared.started.length ∧
      ∀ q, ∀ t ∈ s.thread q, t.op.target = none → t.pc ≠ .start

def code : Code P (Ide B D) B (Call B D) (Pc B) where
  first := fun _ => .start
  instr := fun _ => instr
  admits := admits

end Model
end Xv6.DiskQueue
