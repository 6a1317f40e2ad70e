import Mathlib.Data.List.FinRange
import Xv6.Lib.Ring
import Xv6.Log

/-! The buffer cache, `bio.c`: a fixed pool of buffers on a circular list, the most
recently used one first. What `bget` and `brelse` do under `bcache.lock` is one
computation; taking and giving back the lock of a buffer is another. -/
namespace Xv6

abbrev NBUF : Nat := MAXOPBLOCKS * 3
abbrev ROOTDEV : Nat := 1

/-- `bcache.head` or one of the buffers. -/
inductive Node where
  | head
  | buf (b : Fin NBUF)
  deriving DecidableEq

/-- `struct buf` without its links: the two bits of `flags`, and in `lock` the `pid`
of the process that has the sleeping lock. -/
structure Buf where
  valid : Bool
  dirty : Bool
  dev : Nat
  blockno : Nat
  refcnt : Nat
  lock : Option Nat
  data : Block

structure Bcache where
  buf : Fin NBUF → Buf
  links : Ring.Links Node

abbrev B := EStateM Stop Bcache

namespace Bcache

def setBuf (c : Bcache) (b : Fin NBUF) (buf : Buf) : Bcache :=
  { c with buf := Function.update c.buf b buf }

/-- Whether the block is in the buffer. -/
def has (c : Bcache) (dev blockno : Nat) : Node → Bool
  | .head => false
  | .buf b => (c.buf b).dev = dev ∧ (c.buf b).blockno = blockno

/-- Nobody uses the buffer, and `log.c` does not need it. -/
def unused (c : Bcache) : Node → Bool
  | .head => false
  | .buf b => (c.buf b).refcnt = 0 ∧ (c.buf b).dirty = false

end Bcache

def modifyBuf (b : Fin NBUF) (f : Buf → Buf) : B Unit := modify fun c => c.setBuf b (f (c.buf b))

def binit (c : Bcache) : Bcache where
  buf b := { c.buf b with lock := none }
  links := (List.finRange NBUF).foldl (fun links b => links.push .head (.buf b))
    ⟨Function.update c.links.next .head .head, Function.update c.links.prev .head .head⟩

/-- The second loop of `bget`: a buffer for a block that is in none. -/
def bgetRecycle (dev blockno : Nat) : B (Fin NBUF) := do
  let c ← get
  match Ring.seek c.links.prev .head c.unused (NBUF + 1) (c.links.prev .head) with
  | some (some (.buf b)) =>
    modifyBuf b fun buf =>
      { buf with dev := dev, blockno := blockno, valid := false, dirty := false, refcnt := 1 }
    return b
  | some _ => throw (.panic "bget: no buffers")
  | none => throw .spin

/-- `bget` up to the point where it takes the lock of the buffer. -/
def bget (dev blockno : Nat) : B (Fin NBUF) := do
  let c ← get
  match Ring.seek c.links.next .head (c.has dev blockno) (NBUF + 1) (c.links.next .head) with
  | some (some (.buf b)) =>
    modifyBuf b fun buf => { buf with refcnt := buf.refcnt + 1 }
    return b
  | some _ => bgetRecycle dev blockno
  | none => throw .spin

def acquiresleep (pid : Nat) (b : Fin NBUF) : B Unit := do
  match ((← get).buf b).lock with
  | some _ => throw .sleep
  | none => modifyBuf b fun buf => { buf with lock := some pid }

/-- `brelse` up to `releasesleep`. -/
def brelseUnlock (pid : Nat) (b : Fin NBUF) : B Unit := do
  if ((← get).buf b).lock ≠ some pid then
    throw (.panic "brelse")
  else
    modifyBuf b fun buf => { buf with lock := none }

/-- The rest of `brelse`, under `bcache.lock`. -/
def brelseDrop (b : Fin NBUF) : B Unit := do
  modifyBuf b fun buf => { buf with refcnt := buf.refcnt - 1 }
  if ((← get).buf b).refcnt = 0 then
    modify fun c => { c with links := (c.links.unlink (.buf b)).push .head (.buf b) }
  else return ()

end Xv6
