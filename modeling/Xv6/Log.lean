import Xv6.Kalloc
import Xv6.Lib.Control
import Xv6.Lib.Words

/-! The log of the file system: `log.c`, over the buffers of `bio.c`. What the
routines do under `log.lock` is a computation on `struct log` alone; what they do
to the disk also goes through the buffers. -/
namespace Xv6

abbrev BSIZE : Nat := 512
abbrev MAXOPBLOCKS : Nat := 10
abbrev LOGSIZE : Nat := MAXOPBLOCKS * 3
abbrev FSSIZE : Nat := 1000

abbrev Block := Fin BSIZE → UInt8

/-- `struct log`. The header in memory is the list `lh.block[0..lh.n)`. -/
structure Log where
  start : Nat
  size : Int
  outstanding : Int
  committing : Bool
  lh : List Nat

abbrev G := EStateM Stop Log

/-- One turn of the loop of `begin_op`: the operation is admitted, or it sleeps. -/
def beginOp : G Bool := do
  let log ← get
  if log.committing then
    return false
  else if log.lh.length + (log.outstanding + 1) * MAXOPBLOCKS > LOGSIZE then
    return false
  else
    set { log with outstanding := log.outstanding + 1 }
    return true

/-- The tests of `log_write`, which it makes before it takes the lock. -/
def logWriteCheck : G Unit := do
  let log ← get
  if (log.lh.length : Int) ≥ LOGSIZE ∨ (log.lh.length : Int) ≥ log.size - 1 then
    throw (.panic "too big a transaction")
  else if log.outstanding < 1 then
    throw (.panic "log_write outside of trans")
  else return ()

/-- The header after `log_write` under the lock: a block that is there is absorbed. -/
def absorb (lh : List Nat) (blockno : Nat) : List Nat :=
  if blockno ∈ lh then lh else lh ++ [blockno]

def logWriteRecord (blockno : Nat) : G Unit :=
  modify fun log => { log with lh := absorb log.lh blockno }

def logWrite (blockno : Nat) : G Unit := do
  logWriteCheck
  logWriteRecord blockno

/-- The first part of `end_op`, under the lock: whether this process has to commit. -/
def endOp : G Bool := do
  modify fun log => { log with outstanding := log.outstanding - 1 }
  let log ← get
  if log.committing then
    throw (.panic "log.committing")
  else if log.outstanding = 0 then
    set { log with committing := true }
    return true
  else return false

/-- The last part of `end_op`, under the lock, when the commit is over. -/
def endCommit : G Unit := modify fun log => { log with committing := false }

/-- The disk, the buffers that hold a block, and the log. The power fails after
the given number of writes, if there is one. A buffer is only given up when it is
clean; it would be read from the disk again, so it is kept here. -/
structure Store where
  disk : Nat → Block
  cache : Nat → Option Block
  log : Log
  power : Option Nat

abbrev L := EStateM Stop Store

def onLog {α : Type} (m : G α) : L α := Control.zoom Store.log (fun s log => { s with log := log }) m

def bread (blockno : Nat) : L Block := do
  let s ← get
  match s.cache blockno with
  | some data => return data
  | none =>
    set { s with cache := Function.update s.cache blockno (some (s.disk blockno)) }
    return s.disk blockno

/-- Write the buffer of a block, with its new content, to the disk. -/
def bwrite (blockno : Nat) (data : Block) : L Unit := do
  let s ← get
  match s.power with
  | some 0 => throw .crash
  | power =>
    set { s with
      disk := Function.update s.disk blockno data
      cache := Function.update s.cache blockno (some data)
      power := power.map (· - 1) }

/-- `lh.n` in a header block: a negative number counts as none. -/
def headCount (data : Block) : Nat :=
  if Words.get data 0 < 2 ^ 31 then Words.get data 0 else 0

/-- A header block with the entries of `lh`; the rest of it stays as it was. -/
def headBlock (data : Block) (lh : List Nat) : Block :=
  Words.setRow (Words.set data 0 lh.length) 1 lh

def readHead : L Unit := do
  let buf ← bread (← get).log.start
  onLog (modify fun log => { log with lh := Words.getRow buf 1 (headCount buf) })

def writeHead : L Unit := do
  let log := (← get).log
  let buf ← bread log.start
  bwrite log.start (headBlock buf log.lh)

/-- The loop of `install_trans` over the entries from `tail` on. -/
def installLoop (start : Nat) : Nat → List Nat → L Unit
  | _, [] => return ()
  | tail, blockno :: rest => do
    let lbuf ← bread (start + tail + 1)
    let _ ← bread blockno
    bwrite blockno lbuf
    installLoop start (tail + 1) rest

def installTrans : L Unit := do
  let log := (← get).log
  installLoop log.start 0 log.lh

def clearHead : L Unit := onLog (modify fun log => { log with lh := [] })

def recoverFromLog : L Unit := do
  readHead
  installTrans
  clearHead
  writeHead

/-- The loop of `write_log` over the entries from `tail` on. -/
def writeLogLoop (start : Nat) : Nat → List Nat → L Unit
  | _, [] => return ()
  | tail, blockno :: rest => do
    let _ ← bread (start + tail + 1)
    let source ← bread blockno
    bwrite (start + tail + 1) source
    writeLogLoop start (tail + 1) rest

def writeLog : L Unit := do
  let log := (← get).log
  writeLogLoop log.start 0 log.lh

def commit : L Unit := do
  if (← get).log.lh ≠ [] then
    writeLog
    writeHead
    installTrans
    clearHead
    writeHead
  else return ()

/-- The file system changes a block in its buffer and logs it. -/
def modifyBlock (blockno : Nat) (data : Block) : L Unit := do
  let _ ← bread blockno
  modify fun s => { s with cache := Function.update s.cache blockno (some data) }
  onLog (logWrite blockno)

def modifyBlocks : List (Nat × Block) → L Unit
  | [] => return ()
  | (blockno, data) :: rest => do
    modifyBlock blockno data
    modifyBlocks rest

/-- An operation that changes the given blocks and commits them. -/
def transaction (writes : List (Nat × Block)) : L Unit := do
  if ← onLog beginOp then
    modifyBlocks writes
    if ← onLog endOp then
      commit
      onLog endCommit
    else return ()
  else throw .sleep

/-- The machine starts again from its disk. -/
def Store.boot (s : Store) (power : Option Nat) : Store where
  disk := s.disk
  cache := fun _ => none
  log := ⟨s.log.start, s.log.size, 0, false, []⟩
  power := power

/-- The machine starts and recovers, until the power fails. -/
def Store.recover (s : Store) (power : Option Nat) : Store := Control.final recoverFromLog (s.boot power)

end Xv6
