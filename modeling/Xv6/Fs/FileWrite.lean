import Mathlib.Data.Finset.Card
import Xv6.Log

/-! `filewrite` on an inode, down to the calls of `log_write`: a long write is cut into
sections between `begin_op` and `end_op`, and each of them has to get by with the blocks
that the log reserves for an operation. -/
namespace Xv6.Fs
open Control
open Function (update)

abbrev NDIRECT : Nat := 12
abbrev NINDIRECT : Nat := BSIZE / 4
abbrev MAXFILE : Nat := NDIRECT + NINDIRECT
abbrev IPB : Nat := BSIZE / 64
abbrev BPB : Nat := BSIZE * 8
abbrev T_DEV : BitVec 16 := 3

structure Superblock where
  size : Nat
  inodestart : Nat
  bmapstart : Nat

def Superblock.iblock (sb : Superblock) (inum : Nat) : Nat := inum / IPB + sb.inodestart

def Superblock.bblock (sb : Superblock) (b : Nat) : Nat := b / BPB + sb.bmapstart

/-- `struct inode`: the copy in memory. -/
structure Inode where
  inum : Nat
  type : BitVec 16
  major : BitVec 16
  minor : BitVec 16
  nlink : BitVec 16
  size : Nat
  addrs : Nat → Nat

/-- The `struct dinode` of an inode, in words. -/
def Inode.words (ip : Inode) : List Nat :=
  [ip.type.toNat + 2 ^ 16 * ip.major.toNat, ip.minor.toNat + 2 ^ 16 * ip.nlink.toNat, ip.size] ++
    (List.range (NDIRECT + 1)).map ip.addrs

/-- What a write works on: the blocks as `bread` returns them, the inode and the offset of
the open file. `devsw` has the write functions of the devices. `logged` are the blocks of
the calls of `log_write` since `begin_op`, and `sections` those of the operations before. -/
structure State where
  sb : Superblock
  data : Nat → Block
  ip : Inode
  off : Nat
  devsw : BitVec 16 → Option ((Nat → UInt8) → Nat → Int)
  logged : List Nat
  sections : List (List Nat)

abbrev F := EStateM Stop State

/-- A buffer with new contents goes to `log_write`. -/
def logWrite (blockno : Nat) (data : Block) : F Unit :=
  modify fun s => { s with data := update s.data blockno data, logged := blockno :: s.logged }

def bzero (bno : Nat) : F Unit := logWrite bno fun _ => 0

/-- `bp->data[bi/8] |= m` -/
def mark (data : Block) (bi : Nat) : Block := fun k =>
  if k.val = bi / 8 then data k ||| (2 ^ (bi % 8)).toUInt8 else data k

/-- The two loops of `balloc` as one, from block `b` on. -/
def ballocLoop : Nat → Nat → F Nat
  | 0, _ => throw (.panic "balloc: out of blocks")
  | n + 1, b => do
    let s ← get
    let data := s.data (s.sb.bblock b)
    if (Words.byte data (b % BPB / 8)).testBit (b % BPB % 8) then ballocLoop n (b + 1)
    else
      logWrite (s.sb.bblock b) (mark data (b % BPB))
      bzero b
      return b

def balloc : F Nat := do
  let s ← get
  ballocLoop s.sb.size 0

/-- `ip->addrs[k]`, with a new block if there is none. -/
def ensureAddr (k : Nat) : F Nat := do
  let addr := (← get).ip.addrs k
  if addr = 0 then
    let addr ← balloc
    modify fun s => { s with ip := { s.ip with addrs := update s.ip.addrs k addr } }
    return addr
  else return addr

def bmap (bn : Nat) : F Nat := do
  if bn < NDIRECT then ensureAddr bn
  else if bn - NDIRECT < NINDIRECT then
    let table ← ensureAddr NDIRECT
    let addr := Words.get ((← get).data table) (bn - NDIRECT)
    if addr = 0 then
      let addr ← balloc
      logWrite table (Words.set ((← get).data table) (bn - NDIRECT) addr)
      return addr
    else return addr
  else throw (.panic "bmap: out of range")

def iupdate : F Unit := do
  let s ← get
  let blockno := s.sb.iblock s.ip.inum
  logWrite blockno (Words.setRow (s.data blockno) (16 * (s.ip.inum % IPB)) s.ip.words)

/-- `memmove(bp->data + k, src, m)` -/
def copyIn (data : Block) (k : Nat) (src : Nat → UInt8) (m : Nat) : Block := fun j =>
  if k ≤ j.val ∧ j.val < k + m then src (j.val - k) else data j

/-- The loop of `writei` with `n` bytes to go, which returns the offset behind them. A round
writes at least one byte. -/
def writeiLoop : Nat → (Nat → UInt8) → Nat → Nat → F Nat
  | 0, _, off, _ => return off
  | fuel + 1, src, off, n => do
    if n = 0 then return off
    else
      let blockno ← bmap (off / BSIZE)
      let m := min n (BSIZE - off % BSIZE)
      logWrite blockno (copyIn ((← get).data blockno) (off % BSIZE) src m)
      writeiLoop fuel (fun k => src (k + m)) (off + m) (n - m)

def writei (src : Nat → UInt8) (off n : Nat) : F Int := do
  let s ← get
  if s.ip.type = T_DEV then
    match s.devsw s.ip.major with
    | none => return -1
    | some write => return write src n
  else if off > s.ip.size ∨ uint (off + n) < off then return -1
  else if uint (off + n) > MAXFILE * BSIZE then return -1
  else
    let off ← writeiLoop n src off n
    if 0 < n ∧ off > (← get).ip.size then
      modify fun s => { s with ip := { s.ip with size := off } }
      iupdate
    return n

/-- The bytes that `filewrite` writes at a time. -/
def maxWrite : Nat := (MAXOPBLOCKS - 1 - 1 - 2) / 2 * 512

/-- A section of `filewrite` between `begin_op` and `end_op`. -/
def writeSection (src : Nat → UInt8) (n : Nat) : F Int := do
  let r ← writei src (← get).off n
  (if 0 < r then modify fun s => { s with off := uint (s.off + r.toNat) } else pure ())
  modify fun s => { s with sections := s.logged :: s.sections, logged := [] }
  return r

/-- The loop of `filewrite`, which returns `i`. Before the section that starts at byte `i`
other processes have changed the state to `others i`: it may find any file and bitmap. -/
def filewriteLoop (others : Nat → State → State) (src : Nat → UInt8) (n : Int) : Nat → Nat → F Nat
  | 0, i => return i
  | fuel + 1, i => do
    if i < n then
      let n1 := min (n - i).toNat maxWrite
      modify fun s => { others i s with sb := s.sb, logged := [], sections := s.sections }
      let r ← writeSection (fun k => src (i + k)) n1
      if r < 0 then return i
      else if r ≠ n1 then throw (.panic "short filewrite")
      else filewriteLoop others src n fuel (i + n1)
    else return i

/-- `filewrite` on a file with an inode. -/
def filewrite (others : Nat → State → State) (writable : Bool) (src : Nat → UInt8) (n : Int) : F Int := do
  if writable = false then return -1
  else
    let i ← filewriteLoop others src n n.toNat 0
    return if i = n then n else -1

/-- The blocks logged from `s` to `t` are the one of the bitmap and those in `X`. -/
structure Logs (s t : State) (X : List Nat) : Prop where
  sb : t.sb = s.sb
  sections : t.sections = s.sections
  blocks : ∀ b ∈ t.logged, b ∈ s.logged ∨ b = s.sb.bmapstart ∨ b ∈ X

namespace Logs
variable {s t u : State} {X Y : List Nat}

theorem refl (s : State) (X : List Nat) : Logs s s X := ⟨rfl, rfl, fun _ => .inl⟩

theorem trans (first : Logs s t X) (second : Logs t u Y) : Logs s u (X ++ Y) where
  sb := second.sb.trans first.sb
  sections := second.sections.trans first.sections
  blocks b logged := by
    rcases second.blocks b logged with before | bitmap | member
    · exact (first.blocks b before).imp_right (.imp_right (List.mem_append_left Y))
    · exact .inr (.inl (first.sb ▸ bitmap))
    · exact .inr (.inr (List.mem_append_right X member))

theorem mono (logs : Logs s t X) (within : X ⊆ Y) : Logs s t Y :=
  ⟨logs.sb, logs.sections, fun b logged => (logs.blocks b logged).imp_right (.imp_right (within ·))⟩

theorem write (logs : Logs s t X) {b : Nat} (allowed : b = s.sb.bmapstart ∨ b ∈ X) (data : Nat → Block) :
    Logs s { t with data := data, logged := b :: t.logged } X :=
  ⟨logs.sb, logs.sections, List.forall_mem_cons.mpr ⟨.inr allowed, logs.blocks⟩⟩

end Logs

section Calls
variable {s : State} (small : s.sb.size ≤ FSSIZE)
include small

/-- All bits of a small file system are in one block. -/
theorem balloc_logs : Sat balloc s (fun a t => Logs s t [a]) (fun _ t => Logs s t []) := by
  have loop : ∀ n b, b + n = s.sb.size →
      Sat (ballocLoop n b) s (fun a t => Logs s t [a]) (fun _ t => Logs s t []) := by
    intro n
    induction n with
    | zero => exact fun _ _ => .refl s []
    | succ n ih =>
      intro b range
      rw [ballocLoop, sat_bind, sat_get]
      dsimp only
      split
      · exact ih (b + 1) (by omega)
      · have bitmap : s.sb.bblock b = s.sb.bmapstart := by
          rw [Superblock.bblock, Nat.div_eq_of_lt (by simp only [FSSIZE, BPB, BSIZE] at *; omega), Nat.zero_add]
        rw [bitmap]
        exact ((Logs.refl s [b]).write (.inl rfl) _).write (.inr List.mem_cons_self) _
  exact loop _ 0 (Nat.zero_add _)

theorem ensureAddr_logs (k : Nat) :
    Sat (ensureAddr k) s (fun a t => Logs s t [a]) (fun _ t => Logs s t []) := by
  rw [ensureAddr, sat_bind, sat_get]
  dsimp only
  split
  · rw [sat_bind]
    exact (balloc_logs small).imp fun a t logs => ⟨logs.sb, logs.sections, logs.blocks⟩
  · exact .refl s _

/-- `bmap` logs the block it returns and the indirect block. -/
theorem bmap_logs (bn : Nat) :
    Sat (bmap bn) s (fun a t => ∃ i, Logs s t [i, a]) (fun _ t => ∃ i, Logs s t [i]) := by
  rw [bmap]
  split
  · exact (ensureAddr_logs small bn).mono (fun a t logs => ⟨a, logs.mono (by simp)⟩)
      fun _ t logs => ⟨0, logs.mono (by simp)⟩
  · split
    · rw [sat_bind]
      refine (ensureAddr_logs small NDIRECT).mono (fun i t first => ?_) fun _ t logs => ⟨0, logs.mono (by simp)⟩
      rw [sat_bind, sat_get]
      dsimp only
      split
      · rw [sat_bind]
        refine (balloc_logs (first.sb ▸ small)).mono (fun a u second => ?_)
          fun _ u second => ⟨i, first.trans second⟩
        exact ⟨i, (first.trans second).write (.inr List.mem_cons_self) _⟩
      · exact ⟨i, first.mono (by simp)⟩
    · exact ⟨0, .refl s _⟩

/-- A write that touches `k` blocks. -/
theorem writeiLoop_logs {fuel off n k : Nat} {src : Nat → UInt8}
    (range : n = 0 ∨ off % BSIZE + n ≤ BSIZE * k) :
    Sat (writeiLoop fuel src off n) s (fun _ t => ∃ X, X.length ≤ 2 * k ∧ Logs s t X)
      (fun _ t => ∃ X, X.length ≤ 2 * k ∧ Logs s t X) := by
  induction fuel generalizing s off n k src with
  | zero => exact ⟨[], Nat.zero_le _, .refl s []⟩
  | succ fuel ih =>
    rw [writeiLoop]
    split
    · exact ⟨[], Nat.zero_le _, .refl s []⟩
    simp only [BSIZE] at range ⊢
    obtain ⟨k, rfl⟩ : ∃ l, k = l + 1 := ⟨k - 1, by omega⟩
    rw [sat_bind]
    refine (bmap_logs small _).mono ?_ ?_
    · rintro a t ⟨i, logs⟩
      simp only [sat_bind, sat_get, logWrite, sat_modify]
      have wrote := logs.write (.inr (List.mem_cons_of_mem i List.mem_cons_self))
      refine (ih (k := k) (logs.sb ▸ small) (by simp only [BSIZE]; omega)).mono ?_ ?_
      all_goals
        rintro _ u ⟨X, length, rest⟩
        exact ⟨_, by simp; omega, (wrote _).trans rest⟩
    · rintro _ t ⟨i, logs⟩
      exact ⟨[i], by simp; omega, logs⟩

/-- The last block is the one of the inode. -/
theorem writei_logs (src : Nat → UInt8) (off : Nat) {n : Nat} (short : n ≤ maxWrite) :
    Sat (writei src off n) s (fun _ t => ∃ X, X.length ≤ 9 ∧ Logs s t X)
      (fun _ t => ∃ X, X.length ≤ 9 ∧ Logs s t X) := by
  have none : ∃ X, X.length ≤ 9 ∧ Logs s s X := ⟨[], by decide, .refl s []⟩
  have four : off % BSIZE + n ≤ BSIZE * 4 := by
    simp only [maxWrite, MAXOPBLOCKS, BSIZE] at short ⊢
    omega
  rw [writei, sat_bind, sat_get]
  split
  · split <;> exact none
  split
  · exact none
  split
  · exact none
  rw [sat_bind]
  refine (writeiLoop_logs small (.inr four)).mono ?_ ?_
  · rintro off' t ⟨X, length, logs⟩
    rw [sat_bind, sat_get]
    split
    · simp only [iupdate, logWrite, sat_bind, sat_get, sat_modify, sat_pure]
      have more := logs.trans (.refl t [t.sb.iblock t.ip.inum])
      exact ⟨_, by simp; omega, more.sb, more.sections,
        List.forall_mem_cons.mpr ⟨.inr (.inr List.mem_concat_self), more.blocks⟩⟩
    · exact ⟨X, by omega, logs⟩
  · rintro _ t ⟨X, length, logs⟩
    exact ⟨X, by omega, logs⟩

end Calls

/-- The sections so far and the calls since `begin_op` stay within the reserve of an operation. -/
def State.WithinLog (s : State) : Prop := ∀ l ∈ s.logged :: s.sections, l.toFinset.card ≤ MAXOPBLOCKS

/-- Between two sections of a write on a small file system. -/
structure Between (s : State) : Prop where
  small : s.sb.size ≤ FSSIZE
  within : s.WithinLog
  ended : s.logged = []

variable {s t : State}

theorem Between.logs {X : List Nat} (between : Between s) (logs : Logs s t X)
    (few : X.length ≤ 9) : t.WithinLog := by
  refine List.forall_mem_cons.mpr ⟨?_, logs.sections ▸ (List.forall_mem_cons.mp between.within).2⟩
  have among : t.logged.toFinset ⊆ (s.sb.bmapstart :: X).toFinset := by
    intro b logged
    have block := logs.blocks b (List.mem_toFinset.mp logged)
    rw [between.ended] at block
    simpa using block
  calc t.logged.toFinset.card ≤ (s.sb.bmapstart :: X).toFinset.card := Finset.card_le_card among
    _ ≤ (s.sb.bmapstart :: X).length := List.toFinset_card_le _
    _ ≤ MAXOPBLOCKS := Nat.succ_le_succ few

theorem writeSection_spec (between : Between s) (src : Nat → UInt8) {n : Nat}
    (short : n ≤ maxWrite) :
    Sat (writeSection src n) s (fun _ t => Between t) (fun _ t => t.WithinLog) := by
  rw [writeSection, sat_bind, sat_get, sat_bind]
  refine (writei_logs between.small src s.off short).mono ?_ ?_
  · rintro r t ⟨X, few, logs⟩
    have after : ({ t with sections := t.logged :: t.sections, logged := [] } : State).WithinLog :=
      List.forall_mem_cons.mpr ⟨Nat.zero_le _, between.logs logs few⟩
    split <;> exact ⟨logs.sb ▸ between.small, after, rfl⟩
  · rintro _ t ⟨X, few, logs⟩
    exact between.logs logs few

theorem filewriteLoop_spec (between : Between s) (others : Nat → State → State)
    (src : Nat → UInt8) (n : Int) (fuel i : Nat) :
    Sat (filewriteLoop others src n fuel i) s (fun _ t => Between t) (fun _ t => t.WithinLog) := by
  induction fuel generalizing s i with
  | zero => exact between
  | succ fuel ih =>
    rw [filewriteLoop]
    split
    · rw [sat_bind, sat_modify]
      have begun : Between { others i s with sb := s.sb, logged := [], sections := s.sections } :=
        ⟨between.small, between.ended ▸ between.within, rfl⟩
      refine .bind (writeSection_spec begun _ (min_le_right _ _)) fun r t after => ?_
      split
      · exact after
      split
      · exact after.within
      · exact ih after _
    · exact between

/-- Each section of `filewrite` calls `log_write` on at most `MAXOPBLOCKS` blocks, also one that
ends in a panic. -/
theorem filewrite_within_log (small : s.sb.size ≤ FSSIZE)
    (start : s.logged = [] ∧ s.sections = []) (others : Nat → State → State) (writable : Bool)
    (src : Nat → UInt8) (n : Int) :
    Sat (filewrite others writable src n) s (fun _ t => t.WithinLog) (fun _ t => t.WithinLog) := by
  have within : s.WithinLog := by simp [State.WithinLog, start.1, start.2]
  rw [filewrite]
  split
  · exact within
  · exact .bind (filewriteLoop_spec ⟨small, within, start.1⟩ others src n _ 0) fun _ _ done => done.within

/-- An empty file on a disk with the first 59 blocks in use. -/
def emptyFile : State where
  sb := ⟨FSSIZE, 32, 58⟩
  data := fun _ k => if k.val < 7 then 0xFF else if k.val = 7 then 7 else 0
  ip := ⟨2, 2, 0, 0, 1, 0, fun _ => 0⟩
  off := 0
  devsw := fun _ => none
  logged := []
  sections := []

theorem filewrite_empty_file :
    Sat (filewrite (fun _ s => s) true (fun _ => 1) 3000) emptyFile
      (fun _ t => t.WithinLog) (fun _ t => t.WithinLog) := by
  have small : emptyFile.sb.size ≤ FSSIZE := le_rfl
  exact filewrite_within_log small ⟨rfl, rfl⟩ _ _ _ _

end Xv6.Fs
