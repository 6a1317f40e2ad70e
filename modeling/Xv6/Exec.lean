import Xv6.Crypt

/-! `exec.c`, with `loaduvm` and `copyout`. The argument strings and the path are
in the memory of the process that calls `exec`, so reading them may take page
faults, and a fault that cannot be served ends the process there and then. -/
namespace Xv6
open PteBit

abbrev MAXARG : Nat := 32

/-- A regular file, as `readi` sees it. -/
structure Inode where
  data : List UInt8

/-- The bytes `readi` delivers, or nothing when it returns -1. -/
def readi (ip : Inode) (off n : Nat) : Option (List UInt8) :=
  if off > ip.data.length ∨ uint (off + n) < off then none
  else some ((ip.data.drop off).take n)

/-- The little-endian number in `n` bytes at `off`. -/
def le (bs : List UInt8) (off : Nat) : Nat → Nat
  | 0 => 0
  | n + 1 => (bs.getD off 0).toNat + 256 * le bs (off + 1) n

structure ElfHdr where
  magic : Nat
  entry : Nat
  phoff : Nat
  phnum : Nat

def ElfHdr.parse (bs : List UInt8) : ElfHdr := ⟨le bs 0 4, le bs 24 4, le bs 28 4, le bs 44 2⟩

structure ProgHdr where
  type : Nat
  off : Nat
  vaddr : Nat
  filesz : Nat
  memsz : Nat

def ProgHdr.parse (bs : List UInt8) : ProgHdr :=
  ⟨le bs 0 4, le bs 4 4, le bs 8 4, le bs 16 4, le bs 20 4⟩

abbrev ELF_MAGIC : Nat := 0x464C457F
abbrev ELF_PROG_LOAD : Nat := 1

/-- Copy bytes to the start of a frame. -/
def Phys.blit (m : Phys) (frame : Nat) (bs : List UInt8) : Phys :=
  m.write frame fun k => bs.getD k.val (m.bytes frame k)

/-- The loop of `loaduvm` from byte `i` on, with the number of pages left. -/
def loaduvmLoop (d : PgDir) (addr : Nat) (ip : Inode) (off sz : Nat) : Nat → Nat → M Bool
  | 0, _ => return true
  | k + 1, i => do
    match walkpgdir d (uint (addr + i)) with
    | none => throw (.panic "loaduvm: address should exist")
    | some pte =>
      let n := min (sz - i) PGSIZE
      match readi ip (uint (off + i)) n with
      | none => return false
      | some bs =>
        modify fun m => m.blit pte.ppn bs
        if bs.length ≠ n then
          return false
        else loaduvmLoop d addr ip off sz k (i + PGSIZE)

def loaduvm (d : PgDir) (addr : Nat) (ip : Inode) (off sz : Nat) : M Bool := do
  if addr % PGSIZE ≠ 0 then
    throw (.panic "loaduvm: addr must be page aligned")
  else loaduvmLoop d addr ip off sz ((sz + PGSIZE - 1) / PGSIZE) 0

/-- The program-header loop of `exec`, with the number of headers left: the size
reached, or nothing when it jumps to `bad`. -/
def execLoad (ip : Inode) : Nat → Nat → Nat → PgDir → M (Option Nat × PgDir)
  | 0, _, sz, d => return (some sz, d)
  | n + 1, off, sz, d => do
    match readi ip off 32 with
    | none => return (none, d)
    | some bs =>
      if bs.length ≠ 32 then
        return (none, d)
      else
        let ph := ProgHdr.parse bs
        if ph.type ≠ ELF_PROG_LOAD then
          execLoad ip n (uint (off + 32)) sz d
        else if ph.memsz < ph.filesz then
          return (none, d)
        else if uint (ph.vaddr + ph.memsz) < ph.vaddr then
          return (none, d)
        else
          let (sz, d) ← allocuvm d sz (uint (ph.vaddr + ph.memsz))
          if sz = 0 then
            return (none, d)
          else if ph.vaddr % PGSIZE ≠ 0 then
            return (none, d)
          else if ← loaduvm d ph.vaddr ip ph.off ph.filesz then
            execLoad ip n (uint (off + 32)) sz d
          else return (none, d)

/-- `strlen` of a user string, reading from its `n`-th byte on. -/
def strlenLoop [NullPte] (s : Nat) : Nat → Nat → K Nat
  | 0, _ => throw .spin
  | fuel + 1, n => do
    if (← load false (uint (s + n))) = 0 then
      return n
    else strlenLoop s fuel (n + 1)

def strlen [NullPte] (s : Nat) : K Nat := strlenLoop s (2 ^ 32) 0

/-- `memmove` into a frame, from the `i`-th byte of the source on. -/
def moveLoop (src : Nat → K UInt8) (frame va : Nat) : Nat → Nat → K Unit
  | 0, _ => return ()
  | n + 1, i => do
    let b ← src i
    modify fun s => { s with phys := s.phys.poke frame va b }
    moveLoop src frame (va + 1) n (i + 1)

/-- Four little-endian bytes. -/
def leBytes (w : Nat) : List UInt8 :=
  [w.toUInt8, (w / 2 ^ 8).toUInt8, (w / 2 ^ 16).toUInt8, (w / 2 ^ 24).toUInt8]

/-- A byte of an entry is overwritten. -/
def Pte.poke (pte : Pte) (k : Nat) (b : UInt8) : Pte := .ofWord (le ((leBytes pte.word).set k b) 0 4)

/-- A byte is stored in a frame that may hold a page table. -/
def PgDir.poke (d : PgDir) (frame va : Nat) (b : UInt8) : PgDir :=
  { d with tabs := fun i => (d.tabs i).map fun t =>
      if t.frame = frame then
        { t with ptes := Function.update t.ptes (slot va / 4) ((t.ptes (slot va / 4)).poke (slot va % 4) b) }
      else t }

/-- `memmove` into a frame that was not taken from a page table, but from behind the null
pointer: it may hold a page table of the process. -/
def strayLoop (src : Nat → K UInt8) (frame va : Nat) : Nat → Nat → K Unit
  | 0, _ => return ()
  | n + 1, i => do
    let b ← src i
    modify fun s =>
      ⟨s.phys.poke frame va b, { s.proc with pgdir := s.proc.pgdir.poke frame va b }⟩
    strayLoop src frame (va + 1) n (i + 1)

/-- The `memmove` of `copyout`. -/
def moveOut (d : PgDir) (src : Nat → K UInt8) (frame va n i : Nat) : K Unit :=
  match walkpgdir d (pgRoundDown va) with
  | some _ => moveLoop src frame va n i
  | none => strayLoop src frame va n i

/-- The loop of `copyout`; `i` counts the bytes of the source already copied. -/
def copyoutLoop [NullPte] (d : PgDir) (src : Nat → K UInt8) : Nat → Nat → Nat → Nat → K Bool
  | 0, _, _, _ => throw .spin
  | fuel + 1, va, len, i => do
    if 0 < len then
      let va0 := pgRoundDown va
      match ← uva2ka d va0 with
      | none => return false
      | some pa0 =>
        let n := min (PGSIZE - (va - va0)) len
        moveOut d src pa0 va n i
        copyoutLoop d src fuel (uint (va0 + PGSIZE)) (len - n) (i + n)
    else return true

def copyout [NullPte] (d : PgDir) (va : Nat) (src : Nat → K UInt8) (len : Nat) : K Bool :=
  copyoutLoop d src (len / PGSIZE + 3) va len 0

/-- The argument loop of `exec`: the stack pointer and the string addresses, or
nothing when it jumps to `bad`. -/
def execArgs [NullPte] (d : PgDir) : List Nat → Nat → List Nat → K (Option (Nat × List Nat))
  | [], sp, args => return some (sp, args)
  | arg :: rest, sp, args => do
    if args.length ≥ MAXARG then
      return none
    else
      let sp := uint (sp + 2 ^ 32 - ((← strlen arg) + 1)) / 4 * 4
      let len := (← strlen arg) + 1
      if ← copyout d sp (fun i => load false (uint (arg + i))) len then
        execArgs d rest sp (args ++ [sp])
      else return none

/-- The words `exec` pushes below the argument strings. -/
def ustack (sp : Nat) (args : List Nat) : List Nat :=
  [0xffffffff, args.length, uint (sp + 2 ^ 32 - (args.length + 1) * 4)] ++ args ++ [0]

/-- A user string, read up to its end. -/
def loadStr [NullPte] (s : Nat) : Nat → Nat → K (List UInt8)
  | 0, _ => throw .spin
  | fuel + 1, n => do
    let c ← load false (uint (s + n))
    if c = 0 then
      return []
    else
      return c :: (← loadStr s fuel (n + 1))

/-- Where the last component of a path starts. -/
def lastElem (path : List UInt8) : Nat :=
  path.length - (path.reverse.takeWhile (· ≠ 47)).length

/-- `safestrcpy` from a user string, with the number of bytes it may still copy. -/
def safestrcpy [NullPte] (t : Nat) : Nat → K (List UInt8)
  | 0 => return []
  | n + 1 => do
    let c ← load false (uint t)
    if c = 0 then
      return []
    else
      return c :: (← safestrcpy (t + 1) n)

/-- `exec` from the point where the new page directory holds the program and the
two stack pages, up to the commitment. -/
def execStack [NullPte] (d : PgDir) (sz path : Nat) (argv : List Nat) :
    K (Option (Nat × List UInt8)) := do
  match ← execArgs d argv sz [] with
  | none => return none
  | some (sp, args) =>
    let words := ustack sp args
    let sp := uint (sp + 2 ^ 32 - (3 + args.length + 1) * 4)
    let bytes := words.flatMap leBytes
    if ← copyout d sp (fun i => return bytes.getD i 0) ((3 + args.length + 1) * 4) then
      let last := path + lastElem (← loadStr path (2 ^ 32) 0)
      return some (sp, ← safestrcpy last 15)
    else return none

/-- The commitment of `exec`: the process continues in the new image. -/
def execCommit [NullPte] (d : PgDir) (sz sp entry : Nat) (name : List UInt8) : K Unit := do
  let oldpgdir := (← get).proc.pgdir
  modifyProc fun p => { p with pgdir := d, sz := sz, eip := entry, esp := sp, name := name }
  switchuvm
  modifyProc fun p => { p with clock := fun _ => 0, head := 0 }
  let t : Int := sz / PGSIZE + if sz % PGSIZE ≠ 0 then 1 else 0
  let _ ← mencrypt 0 (t - 2)
  let _ ← mencrypt ((t - 1) * PGSIZE).toNat 1
  onPhys (freevm oldpgdir)

/-- `exec` once the header has been read: load the program into a new page
directory and switch to it. -/
def execImage [NullPte] (ip : Inode) (elf : ElfHdr) (path : Nat) (argv : List Nat) : K Int := do
  match ← onPhys setupkvm with
  | none => return -1
  | some d =>
    match ← onPhys (execLoad ip elf.phnum elf.phoff 0 d) with
    | (none, d) =>
      onPhys (freevm d)
      return -1
    | (some sz, d) =>
      let sz := pgRoundUp sz
      let (sz, d) ← onPhys (allocuvm d sz (uint (sz + 2 * PGSIZE)))
      if sz = 0 then
        onPhys (freevm d)
        return -1
      else
        let d ← onPhys (clearpteu d (sz - 2 * PGSIZE))
        match ← execStack d sz path argv with
        | none =>
          onPhys (freevm d)
          return -1
        | some (sp, name) =>
          execCommit d sz sp elf.entry name
          return 0

/-- `namei` stands for the file system: it maps a path to the file it names, and
is taken to read its path to the end. -/
def exec [NullPte] (namei : List UInt8 → Option Inode) (path : Nat) (argv : List Nat) : K Int := do
  modifyProc fun p => { p with head := 0 }
  match namei (← loadStr path (2 ^ 32) 0) with
  | none => return -1
  | some ip =>
    match readi ip 0 52 with
    | none => return -1
    | some bs =>
      if bs.length ≠ 52 then
        return -1
      else
        let elf := ElfHdr.parse bs
        if elf.magic ≠ ELF_MAGIC then
          return -1
        else execImage ip elf path argv

/-- The loop of `fetchstr` from address `s` on, with the number of bytes left
below the size. -/
def fetchstrLoop [NullPte] : Nat → Nat → K Bool
  | 0, _ => return false
  | n + 1, s => do
    if (← load false s) = 0 then
      return true
    else fetchstrLoop n (s + 1)

/-- Whether a string ends below the size of the process. -/
def fetchstr [NullPte] (addr : Nat) : K Bool := do
  let sz := (← get).proc.sz
  if addr ≥ sz then
    return false
  else fetchstrLoop (sz - addr) addr

def fetchint [NullPte] (addr : Nat) : K (Option Nat) := do
  let sz := (← get).proc.sz
  if addr ≥ sz ∨ uint (addr + 4) > sz then
    return none
  else
    let b₀ ← load false addr
    let b₁ ← load false (addr + 1)
    let b₂ ← load false (addr + 2)
    let b₃ ← load false (addr + 3)
    return some (le [b₀, b₁, b₂, b₃] 0 4)

/-- The argument loop of `sys_exec`, with the number of places left in `argv`. -/
def fetchArgs [NullPte] (uargv : Nat) : Nat → Nat → K (Option (List Nat))
  | 0, _ => return none
  | n + 1, i => do
    match ← fetchint (uint (uargv + 4 * i)) with
    | none => return none
    | some uarg =>
      if uarg = 0 then
        return some []
      else if ← fetchstr uarg then
        return (← fetchArgs uargv n (i + 1)).map (uarg :: ·)
      else return none

def sysExec [NullPte] (namei : List UInt8 → Option Inode) (path uargv : Nat) : K Int := do
  if ← fetchstr path then
    match ← fetchArgs uargv MAXARG 0 with
    | none => return -1
    | some argv => exec namei path argv
  else return -1

end Xv6
