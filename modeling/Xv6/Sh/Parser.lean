import Xv6.Kalloc

/-! The parser of the shell. It moves one pointer over the line and keeps of each word the
pointers to its first character and behind its last one; when the whole line has been read
`nulterminate` writes a NUL behind every word. Memory is the list of bytes from the start
of the line on, and pointers are offsets into it. -/
namespace Xv6.Sh

def MAXARGS : Nat := 10
def O_RDONLY : Nat := 0x000
def O_WRONLY : Nat := 0x001
def O_CREATE : Nat := 0x200

/-- The characters of a C string, without its NUL. -/
def chars (cs : List Char) : List UInt8 := cs.map Char.toUInt8

def whitespace : List UInt8 := chars [' ', '\t', '\r', '\n', '\x0b']
def symbols : List UInt8 := chars ['<', '|', '>', '&', ';', '(', ')']

/-- `strchr(s, c) != 0`. -/
def strchr (s : List UInt8) (c : UInt8) : Bool := s.contains c

/-- `*s`. -/
def byte (mem : List UInt8) (s : Nat) : UInt8 := mem.getD s 0

/-- The characters before the first NUL. -/
def line (mem : List UInt8) : List UInt8 := mem.takeWhile (· ≠ 0)

def strlen (mem : List UInt8) : Nat := (line mem).length

/-- The C string at `q`. -/
def cString (mem : List UInt8) (q : Nat) : List UInt8 := line (mem.drop q)

/-- The pointers `q` and `eq` of a word. -/
structure Span where
  q : Nat
  eq : Nat
  deriving DecidableEq, Repr

/-- A parsed command, with words of type `S`. -/
inductive Cmd (S : Type) where
  | exec (argv : List S)
  | redir (cmd : Cmd S) (file : S) (mode fd : Nat)
  | pipe (left right : Cmd S)
  | list (left right : Cmd S)
  | back (cmd : Cmd S)
  deriving DecidableEq, Repr

namespace Cmd
variable {S T : Type}

def map (f : S → T) : Cmd S → Cmd T
  | exec argv => exec (argv.map f)
  | redir cmd file mode fd => redir (cmd.map f) (f file) mode fd
  | pipe left right => pipe (left.map f) (right.map f)
  | list left right => list (left.map f) (right.map f)
  | back cmd => back (cmd.map f)

/-- The words of a command. -/
def words : Cmd S → List S
  | exec argv => argv
  | redir cmd file _ _ => cmd.words ++ [file]
  | pipe left right => left.words ++ right.words
  | list left right => left.words ++ right.words
  | back cmd => cmd.words

/-- `cmd->argv[argc] = q; cmd->eargv[argc] = eq`. The pointer `cmd` is to the `execcmd`
below the redirections that have been put around it. -/
def addArg (word : S) : Cmd S → Cmd S
  | exec argv => exec (argv ++ [word])
  | redir cmd file mode fd => redir (cmd.addArg word) file mode fd
  | cmd => cmd

end Cmd

/-- A parsing routine. The state is the pointer `*ps`. -/
abbrev Parser := EStateM Stop Nat

variable (mem : List UInt8) (es : Nat)

/-- `while(s < es && p(*s)) s++`, with the characters that are left. -/
def scanLoop (p : UInt8 → Bool) : Nat → Nat → Nat
  | 0, s => s
  | left + 1, s => if p (byte mem s) then scanLoop p left (s + 1) else s

def scan (p : UInt8 → Bool) (s : Nat) : Nat := scanLoop mem p (es - s) s

/-- A character that can stand in a word. -/
def wordChar (c : UInt8) : Bool := !strchr whitespace c && !strchr symbols c

/-- The switch of `gettoken`: the token at `s` and the pointer behind it. -/
def tokenAt (s : Nat) : UInt8 × Nat :=
  let c := byte mem s
  if c = 0 then (c, s)
  else if strchr (chars ['|', '(', ')', ';', '&', '<']) c then (c, s + 1)
  else if c = '>'.toUInt8 then
    if byte mem (s + 1) = '>'.toUInt8 then ('+'.toUInt8, s + 2) else (c, s + 1)
  else ('a'.toUInt8, scan mem es wordChar s)

def gettoken : Parser (UInt8 × Span) := do
  let q := scan mem es (strchr whitespace) (← get)
  let (ret, eq) := tokenAt mem es q
  set (scan mem es (strchr whitespace) eq)
  return (ret, ⟨q, eq⟩)

def peek (toks : List UInt8) : Parser Bool := do
  let s := scan mem es (strchr whitespace) (← get)
  set s
  return byte mem s ≠ 0 && strchr toks (byte mem s)

/-- The loop of `parseredirs`, as the other loops below, is run for as many rounds as `fuel`
says. -/
def parseredirs : Nat → Cmd Span → Parser (Cmd Span)
  | 0, _ => throw .spin
  | fuel + 1, cmd => do
    if ← peek mem es (chars ['<', '>']) then
      let (tok, _) ← gettoken mem es
      let (word, file) ← gettoken mem es
      if word ≠ 'a'.toUInt8 then throw (.panic "missing file for redirection")
      else if tok = '<'.toUInt8 then parseredirs fuel (.redir cmd file O_RDONLY 0)
      else if tok = '>'.toUInt8 then parseredirs fuel (.redir cmd file (O_WRONLY ||| O_CREATE) 1)
      else if tok = '+'.toUInt8 then parseredirs fuel (.redir cmd file (O_WRONLY ||| O_CREATE) 1)
      else parseredirs fuel cmd
    else return cmd

/-- The loop of `parseexec`. -/
def parseargs : Nat → Cmd Span → Nat → Parser (Cmd Span)
  | 0, _, _ => throw .spin
  | fuel + 1, ret, argc => do
    if ← peek mem es (chars ['|', ')', '&', ';']) then return ret
    else
      let (tok, word) ← gettoken mem es
      if tok = 0 then return ret
      else if tok ≠ 'a'.toUInt8 then throw (.panic "syntax")
      else if argc + 1 ≥ MAXARGS then throw (.panic "too many args")
      else
        let ret ← parseredirs mem es fuel (ret.addArg word)
        parseargs fuel ret (argc + 1)

/-- The loop of `parseline`. -/
def parsebacks : Nat → Cmd Span → Parser (Cmd Span)
  | 0, _ => throw .spin
  | fuel + 1, cmd => do
    if ← peek mem es (chars ['&']) then
      let _ ← gettoken mem es
      parsebacks fuel (.back cmd)
    else return cmd

mutual

def parseline : Nat → Parser (Cmd Span)
  | 0 => throw .spin
  | fuel + 1 => do
    let cmd ← parsepipe fuel
    let cmd ← parsebacks mem es fuel cmd
    if ← peek mem es (chars [';']) then
      let _ ← gettoken mem es
      let right ← parseline fuel
      return .list cmd right
    else return cmd

def parsepipe : Nat → Parser (Cmd Span)
  | 0 => throw .spin
  | fuel + 1 => do
    let cmd ← parseexec fuel
    if ← peek mem es (chars ['|']) then
      let _ ← gettoken mem es
      let right ← parsepipe fuel
      return .pipe cmd right
    else return cmd

def parseblock : Nat → Parser (Cmd Span)
  | 0 => throw .spin
  | fuel + 1 => do
    if ← peek mem es (chars ['(']) then
      let _ ← gettoken mem es
      let cmd ← parseline fuel
      if ← peek mem es (chars [')']) then
        let _ ← gettoken mem es
        parseredirs mem es fuel cmd
      else throw (.panic "syntax - missing )")
    else throw (.panic "parseblock")

def parseexec : Nat → Parser (Cmd Span)
  | 0 => throw .spin
  | fuel + 1 => do
    if ← peek mem es (chars ['(']) then parseblock fuel
    else
      let ret ← parseredirs mem es fuel (.exec [])
      parseargs mem es fuel ret 0

end

/-- A NUL is written behind every word of the command. -/
def nulterminate : Cmd Span → List UInt8 → List UInt8
  | .exec argv, mem => argv.foldl (fun mem word => mem.set word.eq 0) mem
  | .redir cmd file _ _, mem => (nulterminate cmd mem).set file.eq 0
  | .pipe left right, mem => nulterminate right (nulterminate left mem)
  | .list left right, mem => nulterminate right (nulterminate left mem)
  | .back cmd, mem => nulterminate cmd mem

/-- `parsecmd` gives the command and the memory in which its words are terminated. -/
def parsecmd (fuel : Nat) : Parser (Cmd Span × List UInt8) := do
  let es := strlen mem
  let cmd ← parseline mem es fuel
  let _ ← peek mem es []
  if (← get) ≠ es then throw (.panic "syntax")
  else return (cmd, nulterminate cmd mem)

end Xv6.Sh
