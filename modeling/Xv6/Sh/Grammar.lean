import Xv6.Sh.Parser

/-! The grammar of the shell, over the tokens of a line:

    line  := pipe '&'* (';' line)?
    pipe  := exec ('|' pipe)?
    exec  := '(' line ')' redir* | redir* (word redir*)*
    redir := ('<' | '>' | '>>') word

A command has fewer than `MAXARGS` words. -/
namespace Xv6.Sh

/-- The characters of a word. -/
abbrev Word := List UInt8

inductive Token where
  | word (w : Word)
  | bar | lparen | rparen | semi | amp | less | greater | append
  deriving DecidableEq, Repr

/-- The token as it is written. -/
def Token.text : Token → List UInt8
  | word w => w
  | bar => chars ['|']
  | lparen => chars ['(']
  | rparen => chars [')']
  | semi => chars [';']
  | amp => chars ['&']
  | less => chars ['<']
  | greater => chars ['>']
  | append => chars ['>', '>']

/-- The tokens of one character that begins no other token. -/
def singles : List Token := [.bar, .lparen, .rparen, .semi, .amp, .less]

def symbol (c : UInt8) : Option Token := singles.find? fun token => token.text = [c]

/-- The token that begins with `c` and what follows it. A word is as long as it can be. -/
def firstToken (c : UInt8) (cs : List UInt8) : Token × List UInt8 :=
  match symbol c with
  | some token => (token, cs)
  | none =>
    if c = '>'.toUInt8 then
      if cs.head? = some '>'.toUInt8 then (.append, cs.tail) else (.greater, cs)
    else (.word (c :: cs.takeWhile wordChar), cs.dropWhile wordChar)

theorem firstToken_length (c : UInt8) (cs : List UInt8) : (firstToken c cs).2.length ≤ cs.length := by
  unfold firstToken
  split
  · exact le_rfl
  · split
    · split
      · exact (List.length_tail ▸ Nat.sub_le _ _)
      · exact le_rfl
    · exact (List.dropWhile_sublist _).length_le

/-- The tokens of a line. -/
def tokens : List UInt8 → List Token
  | [] => []
  | c :: cs =>
    if strchr whitespace c then tokens cs
    else (firstToken c cs).1 :: tokens (firstToken c cs).2
termination_by cs => cs.length
decreasing_by
  · exact Nat.lt_succ_self _
  · exact Nat.lt_succ_of_le (firstToken_length c cs)

/-- The mode and the descriptor a redirection operator stands for. -/
def operator : Token → Option (Nat × Nat)
  | .less => some (O_RDONLY, 0)
  | .greater | .append => some (O_WRONLY ||| O_CREATE, 1)
  | _ => none

structure Redirection where
  file : Word
  mode : Nat
  fd : Nat
  deriving DecidableEq, Repr

/-- The command with redirections put around it one after the other. -/
def wrap (rs : List Redirection) (t : Cmd Word) : Cmd Word :=
  rs.foldl (fun t r => .redir t r.file r.mode r.fd) t

theorem wrap_append (rs qs : List Redirection) (t : Cmd Word) :
    wrap (rs ++ qs) t = wrap qs (wrap rs t) :=
  List.foldl_append

/-- `redir*`. -/
inductive Redirs : List Token → List Redirection → Prop where
  | nil : Redirs [] []
  | cons {op : Token} {mode fd : Nat} {ts : List Token} {rs : List Redirection} (file : Word) :
      operator op = some (mode, fd) → Redirs ts rs →
      Redirs (op :: .word file :: ts) (⟨file, mode, fd⟩ :: rs)

/-- `(word redir*)*`, with the words and the redirections. -/
inductive Args : List Token → List Word → List Redirection → Prop where
  | nil : Args [] [] []
  | cons {ts us : List Token} {rs qs : List Redirection} {ws : List Word} (w : Word) :
      Redirs ts rs → Args us ws qs → Args (.word w :: (ts ++ us)) (w :: ws) (rs ++ qs)

inductive Nonterminal where
  | line | pipe | exec
  deriving DecidableEq, Repr

/-- The nonterminal derives the tokens, with the command as its tree. -/
inductive Derives : Nonterminal → List Token → Cmd Word → Prop where
  | back {ts : List Token} {t : Cmd Word} (k : Nat) : Derives .pipe ts t →
      Derives .line (ts ++ List.replicate k .amp) (Cmd.back^[k] t)
  | list {ts us : List Token} {t u : Cmd Word} (k : Nat) : Derives .pipe ts t → Derives .line us u →
      Derives .line (ts ++ List.replicate k .amp ++ .semi :: us) (.list (Cmd.back^[k] t) u)
  | alone {ts : List Token} {t : Cmd Word} : Derives .exec ts t → Derives .pipe ts t
  | pipe {ts us : List Token} {t u : Cmd Word} : Derives .exec ts t → Derives .pipe us u →
      Derives .pipe (ts ++ .bar :: us) (.pipe t u)
  | block {ts us : List Token} {t : Cmd Word} {rs : List Redirection} : Derives .line ts t →
      Redirs us rs → Derives .exec (.lparen :: ts ++ .rparen :: us) (wrap rs t)
  | command {ts us : List Token} {ws : List Word} {rs qs : List Redirection} : Redirs ts rs →
      Args us ws qs → ws.length < MAXARGS → Derives .exec (ts ++ us) (wrap (rs ++ qs) (.exec ws))

/-- The tokens that can stand behind a derivation. -/
def Nonterminal.follow : Nonterminal → List Token
  | line => [.rparen]
  | pipe => [.rparen, .amp, .semi]
  | exec => [.rparen, .amp, .semi, .bar]

/-- What follows a derivation of the nonterminal ends it. -/
def Nonterminal.Ends (n : Nonterminal) (rest : List Token) : Prop :=
  ∀ token, rest.head? = some token → token ∈ n.follow

end Xv6.Sh
