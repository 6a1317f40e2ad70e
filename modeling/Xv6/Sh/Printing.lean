import Xv6.Sh.Tokens

/-! Commands written out again. Every part of a command is put in parentheses, and a blank
stands behind every token. -/
namespace Xv6.Sh

/-- The bytes can be a word of a line. -/
def Named (w : Word) : Prop := w ≠ [] ∧ ∀ c ∈ w, c ≠ 0 ∧ wordChar c = true

/-- The command can be written. -/
def Cmd.Proper : Cmd Word → Prop
  | exec argv => argv.length < MAXARGS ∧ ∀ w ∈ argv, Named w
  | redir cmd file mode fd => cmd.Proper ∧ Named file ∧ ∃ op, operator op = some (mode, fd)
  | pipe left right => left.Proper ∧ right.Proper
  | list left right => left.Proper ∧ right.Proper
  | back cmd => cmd.Proper

def printTokens : Cmd Word → List Token
  | .exec argv => argv.map .word
  | .redir cmd file _ fd =>
    .lparen :: printTokens cmd ++ .rparen :: [if fd = 0 then .less else .greater, .word file]
  | .pipe left right =>
    (.lparen :: printTokens left ++ [.rparen]) ++ .bar :: (.lparen :: printTokens right ++ [.rparen])
  | .list left right =>
    (.lparen :: printTokens left ++ [.rparen]) ++ .semi :: (.lparen :: printTokens right ++ [.rparen])
  | .back cmd => (.lparen :: printTokens cmd ++ [.rparen]) ++ [.amp]

def print (t : Cmd Word) : List UInt8 :=
  (printTokens t).flatMap fun token => token.text ++ chars [' ']

/-- The words among the tokens can be written. -/
def Spelled (ts : List Token) : Prop := ∀ w, .word w ∈ ts → Named w

theorem Spelled.append {ts us : List Token} :
    Spelled (ts ++ us) ↔ Spelled ts ∧ Spelled us := by
  constructor
  · intro spelled
    exact ⟨fun w member => spelled w (List.mem_append_left us member),
      fun w member => spelled w (List.mem_append_right ts member)⟩
  · rintro ⟨first, second⟩ w member
    exact (List.mem_append.mp member).elim (first w) (second w)

theorem Spelled.cons {token : Token} {ts : List Token} :
    Spelled (token :: ts) ↔ (∀ w, token = .word w → Named w) ∧ Spelled ts := by
  constructor
  · intro spelled
    refine ⟨?_, fun w member => spelled w (List.mem_cons_of_mem token member)⟩
    rintro w rfl
    exact spelled w List.mem_cons_self
  · rintro ⟨first, rest⟩ w member
    exact (List.mem_cons.mp member).elim (fun is => first w is.symm) (rest w)

section Lex
variable {cs : List UInt8} {c : UInt8}

theorem symbol_of_wordChar (word : wordChar c = true) :
    strchr whitespace c = false ∧ symbol c = none ∧ c ≠ '>'.toUInt8 := by
  refine ⟨?_, ?_, ?_⟩
  · rw [wordChar, Bool.and_eq_true] at word
    simpa using word.1
  · cases found : symbol c with
    | none => rfl
    | some token => cases (wordChar_starts word (by decide)).symm.trans (symbol_some found).2.1
  · rintro rfl
    cases word

theorem tokens_cons (dark : strchr whitespace c = false) :
    tokens (c :: cs) = (firstToken c cs).1 :: tokens (firstToken c cs).2 := by
  rw [tokens, if_neg (by rw [dark]; decide)]

theorem tokens_blank (cs : List UInt8) : tokens (' '.toUInt8 :: cs) = tokens cs := by
  rw [tokens, if_pos (by decide)]

theorem firstToken_word {w : Word} (chars : ∀ d ∈ c :: w, wordChar d = true) :
    firstToken c (w ++ ' '.toUInt8 :: cs) = (.word (c :: w), ' '.toUInt8 :: cs) := by
  obtain ⟨_, none, other⟩ := symbol_of_wordChar (chars c List.mem_cons_self)
  have run : ∀ d ∈ w, wordChar d = true := fun d member => chars d (List.mem_cons_of_mem c member)
  rw [firstToken, none]
  dsimp only
  rw [if_neg other, List.takeWhile_append_of_pos run, List.dropWhile_append_of_pos run,
    List.takeWhile_cons_of_neg (by decide), List.dropWhile_cons_of_neg (by decide), List.append_nil]

/-- A token with a blank behind it is read as it was written. -/
theorem tokens_text {token : Token} (named : ∀ w, token = .word w → Named w) :
    tokens (token.text ++ chars [' '] ++ cs) = token :: tokens cs := by
  cases token with
  | word w =>
    obtain ⟨some, chars⟩ := named w rfl
    cases w with
    | nil => exact absurd rfl some
    | cons c w =>
      have run : ∀ d ∈ c :: w, wordChar d = true := fun d member => (chars d member).2
      have dark := (symbol_of_wordChar (run c List.mem_cons_self)).1
      rw [Token.text, List.append_assoc, List.cons_append, tokens_cons dark]
      change (firstToken c (w ++ ' '.toUInt8 :: cs)).1 ::
        tokens (firstToken c (w ++ ' '.toUInt8 :: cs)).2 = _
      rw [firstToken_word run, tokens_blank]
  | bar => exact (tokens_cons (by decide)).trans (congrArg _ (tokens_blank cs))
  | lparen => exact (tokens_cons (by decide)).trans (congrArg _ (tokens_blank cs))
  | rparen => exact (tokens_cons (by decide)).trans (congrArg _ (tokens_blank cs))
  | semi => exact (tokens_cons (by decide)).trans (congrArg _ (tokens_blank cs))
  | amp => exact (tokens_cons (by decide)).trans (congrArg _ (tokens_blank cs))
  | less => exact (tokens_cons (by decide)).trans (congrArg _ (tokens_blank cs))
  | greater => exact (tokens_cons (by decide)).trans (congrArg _ (tokens_blank cs))
  | append => exact (tokens_cons (by decide)).trans (congrArg _ (tokens_blank cs))

theorem tokens_render {ts : List Token} (spelled : Spelled ts) :
    tokens (ts.flatMap fun token => token.text ++ chars [' ']) = ts := by
  induction ts with
  | nil => exact tokens.eq_1
  | cons token ts ih =>
    obtain ⟨first, rest⟩ := Spelled.cons.mp spelled
    rw [List.flatMap_cons, tokens_text first, ih rest]

theorem firstToken_spelled (dark : strchr whitespace c = false) (filled : ∀ d ∈ c :: cs, d ≠ 0) :
    (∀ w, (firstToken c cs).1 = .word w → Named w) ∧ (firstToken c cs).2 ⊆ cs := by
  rw [firstToken]
  cases found : symbol c with
  | some token =>
    exact ⟨fun w is => absurd is ((symbol_some found).2.2.2 w), List.Subset.refl cs⟩
  | none =>
    dsimp only
    split
    · split
      · exact ⟨fun w is => (by cases is), List.tail_subset cs⟩
      · exact ⟨fun w is => (by cases is), List.Subset.refl cs⟩
    · rename_i other
      refine ⟨?_, (List.dropWhile_sublist _).subset⟩
      rintro w ⟨⟩
      refine ⟨List.cons_ne_nil _ _, fun d member => ?_⟩
      obtain rfl | later := List.mem_cons.mp member
      · exact ⟨filled d List.mem_cons_self, wordChar_of_symbol_none found other dark⟩
      · refine ⟨filled d (List.mem_cons_of_mem c ((List.takeWhile_sublist _).subset later)), ?_⟩
        exact List.all_eq_true.mp List.all_takeWhile d later

/-- The words of a line can be written. -/
theorem tokens_spelled (filled : ∀ c ∈ cs, c ≠ 0) : Spelled (tokens cs) := by
  induction cs using tokens.induct with
  | case1 =>
    intro w member
    rw [tokens] at member
    cases member
  | case2 c cs space ih =>
    rw [tokens, if_pos space]
    exact ih fun d member => filled d (List.mem_cons_of_mem c member)
  | case3 c cs dark ih =>
    rw [Bool.not_eq_true] at dark
    obtain ⟨first, sub⟩ := firstToken_spelled dark filled
    rw [tokens_cons dark, Spelled.cons]
    exact ⟨first, ih fun d member => filled d (List.mem_cons_of_mem c (sub member))⟩

end Lex

section Derive
variable {n : Nonterminal} {ts : List Token} {t : Cmd Word} {rs : List Redirection}

theorem Redirs.proper (redirs : Redirs ts rs) (spelled : Spelled ts) (proper : t.Proper) :
    (wrap rs t).Proper := by
  induction redirs generalizing t with
  | nil => exact proper
  | @cons op mode fd ts rs file is _ ih =>
    obtain ⟨_, spelled⟩ := Spelled.cons.mp spelled
    obtain ⟨named, spelled⟩ := Spelled.cons.mp spelled
    exact ih spelled ⟨proper, named file rfl, op, is⟩

theorem Args.proper {us : List Word} (args : Args ts us rs) (spelled : Spelled ts) :
    (∀ w ∈ us, Named w) ∧ ∀ t : Cmd Word, t.Proper → (wrap rs t).Proper := by
  induction args with
  | nil => exact ⟨fun w member => absurd member List.not_mem_nil, fun t proper => proper⟩
  | @cons ts us rs qs ws' w redirs _ ih =>
    obtain ⟨first, spelled⟩ := Spelled.cons.mp spelled
    obtain ⟨left, right⟩ := Spelled.append.mp spelled
    obtain ⟨others, proper⟩ := ih right
    refine ⟨fun v member => ?_, fun t whole => ?_⟩
    · obtain rfl | later := List.mem_cons.mp member
      · exact first v rfl
      · exact others v later
    · rw [wrap_append]
      exact proper _ (redirs.proper left whole)

theorem back_proper (k : Nat) (proper : t.Proper) : (Cmd.back^[k] t).Proper := by
  induction k generalizing t with
  | zero => exact proper
  | succ k ih => exact ih (show (Cmd.back t).Proper from proper)

/-- The command of a derivation can be written. -/
theorem Derives.proper (derives : Derives n ts t) (spelled : Spelled ts) : t.Proper := by
  induction derives with
  | back k _ ih => exact back_proper k (ih (Spelled.append.mp spelled).1)
  | list k _ _ left right =>
    obtain ⟨first, second⟩ := Spelled.append.mp spelled
    exact ⟨back_proper k (left (Spelled.append.mp first).1), right (Spelled.cons.mp second).2⟩
  | alone _ ih => exact ih spelled
  | pipe _ _ left right =>
    obtain ⟨first, second⟩ := Spelled.append.mp spelled
    exact ⟨left first, right (Spelled.cons.mp second).2⟩
  | block _ redirs ih =>
    obtain ⟨first, second⟩ := Spelled.append.mp (Spelled.cons.mp spelled).2
    exact redirs.proper (Spelled.cons.mp second).2 (ih first)
  | command redirs args few =>
    obtain ⟨first, second⟩ := Spelled.append.mp spelled
    obtain ⟨named, proper⟩ := args.proper second
    rw [wrap_append]
    exact proper _ (redirs.proper first ⟨few, named⟩)

/-- A line in parentheses is a command, and a line again. -/
theorem Derives.parens (derives : Derives .line ts t) :
    Derives .exec (.lparen :: ts ++ [.rparen]) t :=
  .block derives .nil

theorem Derives.line (derives : Derives .exec ts t) : Derives .line ts t := by
  have whole := Derives.back 0 (.alone derives)
  rwa [List.replicate_zero, List.append_nil] at whole

theorem args_words (ws : List Word) : Args (ws.map .word) ws [] := by
  induction ws with
  | nil => exact .nil
  | cons w ws ih => exact .cons w .nil ih

/-- What is printed derives the command. -/
theorem printTokens_derives (proper : t.Proper) : Derives .line (printTokens t) t := by
  induction t with
  | exec argv => exact (Derives.command .nil (args_words argv) proper.1).line
  | redir cmd file mode fd ih =>
    obtain ⟨inner, _, op, is⟩ := proper
    refine Derives.line (.block (ih inner) (.cons file ?_ .nil))
    cases op <;> cases is <;> rfl
  | pipe left right ihl ihr =>
    have whole := Derives.back 0 (.pipe (ihl proper.1).parens (.alone (ihr proper.2).parens))
    rwa [List.replicate_zero, List.append_nil] at whole
  | list left right ihl ihr =>
    have whole := Derives.list 0 (.alone (ihl proper.1).parens) (ihr proper.2).parens.line
    rwa [List.replicate_zero, List.append_nil] at whole
  | back cmd ih => exact .back 1 (.alone (ih proper).parens)

theorem Cmd.Proper.words (proper : t.Proper) : ∀ w ∈ t.words, Named w := by
  induction t with
  | exec argv => exact proper.2
  | redir cmd file mode fd ih =>
    intro w member
    obtain inner | last := List.mem_append.mp member
    · exact ih proper.1 w inner
    · rw [List.mem_singleton.mp last]
      exact proper.2.1
  | pipe left right ihl ihr =>
    intro w member
    exact (List.mem_append.mp member).elim (ihl proper.1 w) (ihr proper.2 w)
  | list left right ihl ihr =>
    intro w member
    exact (List.mem_append.mp member).elim (ihl proper.1 w) (ihr proper.2 w)
  | back cmd ih => exact ih proper

theorem word_mem_printTokens {w : Word} (member : .word w ∈ printTokens t) : w ∈ t.words := by
  induction t with
  | exec argv => simpa [printTokens, Cmd.words] using member
  | redir cmd file mode fd ih =>
    have op : ∀ token, token = (if fd = 0 then Token.less else .greater) → token ≠ .word w := by
      rintro token rfl
      split <;> rintro ⟨⟩
    simp only [printTokens, List.cons_append, List.mem_cons, List.mem_append, List.not_mem_nil,
      or_false, reduceCtorEq, false_or, Token.word.injEq] at member
    rw [Cmd.words, List.mem_append, List.mem_singleton]
    obtain inner | is | rfl := member
    · exact Or.inl (ih inner)
    · exact absurd rfl (op _ is)
    · exact Or.inr rfl
  | pipe left right ihl ihr =>
    simp only [printTokens, List.cons_append, List.mem_cons, List.mem_append, List.not_mem_nil,
      or_false, reduceCtorEq, false_or] at member
    exact List.mem_append.mpr (member.imp ihl ihr)
  | list left right ihl ihr =>
    simp only [printTokens, List.cons_append, List.mem_cons, List.mem_append, List.not_mem_nil,
      or_false, reduceCtorEq, false_or] at member
    exact List.mem_append.mpr (member.imp ihl ihr)
  | back cmd ih =>
    simp only [printTokens, List.cons_append, List.mem_cons, List.mem_append, List.not_mem_nil,
      or_false, reduceCtorEq, false_or] at member
    exact ih member

theorem printTokens_spelled (proper : t.Proper) : Spelled (printTokens t) :=
  fun w member => proper.words w (word_mem_printTokens member)

theorem tokens_print (proper : t.Proper) : tokens (print t) = printTokens t :=
  tokens_render (printTokens_spelled proper)

theorem print_filled (proper : t.Proper) : ∀ c ∈ print t, c ≠ 0 := by
  intro c member
  obtain ⟨token, printed, member⟩ := List.mem_flatMap.mp member
  obtain inside | blank := List.mem_append.mp member
  · cases token with
    | word w => exact ((printTokens_spelled proper w printed).2 c inside).1
    | _ =>
      rintro rfl
      revert inside
      decide
  · rintro rfl
    revert blank
    decide

/-- The line that is printed. -/
theorem line_print (proper : t.Proper) : line (print t ++ [0]) = print t := by
  have run : ∀ c ∈ print t, (decide (c ≠ 0)) = true := fun c member =>
    decide_eq_true (print_filled proper c member)
  rw [line, List.takeWhile_append_of_pos run]
  exact List.append_nil _

end Derive

end Xv6.Sh
