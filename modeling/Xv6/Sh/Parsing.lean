import Xv6.Sh.Tokens

/-! The parsing routines against the grammar. A routine that returns has read tokens that
its nonterminal derives, with the command as the tree; and it reads the tokens of a
derivation whenever what follows them ends it. -/
namespace Xv6.Sh
open Control

section Starts
variable {ts : List Token}

theorem starts_single {token : Token} (single : token ∈ singles) :
    starts token.text ts = true ↔ ∃ rest, ts = token :: rest := by
  simp only [singles, List.mem_cons, List.not_mem_nil, or_false] at single
  cases ts with
  | nil => simp [starts]
  | cons first rest =>
    rcases single with rfl | rfl | rfl | rfl | rfl | rfl <;> cases first <;>
      simp +decide [starts, Token.starts, Token.text, Token.code, strchr, chars]

theorem starts_redir : starts (chars ['<', '>']) ts = true ↔
    ∃ op mode fd rest, ts = op :: rest ∧ operator op = some (mode, fd) := by
  cases ts with
  | nil => simp [starts]
  | cons first rest =>
    cases first <;> simp +decide [starts, Token.starts, Token.code, strchr, chars, operator]

theorem starts_end : starts (chars ['|', ')', '&', ';']) ts = true ↔
    ∃ token rest, ts = token :: rest ∧ token ∈ Nonterminal.exec.follow := by
  cases ts with
  | nil => simp [starts]
  | cons first rest =>
    cases first <;> simp +decide [starts, Token.starts, Token.code, strchr, chars, Nonterminal.follow]

theorem code_word : nextCode ts = 'a'.toUInt8 ↔ ∃ w rest, ts = .word w :: rest := by
  cases ts with
  | nil => simp +decide
  | cons first rest => cases first <;> simp +decide [nextCode, Token.code]

theorem code_zero : nextCode ts = 0 ↔ ts = [] := by
  cases ts with
  | nil => simp [nextCode]
  | cons first rest => cases first <;> simp +decide [nextCode, Token.code]

end Starts

/-- The words of `cmd` are delimited, and the command with these words is `t`. -/
structure Reads (mem : List UInt8) (cmd : Cmd Span) (t : Cmd Word) : Prop where
  tree : cmd.map (slice mem) = t
  words : ∀ w ∈ cmd.words, IsWord mem w

theorem mem_words_addArg {S : Type} {w word : S} {cmd : Cmd S} (member : w ∈ (cmd.addArg word).words) :
    w ∈ cmd.words ∨ w = word := by
  induction cmd with
  | exec argv => simpa [Cmd.addArg, Cmd.words] using member
  | redir cmd file mode fd ih =>
    rw [Cmd.addArg, Cmd.words, List.mem_append] at member
    rw [Cmd.words, List.mem_append]
    obtain inner | last := member
    · exact (ih inner).imp_left Or.inl
    · exact Or.inl (Or.inr last)
  | pipe => exact Or.inl member
  | list => exact Or.inl member
  | back => exact Or.inl member

theorem map_addArg {S T : Type} (f : S → T) (word : S) (cmd : Cmd S) :
    (cmd.addArg word).map f = (cmd.map f).addArg (f word) := by
  induction cmd with
  | exec argv => simp [Cmd.addArg, Cmd.map]
  | redir cmd file mode fd ih => rw [Cmd.addArg, Cmd.map, ih, Cmd.map, Cmd.addArg]
  | pipe => rfl
  | list => rfl
  | back => rfl

/-- An argument goes to the command below its redirections. -/
theorem addArg_wrap (rs : List Redirection) (w : Word) (t : Cmd Word) :
    (wrap rs t).addArg w = wrap rs (t.addArg w) := by
  induction rs generalizing t with
  | nil => rfl
  | cons r rs ih => exact ih _

namespace Reads
variable {mem : List UInt8} {cmd left right : Cmd Span} {t u : Cmd Word} {span : Span} {w : Word}

theorem exec (mem : List UInt8) : Reads mem (.exec []) (.exec []) :=
  ⟨rfl, fun _ member => absurd member List.not_mem_nil⟩

theorem redir (reads : Reads mem cmd t) (word : slice mem span = w) (isWord : IsWord mem span)
    (mode fd : Nat) : Reads mem (.redir cmd span mode fd) (.redir t w mode fd) := by
  constructor
  · rw [Cmd.map, reads.tree, word]
  · intro v member
    obtain inner | last := List.mem_append.mp member
    · exact reads.words v inner
    · rw [List.mem_singleton.mp last]
      exact isWord

theorem append (first : Reads mem left t) (second : Reads mem right u) :
    ∀ v ∈ left.words ++ right.words, IsWord mem v := by
  intro v member
  exact (List.mem_append.mp member).elim (first.words v) (second.words v)

theorem pipe (first : Reads mem left t) (second : Reads mem right u) :
    Reads mem (.pipe left right) (.pipe t u) :=
  ⟨by rw [Cmd.map, first.tree, second.tree], first.append second⟩

theorem list (first : Reads mem left t) (second : Reads mem right u) :
    Reads mem (.list left right) (.list t u) :=
  ⟨by rw [Cmd.map, first.tree, second.tree], first.append second⟩

theorem back (reads : Reads mem cmd t) : Reads mem (.back cmd) (.back t) :=
  ⟨by rw [Cmd.map, reads.tree], reads.words⟩

theorem addArg {rs : List Redirection} {ws : List Word} (reads : Reads mem cmd (wrap rs (.exec ws)))
    (word : slice mem span = w) (isWord : IsWord mem span) :
    Reads mem (cmd.addArg span) (wrap rs (.exec (ws ++ [w]))) := by
  constructor
  · rw [map_addArg, reads.tree, word, addArg_wrap]
    rfl
  · intro v member
    obtain old | rfl := mem_words_addArg member
    · exact reads.words v old
    · exact isWord

end Reads

/-- The routine has read tokens that the nonterminal derives. -/
def Parsed (mem : List UInt8) (n : Nonterminal) (ts : List Token) (cmd : Cmd Span) (s : Nat) : Prop :=
  ∃ pre rest t, ts = pre ++ rest ∧ At mem s rest ∧ Derives n pre t ∧ Reads mem cmd t

section Rounds
variable {mem : List UInt8} {s fuel argc : Nat} {ts : List Token} {cmd : Cmd Span} {α : Type}
variable {Q : α → Nat → Prop} {E : Stop → Nat → Prop}

theorem redir_sub : chars ['<', '>'] ⊆ symbols := by decide
theorem end_sub : chars ['|', ')', '&', ';'] ⊆ symbols := by decide
theorem single_sub {token : Token} (single : token ∈ singles) : token.text ⊆ symbols := by
  revert token
  decide

/-- A routine looks for a token and takes it if it is the next one. -/
theorem sat_accept {token : Token} (single : token ∈ singles) (here : At mem s ts) {m k : Parser α}
    (found : ∀ rest s', ts = token :: rest → At mem s' rest → Sat m s' Q E)
    (missing : starts token.text ts = false → ∀ s', At mem s' ts → Sat k s' Q E) :
    Sat (peek mem (strlen mem) token.text >>= fun more =>
      if more = true then gettoken mem (strlen mem) >>= fun _ => m else k) s Q E := by
  refine .seq (peek_spec (single_sub single) here) ?_ (fun _ _ stop => stop.elim)
  rintro more s₁ ⟨here, rfl, _⟩
  split
  · rename_i more
    obtain ⟨rest, rfl⟩ := (starts_single single).mp more
    refine .seq (gettoken_spec here) ?_ (fun _ _ stop => stop.elim)
    rintro _ s₂ ⟨here, _, _⟩
    exact found rest s₂ rfl here
  · rename_i more
    exact missing (Bool.eq_false_iff.mpr more) s₁ here

/-- The operator decides what `parseredirs` puts around the command. -/
theorem operator_mode {op : Token} {mode fd : Nat} (is : operator op = some (mode, fd))
    (f : Nat → Nat → Parser α) (other : Parser α) (rest : List Token) :
    (if nextCode (op :: rest) = '<'.toUInt8 then f O_RDONLY 0
      else if nextCode (op :: rest) = '>'.toUInt8 then f (O_WRONLY ||| O_CREATE) 1
      else if nextCode (op :: rest) = '+'.toUInt8 then f (O_WRONLY ||| O_CREATE) 1
      else other) = f mode fd := by
  cases op <;> cases is <;> rfl

variable {Q : Cmd Span → Nat → Prop}

/-- One round of the loop of `parseredirs`. -/
theorem parseredirs_round (here : At mem s ts)
    (done : starts (chars ['<', '>']) ts = false → ∀ s', At mem s' ts → Q cmd s')
    (more : ∀ op mode fd w rest span s', ts = op :: .word w :: rest →
      operator op = some (mode, fd) → At mem s' rest → slice mem span = w → IsWord mem span →
      Sat (parseredirs mem (strlen mem) fuel (.redir cmd span mode fd)) s' Q E)
    (missing : ∀ op rest s', ts = op :: rest → (operator op).isSome →
      (∀ w post, rest ≠ .word w :: post) → E (.panic "missing file for redirection") s') :
    Sat (parseredirs mem (strlen mem) (fuel + 1) cmd) s Q E := by
  rw [parseredirs]
  refine .seq (peek_spec redir_sub here) ?_ (fun _ _ stop => stop.elim)
  rintro _ s₁ ⟨here, rfl, _⟩
  split
  · rename_i begins
    obtain ⟨op, mode, fd, rest, rfl, is⟩ := starts_redir.mp begins
    refine .seq (gettoken_spec here) ?_ (fun _ _ stop => stop.elim)
    rintro ⟨_, _⟩ s₂ ⟨here, rfl, _⟩
    dsimp only
    refine .seq (gettoken_spec here) ?_ (fun _ _ stop => stop.elim)
    rintro ⟨_, file⟩ s₃ ⟨here, rfl, word⟩
    dsimp only
    split
    · rename_i unnamed
      refine missing op rest s₃ rfl (by rw [is]; rfl) fun w post split => unnamed ?_
      exact code_word.mpr ⟨w, post, split⟩
    · rename_i named
      obtain ⟨w, post, rfl⟩ := code_word.mp (not_not.mp named)
      obtain ⟨spelled, isWord⟩ := word w rfl
      rw [operator_mode is fun mode fd => parseredirs mem (strlen mem) fuel (.redir cmd file mode fd)]
      exact more op mode fd w post file s₃ rfl is here spelled isWord
  · rename_i ends
    exact done (Bool.eq_false_iff.mpr ends) s₁ here

/-- One round of the loop of `parseexec`. -/
theorem parseargs_round (here : At mem s ts)
    (done : ts = [] ∨ starts (chars ['|', ')', '&', ';']) ts = true → ∀ s', At mem s' ts → Q cmd s')
    (more : ∀ w rest span s', ts = .word w :: rest → argc + 1 < MAXARGS → At mem s' rest →
      slice mem span = w → IsWord mem span →
      Sat (parseredirs mem (strlen mem) fuel (cmd.addArg span)) s' (fun c s'' =>
        Sat (parseargs mem (strlen mem) fuel c (argc + 1)) s'' Q E) E)
    (many : ∀ w rest s', ts = .word w :: rest → MAXARGS ≤ argc + 1 →
      E (.panic "too many args") s')
    (opens : ∀ s', ts ≠ [] → starts (chars ['|', ')', '&', ';']) ts = false →
      (∀ w rest, ts ≠ .word w :: rest) → E (.panic "syntax") s') :
    Sat (parseargs mem (strlen mem) (fuel + 1) cmd argc) s Q E := by
  rw [parseargs]
  refine .seq (peek_spec end_sub here) ?_ (fun _ _ stop => stop.elim)
  rintro _ s₁ ⟨here, rfl, _⟩
  split
  · rename_i ends
    exact done (Or.inr ends) s₁ here
  · rename_i goes
    refine .seq (gettoken_spec here) ?_ (fun _ _ stop => stop.elim)
    rintro ⟨_, span⟩ s₂ ⟨there, rfl, word⟩
    dsimp only
    split
    · rename_i zero
      obtain rfl := code_zero.mp zero
      exact done (Or.inl rfl) s₂ there
    · rename_i filled
      split
      · rename_i unnamed
        refine opens s₂ (fun none => filled (code_zero.mpr none)) (Bool.eq_false_iff.mpr goes) ?_
        exact fun w rest split => unnamed (code_word.mpr ⟨w, rest, split⟩)
      · rename_i named
        obtain ⟨w, rest, rfl⟩ := code_word.mp (not_not.mp named)
        obtain ⟨spelled, isWord⟩ := word w rfl
        split
        · rename_i full
          exact many w rest s₂ rfl full
        · rename_i room
          rw [sat_bind]
          exact more w rest span s₂ rfl (by omega) there spelled isWord

end Rounds

/-- The parser ends by a panic, or it needs more rounds. -/
inductive Halts (short : Prop) : Stop → Prop where
  | panic (msg : String) : Halts short (.panic msg)
  | spin : short → Halts short .spin

theorem Halts.mono {p q : Prop} {e : Stop} (halts : Halts p e) (weaker : p → q) : Halts q e := by
  cases halts with
  | panic msg => exact .panic msg
  | spin short => exact .spin (weaker short)

/-- The routine reads what the nonterminal derives. With `fuel` rounds it stops short only
on a line that is longer. -/
def Sound (mem : List UInt8) (n : Nonterminal) (fuel slack : Nat) (m : Parser (Cmd Span)) : Prop :=
  ∀ s ts, At mem s ts →
    Sat m s (Parsed mem n ts) (fun e _ => Halts (fuel < 4 * ts.length + slack) e)

section Sound
variable {mem : List UInt8} {s fuel : Nat} {ts : List Token} {cmd : Cmd Span} {t : Cmd Word}

theorem parseredirs_sound (here : At mem s ts) (reads : Reads mem cmd t) :
    Sat (parseredirs mem (strlen mem) fuel cmd) s (fun c s' => ∃ pre rs rest, ts = pre ++ rest ∧
      At mem s' rest ∧ Redirs pre rs ∧ Reads mem c (wrap rs t))
      (fun e _ => Halts (fuel ≤ ts.length) e) := by
  induction fuel generalizing s ts cmd t with
  | zero => exact .spin (Nat.zero_le _)
  | succ fuel ih =>
    apply parseredirs_round here
    · intro _ s' here
      exact ⟨[], [], ts, rfl, here, .nil, reads⟩
    · rintro op mode fd w rest span s' rfl is here spelled isWord
      refine (ih here (reads.redir spelled isWord mode fd)).mono ?_ (fun e s' stop => stop.mono fun few => ?_)
      · rintro c s' ⟨pre, rs, rest, rfl, here, redirs, reads⟩
        exact ⟨_, _, rest, rfl, here, .cons w is redirs, reads⟩
      · simp only [List.length_cons]
        omega
    · exact fun _ _ _ _ _ _ => .panic _

theorem parsebacks_sound (here : At mem s ts) (reads : Reads mem cmd t) :
    Sat (parsebacks mem (strlen mem) fuel cmd) s (fun c s' => ∃ k rest,
      ts = List.replicate k .amp ++ rest ∧ At mem s' rest ∧ Reads mem c (Cmd.back^[k] t))
      (fun e _ => Halts (fuel ≤ ts.length) e) := by
  induction fuel generalizing s ts cmd t with
  | zero => exact .spin (Nat.zero_le _)
  | succ fuel ih =>
    rw [parsebacks]
    apply sat_accept (by decide : Token.amp ∈ singles) here
    · rintro rest s' rfl here
      refine (ih here reads.back).mono ?_ (fun e s' stop => stop.mono Nat.succ_le_succ)
      rintro c s' ⟨k, rest, rfl, here, reads⟩
      exact ⟨k + 1, rest, rfl, here, reads⟩
    · intro _ s' here
      exact ⟨0, ts, rfl, here, reads⟩

theorem parseargs_sound {rs : List Redirection} {ws : List Word} (here : At mem s ts)
    (reads : Reads mem cmd (wrap rs (.exec ws))) (few : ws.length < MAXARGS) :
    Sat (parseargs mem (strlen mem) fuel cmd ws.length) s (fun c s' => ∃ pre us qs rest,
      ts = pre ++ rest ∧ At mem s' rest ∧ Args pre us qs ∧ (ws ++ us).length < MAXARGS ∧
      Reads mem c (wrap (rs ++ qs) (.exec (ws ++ us)))) (fun e _ => Halts (fuel ≤ ts.length) e) := by
  induction fuel generalizing s ts cmd rs ws with
  | zero => exact .spin (Nat.zero_le _)
  | succ fuel ih =>
    apply parseargs_round here
    · intro _ s' here
      refine ⟨[], [], [], ts, rfl, here, .nil, ?_, ?_⟩
      · rwa [List.append_nil]
      · rwa [List.append_nil, List.append_nil]
    · rintro w rest span s' rfl room here spelled isWord
      refine (parseredirs_sound here (reads.addArg spelled isWord)).mono ?_
        (fun e s' stop => stop.mono Nat.succ_le_succ)
      rintro c s₂ ⟨pre, qs, rest, rfl, here, redirs, reads⟩
      rw [← wrap_append] at reads
      have longer : (ws ++ [w]).length = ws.length + 1 := List.length_append
      have rounds := ih here reads (by omega)
      rw [longer] at rounds
      refine rounds.mono ?_ (fun e s' stop => stop.mono fun few => ?_)
      · rintro c s₃ ⟨post, us, ps, rest, rfl, here, args, few, reads⟩
        rw [List.append_assoc] at few reads
        rw [List.append_assoc] at reads
        refine ⟨_, w :: us, qs ++ ps, rest, ?_, here, .cons w redirs args, few, reads⟩
        rw [List.cons_append, List.append_assoc]
      · simp only [List.length_cons, List.length_append]
        omega
    · exact fun _ _ _ _ _ => .panic _
    · exact fun _ _ _ _ => .panic _

theorem parseline_sound (pipe : Sound mem .pipe fuel 3 (parsepipe mem (strlen mem) fuel))
    (line : Sound mem .line fuel 4 (parseline mem (strlen mem) fuel)) :
    Sound mem .line (fuel + 1) 4 (parseline mem (strlen mem) (fuel + 1)) := by
  intro s ts here
  rw [parseline]
  refine .seq (pipe s ts here) ?_ (fun e s' stop => stop.mono fun _ => by omega)
  rintro cmd s₁ ⟨pre, rest, t, rfl, here, derives, reads⟩
  refine .seq (parsebacks_sound here reads) ?_ (fun e s' stop => stop.mono fun few => ?_)
  · rintro cmd s₂ ⟨k, rest, rfl, here, reads⟩
    apply sat_accept (by decide : Token.semi ∈ singles) here
    · rintro rest s₃ rfl here
      refine .seq (line s₃ rest here) ?_ (fun e s' stop => stop.mono fun few => ?_)
      · rintro right s₄ ⟨post, rest, u, rfl, here, derives', reads'⟩
        refine ⟨_, rest, _, ?_, here, .list k derives derives', reads.list reads'⟩
        simp only [List.append_assoc, List.cons_append]
      · simp only [List.length_append, List.length_cons]
        omega
    · intro _ s₃ here
      exact ⟨_, rest, _, (List.append_assoc _ _ _).symm, here, .back k derives, reads⟩
  · simp only [List.length_append] at few ⊢
    omega

theorem parsepipe_sound (exec : Sound mem .exec fuel 2 (parseexec mem (strlen mem) fuel))
    (pipe : Sound mem .pipe fuel 3 (parsepipe mem (strlen mem) fuel)) :
    Sound mem .pipe (fuel + 1) 3 (parsepipe mem (strlen mem) (fuel + 1)) := by
  intro s ts here
  rw [parsepipe]
  refine .seq (exec s ts here) ?_ (fun e s' stop => stop.mono fun _ => by omega)
  rintro cmd s₁ ⟨pre, rest, t, rfl, here, derives, reads⟩
  apply sat_accept (by decide : Token.bar ∈ singles) here
  · rintro rest s₂ rfl here
    refine .seq (pipe s₂ rest here) ?_ (fun e s' stop => stop.mono fun few => ?_)
    · rintro right s₃ ⟨post, rest, u, rfl, here, derives', reads'⟩
      refine ⟨_, rest, _, ?_, here, .pipe derives derives', reads.pipe reads'⟩
      simp only [List.append_assoc, List.cons_append]
    · simp only [List.length_append, List.length_cons]
      omega
  · intro _ s₂ here
    exact ⟨pre, rest, t, rfl, here, .alone derives, reads⟩

theorem parseblock_sound (line : Sound mem .line fuel 4 (parseline mem (strlen mem) fuel)) :
    Sound mem .exec (fuel + 1) 1 (parseblock mem (strlen mem) (fuel + 1)) := by
  intro s ts here
  rw [parseblock]
  apply sat_accept (by decide : Token.lparen ∈ singles) here
  · rintro rest s₁ rfl here
    refine .seq (line s₁ rest here) ?_ (fun e s' stop => stop.mono fun few => ?_)
    · rintro cmd s₂ ⟨pre, rest, t, rfl, here, derives, reads⟩
      apply sat_accept (by decide : Token.rparen ∈ singles) here
      · rintro rest s₃ rfl here
        refine (parseredirs_sound here reads).mono ?_ (fun e s' stop => stop.mono fun few => ?_)
        · rintro cmd s₄ ⟨post, rs, rest, rfl, here, redirs, reads⟩
          refine ⟨_, rest, _, ?_, here, .block derives redirs, reads⟩
          simp only [List.append_assoc, List.cons_append]
        · simp only [List.length_append, List.length_cons]
          omega
      · exact fun _ _ _ => .panic _
    · simp only [List.length_cons]
      omega
  · exact fun _ _ _ => .panic _

theorem parseexec_sound (block : Sound mem .exec fuel 1 (parseblock mem (strlen mem) fuel)) :
    Sound mem .exec (fuel + 1) 2 (parseexec mem (strlen mem) (fuel + 1)) := by
  intro s ts here
  rw [parseexec]
  refine .seq (peek_spec (single_sub (by decide : Token.lparen ∈ singles)) here) ?_
    (fun _ _ stop => stop.elim)
  rintro opens s₁ ⟨here, rfl, _⟩
  split
  · exact (block s₁ ts here).mono (fun _ _ parsed => parsed)
      (fun e s' stop => stop.mono fun _ => by omega)
  · refine .seq (parseredirs_sound here (.exec mem)) ?_ (fun e s' stop => stop.mono fun few => ?_)
    · rintro cmd s₂ ⟨pre, rs, rest, rfl, here, redirs, reads⟩
      refine (parseargs_sound here reads (by decide)).mono ?_ (fun e s' stop => stop.mono fun few => ?_)
      · rintro cmd s₃ ⟨post, ws, qs, rest, rfl, here, args, few, reads⟩
        exact ⟨_, rest, _, (List.append_assoc _ _ _).symm, here, .command redirs args few, reads⟩
      · simp only [List.length_append]
        omega
    · omega

/-- By induction on the rounds, all four at once: each calls the others with one round less. -/
theorem parse_sound (mem : List UInt8) (fuel : Nat) :
    Sound mem .line fuel 4 (parseline mem (strlen mem) fuel) ∧
    Sound mem .pipe fuel 3 (parsepipe mem (strlen mem) fuel) ∧
    Sound mem .exec fuel 2 (parseexec mem (strlen mem) fuel) ∧
    Sound mem .exec fuel 1 (parseblock mem (strlen mem) fuel) := by
  induction fuel with
  | zero =>
    refine ⟨?_, ?_, ?_, ?_⟩ <;>
      exact fun s ts _ => .spin (by omega)
  | succ fuel ih =>
    obtain ⟨line, pipe, exec, block⟩ := ih
    exact ⟨parseline_sound pipe line, parsepipe_sound exec pipe, parseexec_sound block,
      parseblock_sound line⟩

end Sound

section Ends
variable {rest : List Token} {n : Nonterminal}

theorem Nonterminal.Ends.mono {n m : Nonterminal} (ends : n.Ends rest) (sub : n.follow ⊆ m.follow) :
    m.Ends rest :=
  fun token head => sub (ends token head)

theorem Nonterminal.Ends.cons {token : Token} (follows : token ∈ n.follow) (rest : List Token) :
    n.Ends (token :: rest) := by
  intro head is
  rwa [← Option.some.inj is]

/-- What ends a command is neither a redirection nor an argument. -/
theorem Nonterminal.Ends.exec_cases (ends : Nonterminal.exec.Ends rest) :
    starts (chars ['<', '>']) rest = false ∧
      (rest = [] ∨ starts (chars ['|', ')', '&', ';']) rest = true) := by
  cases rest with
  | nil => exact ⟨rfl, Or.inl rfl⟩
  | cons token rest =>
    have follows := ends token rfl
    refine ⟨?_, Or.inr (starts_end.mpr ⟨token, rest, rfl, follows⟩)⟩
    rw [Bool.eq_false_iff, ne_eq, starts_redir]
    rintro ⟨op, mode, fd, rest, is, operates⟩
    obtain ⟨rfl, _⟩ := List.cons.inj is
    revert follows operates
    cases token <;> simp [operator, Nonterminal.follow]

/-- A token that cannot stand behind the nonterminal does not. -/
theorem Nonterminal.Ends.not_starts (ends : n.Ends rest) {token : Token} (single : token ∈ singles)
    (other : token ∉ n.follow) : starts token.text rest = false := by
  rw [Bool.eq_false_iff, ne_eq, starts_single single]
  rintro ⟨tail, rfl⟩
  exact other (ends token rfl)

end Ends

section Complete
variable {mem : List UInt8} {s fuel : Nat} {ts rest : List Token} {cmd : Cmd Span} {t : Cmd Word}

theorem parseredirs_complete {rs : List Redirection} (redirs : Redirs ts rs)
    (here : At mem s (ts ++ rest)) (ends : starts (chars ['<', '>']) rest = false)
    (reads : Reads mem cmd t) :
    Sat (parseredirs mem (strlen mem) fuel cmd) s (fun c s' => At mem s' rest ∧
      Reads mem c (wrap rs t)) (fun e _ => e = .spin) := by
  induction redirs generalizing s fuel cmd t with
  | nil =>
    cases fuel with
    | zero => rfl
    | succ fuel =>
      have none : ∀ op post, rest = op :: post → (operator op).isSome → False := by
        intro op post is some
        obtain ⟨⟨mode, fd⟩, operates⟩ := Option.isSome_iff_exists.mp some
        cases ends.symm.trans (starts_redir.mpr ⟨op, mode, fd, post, is, operates⟩)
      apply parseredirs_round here
      · exact fun _ s' here => ⟨here, reads⟩
      · exact fun op mode fd w post _ _ is operates => (none op _ is (by rw [operates]; rfl)).elim
      · exact fun op post _ is some _ => (none op post is some).elim
  | @cons op mode fd ts rs file operates _ ih =>
    rw [List.cons_append, List.cons_append] at here
    cases fuel with
    | zero => rfl
    | succ fuel =>
      apply parseredirs_round here
      · intro none
        cases none.symm.trans (starts_redir.mpr ⟨op, mode, fd, _, rfl, operates⟩)
      · intro op' mode' fd' w post span s' is operates' here spelled isWord
        obtain ⟨rfl, tail⟩ := List.cons.inj is
        obtain ⟨word, rfl⟩ := List.cons.inj tail
        obtain rfl := Token.word.inj word
        cases operates.symm.trans operates'
        exact ih here (reads.redir spelled isWord mode fd)
      · intro op' post s' is _ other
        exact absurd (List.cons.inj is).2.symm (other _ _)

theorem parsebacks_complete (k : Nat) (here : At mem s (List.replicate k .amp ++ rest))
    (ends : starts Token.amp.text rest = false) (reads : Reads mem cmd t) :
    Sat (parsebacks mem (strlen mem) fuel cmd) s (fun c s' => At mem s' rest ∧
      Reads mem c (Cmd.back^[k] t)) (fun e _ => e = .spin) := by
  have amp : Token.amp ∈ singles := by decide
  induction k generalizing s fuel cmd t with
  | zero =>
    cases fuel with
    | zero => rfl
    | succ fuel =>
      rw [parsebacks]
      apply sat_accept amp here
      · intro post s' is
        cases ends.symm.trans ((starts_single amp).mpr ⟨post, is⟩)
      · exact fun _ s' here => ⟨here, reads⟩
  | succ k ih =>
    rw [List.replicate_succ, List.cons_append] at here
    cases fuel with
    | zero => rfl
    | succ fuel =>
      rw [parsebacks]
      apply sat_accept amp here
      · intro post s' is here
        obtain ⟨_, rfl⟩ := List.cons.inj is
        exact ih here reads.back
      · intro none
        cases none.symm.trans ((starts_single amp).mpr ⟨_, rfl⟩)

/-- Behind an argument and its redirections stands another argument or what ends the
command, and neither is a redirection. -/
theorem Args.starts_redir {us : List Word} {qs : List Redirection} (args : Args ts us qs)
    (ends : Nonterminal.exec.Ends rest) : starts (chars ['<', '>']) (ts ++ rest) = false := by
  cases args with
  | nil => exact ends.exec_cases.1
  | cons => rfl

/-- No command begins with a parenthesis. -/
theorem Redirs.starts_lparen {us : List Token} {ws : List Word} {rs qs : List Redirection}
    (redirs : Redirs ts rs) (args : Args us ws qs) (ends : Nonterminal.exec.Ends rest) :
    starts Token.lparen.text (ts ++ (us ++ rest)) = false := by
  cases redirs with
  | nil =>
    cases args with
    | nil => exact ends.not_starts (by decide) (by decide)
    | cons => rfl
  | @cons op _ _ _ _ _ is _ => cases op <;> first | rfl | cases is

theorem parseargs_complete {rs qs : List Redirection} {ws us : List Word} (args : Args ts us qs)
    (here : At mem s (ts ++ rest)) (ends : Nonterminal.exec.Ends rest)
    (few : (ws ++ us).length < MAXARGS) (reads : Reads mem cmd (wrap rs (.exec ws))) :
    Sat (parseargs mem (strlen mem) fuel cmd ws.length) s (fun c s' => At mem s' rest ∧
      Reads mem c (wrap (rs ++ qs) (.exec (ws ++ us)))) (fun e _ => e = .spin) := by
  induction args generalizing s fuel cmd rs ws with
  | nil =>
    cases fuel with
    | zero => rfl
    | succ fuel =>
      have stop := ends.exec_cases.2
      have none : ∀ w post, rest ≠ .word w :: post := by
        rintro w post rfl
        cases stop with
        | inl none => cases none
        | inr starts => cases starts
      rw [List.append_nil, List.append_nil]
      apply parseargs_round here
      · exact fun _ s' here => ⟨here, reads⟩
      · exact fun w post _ _ is => absurd is (none w post)
      · exact fun w post _ is => absurd is (none w post)
      · exact fun _ some other => absurd (stop.resolve_left some) (Bool.eq_false_iff.mp other)
  | @cons ts us rs' qs ws' w redirs args ih =>
    rw [List.cons_append, List.append_assoc] at here
    cases fuel with
    | zero => rfl
    | succ fuel =>
      have longer : (ws ++ [w]).length = ws.length + 1 := List.length_append
      rw [List.length_append, List.length_cons] at few
      apply parseargs_round here
      · rintro (none | stop)
        · cases none
        · cases stop
      · intro w' post span s' is _ here spelled isWord
        obtain ⟨word, rfl⟩ := List.cons.inj is
        obtain rfl := Token.word.inj word
        refine (parseredirs_complete redirs here (args.starts_redir ends)
          (reads.addArg spelled isWord)).imp ?_
        rintro c s₂ ⟨here, reads⟩
        rw [← wrap_append] at reads
        have rounds : Sat (parseargs mem (strlen mem) fuel c (ws ++ [w]).length) s₂ _ _ :=
          ih here (by rw [List.length_append, longer]; omega) reads
        rwa [longer, List.append_assoc, List.append_assoc] at rounds
      · intro w' post s' _ full
        omega
      · intro s' _ _ other
        exact absurd rfl (other w _)

end Complete

/-- The routine for a nonterminal. -/
def Nonterminal.parse (mem : List UInt8) (fuel : Nat) : Nonterminal → Parser (Cmd Span)
  | line => parseline mem (strlen mem) fuel
  | pipe => parsepipe mem (strlen mem) fuel
  | exec => parseexec mem (strlen mem) fuel

/-- The routine reads a derivation to its end. -/
theorem Derives.parse {mem : List UInt8} {n : Nonterminal} {ts : List Token} {t : Cmd Word}
    (derives : Derives n ts t) {rest : List Token} (ends : n.Ends rest) (s fuel : Nat)
    (here : At mem s (ts ++ rest)) :
    Sat (n.parse mem fuel) s (fun c s' => At mem s' rest ∧ Reads mem c t) (fun e _ => e = .spin) := by
  induction derives generalizing s fuel rest with
  | @back ts t k _ ih =>
    cases fuel with
    | zero => rfl
    | succ fuel =>
      have follows : Nonterminal.pipe.Ends (List.replicate k .amp ++ rest) := by
        cases k with
        | zero => exact ends.mono (by decide)
        | succ k => exact .cons (by decide) _
      rw [List.append_assoc] at here
      rw [Nonterminal.parse, parseline]
      refine .bind (ih follows s fuel here) ?_
      rintro cmd s₁ ⟨here, reads⟩
      refine .bind (parsebacks_complete k here (ends.not_starts (by decide) (by decide)) reads) ?_
      rintro cmd s₂ ⟨here, reads⟩
      apply sat_accept (by decide : Token.semi ∈ singles) here
      · rintro post s₃ rfl
        exact absurd (ends .semi rfl) (by decide)
      · exact fun _ s₃ here => ⟨here, reads⟩
  | @list ts us t u k _ _ pipe line =>
    cases fuel with
    | zero => rfl
    | succ fuel =>
      have follows : Nonterminal.pipe.Ends (List.replicate k .amp ++ .semi :: (us ++ rest)) := by
        cases k with
        | zero => exact .cons (by decide) _
        | succ k => exact .cons (by decide) _
      rw [List.append_assoc, List.append_assoc, List.cons_append] at here
      rw [Nonterminal.parse, parseline]
      refine .bind (pipe follows s fuel here) ?_
      rintro cmd s₁ ⟨here, reads⟩
      refine .bind (parsebacks_complete k here rfl reads) ?_
      rintro cmd s₂ ⟨here, reads⟩
      apply sat_accept (by decide : Token.semi ∈ singles) here
      · intro post s₃ is here
        obtain ⟨_, rfl⟩ := List.cons.inj is
        refine .bind (line ends s₃ fuel here) ?_
        rintro right s₄ ⟨here, reads'⟩
        exact ⟨here, reads.list reads'⟩
      · intro none
        cases none
  | alone _ ih =>
    cases fuel with
    | zero => rfl
    | succ fuel =>
      rw [Nonterminal.parse, parsepipe]
      refine .bind (ih (ends.mono (by decide)) s fuel here) ?_
      rintro cmd s₁ ⟨here, reads⟩
      apply sat_accept (by decide : Token.bar ∈ singles) here
      · rintro post s₂ rfl
        exact absurd (ends .bar rfl) (by decide)
      · exact fun _ s₂ here => ⟨here, reads⟩
  | pipe _ _ left right =>
    cases fuel with
    | zero => rfl
    | succ fuel =>
      rw [List.append_assoc, List.cons_append] at here
      rw [Nonterminal.parse, parsepipe]
      refine .bind (left (.cons (by decide) _) s fuel here) ?_
      rintro cmd s₁ ⟨here, reads⟩
      apply sat_accept (by decide : Token.bar ∈ singles) here
      · intro post s₂ is here
        obtain ⟨_, rfl⟩ := List.cons.inj is
        refine .bind (right ends s₂ fuel here) ?_
        rintro right s₃ ⟨here, reads'⟩
        exact ⟨here, reads.pipe reads'⟩
      · intro none
        cases none
  | @block ts us t rs _ redirs ih =>
    cases fuel with
    | zero => rfl
    | succ fuel =>
      rw [List.cons_append, List.cons_append, List.append_assoc, List.cons_append] at here
      rw [Nonterminal.parse, parseexec, sat_bind]
      refine (peek_spec (single_sub (by decide : Token.lparen ∈ singles)) here).mono ?_
        (fun _ _ stop => stop.elim)
      rintro _ s₁ ⟨here, rfl, _⟩
      rw [if_pos ((starts_single (by decide : Token.lparen ∈ singles)).mpr ⟨_, rfl⟩)]
      cases fuel with
      | zero => rfl
      | succ fuel =>
        rw [parseblock]
        apply sat_accept (by decide : Token.lparen ∈ singles) here
        · intro post s₂ is here
          obtain ⟨_, rfl⟩ := List.cons.inj is
          refine .bind (ih (.cons (by decide) _) s₂ fuel here) ?_
          rintro cmd s₃ ⟨here, reads⟩
          apply sat_accept (by decide : Token.rparen ∈ singles) here
          · intro post s₄ is here
            obtain ⟨_, rfl⟩ := List.cons.inj is
            exact parseredirs_complete redirs here ends.exec_cases.1 reads
          · intro none
            cases none
        · intro none
          cases none
  | @command ts us ws rs qs redirs args few =>
    cases fuel with
    | zero => rfl
    | succ fuel =>
      have plain := redirs.starts_lparen args ends
      rw [List.append_assoc] at here
      rw [Nonterminal.parse, parseexec, sat_bind]
      refine (peek_spec (single_sub (by decide : Token.lparen ∈ singles)) here).mono ?_
        (fun _ _ stop => stop.elim)
      rintro _ s₁ ⟨here, rfl, _⟩
      rw [if_neg (by rw [plain]; decide), sat_bind]
      refine (parseredirs_complete redirs here (args.starts_redir ends) (.exec mem)).imp ?_
      rintro cmd s₂ ⟨here, reads⟩
      change Sat (parseargs mem (strlen mem) fuel cmd ([] : List Word).length) s₂ _ _
      exact parseargs_complete args here ends few reads

end Xv6.Sh
