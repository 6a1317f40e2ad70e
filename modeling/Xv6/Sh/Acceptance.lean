import Xv6.Sh.Parsing
import Xv6.Sh.Printing

/-! `parsecmd` accepts the lines of the grammar. The NUL behind a word takes the place of a
character that is in no word, so no word loses a character to another. -/
namespace Xv6.Sh
open Control

section Terminate
variable {mem : List UInt8}

theorem byte_set (mem : List UInt8) (k i : Nat) :
    byte (mem.set k 0) i = if i = k then 0 else byte mem i := by
  rw [byte, byte, List.getD_eq_getElem?_getD, List.getD_eq_getElem?_getD, List.getElem?_set]
  by_cases here : i = k
  · subst here
    rw [if_pos rfl, if_pos rfl]
    split <;> rfl
  · rw [if_neg (Ne.symm here), if_neg here]

theorem byte_foldl (words : List Span) (mem : List UInt8) (i : Nat) :
    byte (words.foldl (fun mem word => mem.set word.eq 0) mem) i =
      if i ∈ words.map Span.eq then 0 else byte mem i := by
  induction words generalizing mem with
  | nil => rfl
  | cons word words ih =>
    rw [List.foldl_cons, ih, byte_set, List.map_cons]
    by_cases later : i ∈ words.map Span.eq
    · rw [if_pos later, if_pos (List.mem_cons_of_mem _ later)]
    · rw [if_neg later]
      by_cases here : i = word.eq
      · rw [if_pos here, if_pos (List.mem_cons.mpr (Or.inl here))]
      · rw [if_neg here, if_neg fun member => (List.mem_cons.mp member).elim here later]

/-- `nulterminate` goes through the words in order. -/
theorem nulterminate_eq (cmd : Cmd Span) (mem : List UInt8) :
    nulterminate cmd mem = cmd.words.foldl (fun mem word => mem.set word.eq 0) mem := by
  induction cmd generalizing mem with
  | exec argv => rfl
  | redir cmd file mode fd ih => rw [nulterminate, Cmd.words, List.foldl_append, ih]; rfl
  | pipe left right ihl ihr => rw [nulterminate, Cmd.words, List.foldl_append, ihl, ihr]
  | list left right ihl ihr => rw [nulterminate, Cmd.words, List.foldl_append, ihl, ihr]
  | back cmd ih => exact ih mem

theorem strlen_eq {n : Nat} (filled : ∀ i < n, byte mem i ≠ 0) (zero : byte mem n = 0) :
    strlen mem = n := by
  by_contra other
  obtain less | more := Nat.lt_or_gt_of_ne other
  · exact filled _ less (byte_end mem)
  · exact (text_cons more).1 zero

theorem byte_drop (q i : Nat) : byte (mem.drop q) i = byte mem (q + i) := by
  rw [byte, byte, List.getD_eq_getElem?_getD, List.getD_eq_getElem?_getD, List.getElem?_drop]

/-- The string at `q` has the bytes up to the first NUL. -/
theorem cString_eq {q n : Nat} (filled : ∀ i < n, byte mem (q + i) ≠ 0) (zero : byte mem (q + n) = 0) :
    (cString mem q).length = n ∧ ∀ i < n, (cString mem q)[i]? = some (byte mem (q + i)) := by
  have length : strlen (mem.drop q) = n :=
    strlen_eq (fun i below => by rw [byte_drop]; exact filled i below) (by rw [byte_drop]; exact zero)
  refine ⟨length, fun i below => ?_⟩
  have char : (text (mem.drop q) 0)[i - 0]? = some (byte (mem.drop q) i) :=
    text_getElem? (Nat.zero_le i) (by omega)
  rwa [byte_drop] at char

/-- Each word of a command, read as a C string after `nulterminate`, is the word. -/
theorem cString_nulterminate {cmd : Cmd Span} (words : ∀ w ∈ cmd.words, IsWord mem w) {w : Span}
    (member : w ∈ cmd.words) : cString (nulterminate cmd mem) w.q = slice mem w := by
  have word := words w member
  have order := word.order
  have bound := word.bound
  have byte_eq : ∀ i, byte (nulterminate cmd mem) i =
      if i ∈ cmd.words.map Span.eq then 0 else byte mem i := fun i => by
    rw [nulterminate_eq, byte_foldl]
  -- No NUL is written into a word: it would stand for a character of the word.
  have kept : ∀ i < w.eq - w.q, byte (nulterminate cmd mem) (w.q + i) = byte mem (w.q + i) := by
    intro i below
    rw [byte_eq, if_neg]
    intro ended
    obtain ⟨v, other, is⟩ := List.mem_map.mp ended
    have stop := (words v other).stop (by omega)
    rw [is, word.chars _ (by omega) (by omega)] at stop
    cases stop
  have zero : byte (nulterminate cmd mem) (w.q + (w.eq - w.q)) = 0 := by
    rw [byte_eq, if_pos]
    rw [Nat.add_sub_of_le order]
    exact List.mem_map_of_mem member
  have filled : ∀ i < w.eq - w.q, byte (nulterminate cmd mem) (w.q + i) ≠ 0 := by
    intro i below
    rw [kept i below]
    exact (text_cons (by omega)).1
  obtain ⟨length, chars⟩ := cString_eq filled zero
  have whole := length_text (word.order.trans word.bound)
  apply List.ext_getElem?
  intro i
  by_cases below : i < w.eq - w.q
  · rw [chars i below, kept i below, slice, List.getElem?_take_of_lt below]
    have char : (text mem w.q)[w.q + i - w.q]? = some (byte mem (w.q + i)) :=
      text_getElem? (by omega) (by omega)
    rw [Nat.add_sub_cancel_left] at char
    exact char.symm
  · rw [List.getElem?_eq_none (by omega), List.getElem?_eq_none]
    rw [slice, List.length_take]
    omega

theorem map_congr {S T : Type} {f g : S → T} {cmd : Cmd S} (same : ∀ w ∈ cmd.words, f w = g w) :
    cmd.map f = cmd.map g := by
  induction cmd with
  | exec argv => exact congrArg Cmd.exec (List.map_congr_left same)
  | redir cmd file mode fd ih =>
    rw [Cmd.map, Cmd.map, ih fun w member => same w (List.mem_append_left _ member),
      same file (List.mem_append_right _ List.mem_cons_self)]
  | pipe left right ihl ihr =>
    rw [Cmd.map, Cmd.map, ihl fun w member => same w (List.mem_append_left _ member),
      ihr fun w member => same w (List.mem_append_right _ member)]
  | list left right ihl ihr =>
    rw [Cmd.map, Cmd.map, ihl fun w member => same w (List.mem_append_left _ member),
      ihr fun w member => same w (List.mem_append_right _ member)]
  | back cmd ih => rw [Cmd.map, Cmd.map, ih same]

theorem Reads.terminated {cmd : Cmd Span} {t : Cmd Word} (reads : Reads mem cmd t) :
    cmd.map (fun w => cString (nulterminate cmd mem) w.q) = t := by
  rw [← reads.tree]
  exact map_congr fun w member => cString_nulterminate reads.words member

end Terminate

/-- `parsecmd` returns a command whose words, read as C strings, make it the command `t`. -/
def Accepts (fuel : Nat) (mem : List UInt8) (t : Cmd Word) : Prop :=
  ∃ cmd mem' s, (parsecmd mem fuel).run 0 = .ok (cmd, mem') s ∧
    cmd.map (fun w => cString mem' w.q) = t

/-- The rounds of recursion that a line can need. -/
def rounds (mem : List UInt8) : Nat := 4 * strlen mem + 4

section Accept
variable {mem : List UInt8} {fuel : Nat} {t : Cmd Word}

theorem tokens_length (cs : List UInt8) : (tokens cs).length ≤ cs.length := by
  induction cs using tokens.induct with
  | case1 => exact (congrArg List.length tokens.eq_1).le
  | case2 c cs space ih =>
    rw [tokens, if_pos space, List.length_cons]
    omega
  | case3 c cs dark ih =>
    have shorter := firstToken_length c cs
    rw [tokens, if_neg dark, List.length_cons, List.length_cons]
    omega

theorem At.start (mem : List UInt8) : At mem 0 (tokens (line mem)) := ⟨Nat.zero_le _, rfl⟩

theorem parsecmd_sound (mem : List UInt8) (fuel : Nat) :
    Sat (parsecmd mem fuel) 0 (fun r _ => Derives .line (tokens (line mem))
      (r.1.map fun w => cString r.2 w.q)) (fun e _ => Halts (fuel < rounds mem) e) := by
  have short := tokens_length (line mem)
  have most : 4 * (line mem).length + 4 = rounds mem := rfl
  rw [parsecmd]
  refine .seq ((parse_sound mem fuel).1 0 _ (.start mem)) ?_
    (fun e s' stop => stop.mono fun few => by omega)
  rintro cmd s₁ ⟨pre, rest, t, split, here, derives, reads⟩
  refine .seq (peek_spec (List.nil_subset _) here) ?_ (fun _ _ stop => stop.elim)
  rintro _ s₂ ⟨here, _, _⟩
  rw [sat_bind, sat_get]
  split
  · exact .panic _
  · rename_i last
    have none : rest = [] := by
      rw [← here.ahead, text_end (not_not.mp last).ge, tokens]
    rw [none, List.append_nil] at split
    rw [sat_pure, split, reads.terminated]
    exact derives

theorem parsecmd_complete (derives : Derives .line (tokens (line mem)) t) :
    Sat (parsecmd mem fuel) 0 (fun r _ => r.1.map (fun w => cString r.2 w.q) = t)
      (fun e _ => e = .spin) := by
  have here := At.start mem
  rw [← List.append_nil (tokens (line mem))] at here
  have ends : Nonterminal.line.Ends [] := fun token head => by cases head
  have parsed : Sat (parseline mem (strlen mem) fuel) 0 _ _ := derives.parse ends 0 fuel here
  rw [parsecmd, sat_bind]
  refine parsed.imp ?_
  rintro cmd s₁ ⟨here, reads⟩
  refine .seq (peek_spec (List.nil_subset _) here) ?_ (fun _ _ stop => stop.elim)
  rintro _ s₂ ⟨_, _, last⟩
  rw [sat_bind, sat_get, if_neg (not_not.mpr (last rfl)), sat_pure]
  exact reads.terminated

/-- With enough rounds `parsecmd` ends, and it returns the commands of the grammar. -/
theorem accepts_iff (enough : rounds mem ≤ fuel) (t : Cmd Word) :
    Accepts fuel mem t ↔ Derives .line (tokens (line mem)) t := by
  constructor
  · rintro ⟨cmd, mem', s, run, rfl⟩
    exact (parsecmd_sound mem fuel).of_ok run
  · intro derives
    have parsed : Sat (parsecmd mem fuel) 0 (fun r _ => r.1.map (fun w => cString r.2 w.q) = t)
        (fun _ _ => False) := by
      refine ((parsecmd_sound mem fuel).and (parsecmd_complete derives)).mono
        (fun r s both => both.2) (fun e s both => ?_)
      obtain ⟨halts, rfl⟩ := both
      cases halts with
      | spin short => omega
    obtain ⟨⟨cmd, mem'⟩, s, run, tree⟩ := parsed.returns
    exact ⟨cmd, mem', s, run, tree⟩

/-- The grammar gives a line one command: the one that `parsecmd` returns. -/
theorem derives_unique {u : Cmd Word} (left : Derives .line (tokens (line mem)) t)
    (right : Derives .line (tokens (line mem)) u) : t = u := by
  obtain ⟨cmd, mem', s, run, rfl⟩ := (accepts_iff le_rfl t).mpr left
  obtain ⟨cmd', mem'', s', run', rfl⟩ := (accepts_iff le_rfl u).mpr right
  rw [run] at run'
  obtain ⟨pair, _⟩ := EStateM.Result.ok.inj run'
  obtain ⟨rfl, rfl⟩ := Prod.mk.inj pair
  rfl

theorem panics_of_none (enough : rounds mem ≤ fuel)
    (none : ∀ t, ¬ Derives .line (tokens (line mem)) t) :
    ∃ msg s, (parsecmd mem fuel).run 0 = .error (.panic msg) s := by
  cases run : (parsecmd mem fuel).run 0 with
  | ok r s => exact absurd ((parsecmd_sound mem fuel).of_ok run) (none _)
  | error e s =>
    cases (parsecmd_sound mem fuel).of_error run with
    | panic msg => exact ⟨msg, s, rfl⟩
    | spin short => omega

end Accept

/-- `parsecmd` accepts the lines of the grammar and gives the command the grammar gives;
every other line ends in a panic. A command that can be written is the command of the line
that is printed for it. -/
theorem parsecmd_accepts_grammar :
    (∀ mem fuel, rounds mem ≤ fuel →
      (∀ t, Accepts fuel mem t ↔ Derives .line (tokens (line mem)) t) ∧
      ((∃ t, Accepts fuel mem t) ∨ ∃ msg s, (parsecmd mem fuel).run 0 = .error (.panic msg) s)) ∧
    (∀ mem t u, Derives .line (tokens (line mem)) t → Derives .line (tokens (line mem)) u → t = u) ∧
    (∀ t : Cmd Word, t.Proper ↔ ∃ mem, Derives .line (tokens (line mem)) t) ∧
    ∀ t : Cmd Word, t.Proper → ∀ fuel, rounds (print t ++ [0]) ≤ fuel →
      Accepts fuel (print t ++ [0]) t := by
  have printed : ∀ t : Cmd Word, t.Proper → Derives .line (tokens (line (print t ++ [0]))) t := by
    intro t proper
    rw [line_print proper, tokens_print proper]
    exact printTokens_derives proper
  refine ⟨fun mem fuel enough => ⟨accepts_iff enough, ?_⟩, fun mem t u => derives_unique,
    fun t => ⟨fun proper => ?_, ?_⟩,
    fun t proper fuel enough => (accepts_iff enough t).mpr (printed t proper)⟩
  · by_cases derives : ∃ t, Derives .line (tokens (line mem)) t
    · obtain ⟨t, derives⟩ := derives
      exact Or.inl ⟨t, (accepts_iff enough t).mpr derives⟩
    · exact Or.inr (panics_of_none enough (not_exists.mp derives))
  · exact ⟨_, printed t proper⟩
  · rintro ⟨mem, derives⟩
    refine derives.proper (tokens_spelled fun c member => ?_)
    simpa using List.all_eq_true.mp List.all_takeWhile c member

/-- The line `ls>f;(wc)&` and its command. -/
def smallLine : List UInt8 := chars ['l', 's', '>', 'f', ';', '(', 'w', 'c', ')', '&'] ++ [0]

def smallCommand : Cmd Word :=
  .list (.redir (.exec [chars ['l', 's']]) (chars ['f']) (O_WRONLY ||| O_CREATE) 1)
    (.back (.exec [chars ['w', 'c']]))

theorem smallLine_derived : Derives .line (tokens (line smallLine)) smallCommand := by
  have result : value (parsecmd smallLine 44) 0 =
      some (.list (.redir (.exec [⟨0, 2⟩]) ⟨3, 4⟩ (O_WRONLY ||| O_CREATE) 1) (.back (.exec [⟨6, 8⟩])),
        [108, 115, 0, 102, 0, 40, 119, 99, 0, 38, 0]) := by
    decide +kernel
  refine ((parsecmd_accepts_grammar.1 smallLine 44 (by decide)).1 smallCommand).mp ?_
  exact ⟨_, _, _, run_of_value result, by decide⟩

end Xv6.Sh
