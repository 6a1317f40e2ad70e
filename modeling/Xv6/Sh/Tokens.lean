import Xv6.Sh.Grammar
import Xv6.Lib.Control

/-! The tokens as `peek` and `gettoken` find them, one after the other, along the line. -/
namespace Xv6.Sh
open Control

/-- The characters of the line from `s` on. -/
def text (mem : List UInt8) (s : Nat) : List UInt8 := (line mem).drop s

section Text
variable {mem : List UInt8} {s : Nat}

theorem line_cons {c : UInt8} (filled : c ≠ 0) : line (c :: mem) = c :: line mem :=
  List.takeWhile_cons_of_pos (by simpa using filled)

theorem strlen_cons {c : UInt8} (filled : c ≠ 0) : strlen (c :: mem) = strlen mem + 1 := by
  rw [strlen, line_cons filled, List.length_cons, strlen]

theorem text_cons (below : s < strlen mem) :
    byte mem s ≠ 0 ∧ text mem s = byte mem s :: text mem (s + 1) := by
  induction mem generalizing s with
  | nil => exact absurd below (Nat.not_lt_zero s)
  | cons c mem ih =>
    by_cases zero : c = 0
    · subst zero
      exact absurd below (Nat.not_lt_zero s)
    · rw [strlen_cons zero] at below
      rw [text, text, line_cons zero]
      cases s with
      | zero => exact ⟨zero, rfl⟩
      | succ s => exact ih (by omega)

theorem text_end (above : strlen mem ≤ s) : text mem s = [] := List.drop_eq_nil_of_le above

theorem text_add (n : Nat) : text mem (s + n) = (text mem s).drop n := by
  rw [text, text, List.drop_drop]

theorem text_getElem? {i : Nat} (low : s ≤ i) (below : i < strlen mem) :
    (text mem s)[i - s]? = some (byte mem i) := by
  rw [← List.head?_drop, ← text_add, Nat.add_sub_of_le low, (text_cons below).2]
  rfl

theorem byte_end (mem : List UInt8) : byte mem (strlen mem) = 0 := by
  induction mem with
  | nil => rfl
  | cons c mem ih =>
    by_cases zero : c = 0
    · subst zero
      rfl
    · rw [strlen_cons zero]
      exact ih

theorem head?_text {c : UInt8} (inside : s ≤ strlen mem) (filled : c ≠ 0) :
    (text mem s).head? = some c ↔ byte mem s = c := by
  obtain rfl | below := Nat.eq_or_lt_of_le inside
  · rw [text_end le_rfl, byte_end]
    exact ⟨fun is => (by cases is), fun is => absurd is.symm filled⟩
  · rw [(text_cons below).2, List.head?_cons]
    exact Option.some_inj

theorem length_text (inside : s ≤ strlen mem) : s + (text mem s).length = strlen mem := by
  rw [text, List.length_drop]
  exact Nat.add_sub_of_le inside

/-- A loop over characters stops behind the longest run of them. -/
theorem scan_eq (p : UInt8 → Bool) (inside : s ≤ strlen mem) :
    scan mem (strlen mem) p s = s + ((text mem s).takeWhile p).length := by
  obtain ⟨left, is⟩ : ∃ left, left = strlen mem - s := ⟨_, rfl⟩
  rw [scan, ← is]
  induction left generalizing s with
  | zero =>
    rw [text_end (by omega)]
    rfl
  | succ left ih =>
    rw [scanLoop, (text_cons (by omega)).2]
    by_cases run : p (byte mem s) = true
    · rw [if_pos run, List.takeWhile_cons_of_pos run, ih (by omega) (by omega), List.length_cons]
      omega
    · rw [if_neg run, List.takeWhile_cons_of_neg run]
      rfl

theorem scan_text (p : UInt8 → Bool) (inside : s ≤ strlen mem) :
    scan mem (strlen mem) p s ≤ strlen mem ∧
      text mem (scan mem (strlen mem) p s) = (text mem s).dropWhile p := by
  have split := List.takeWhile_append_dropWhile (p := p) (l := text mem s)
  rw [scan_eq p inside]
  constructor
  · have whole := length_text inside
    have parts := congrArg List.length split
    rw [List.length_append] at parts
    omega
  · rw [text_add]
    nth_rewrite 2 [← split]
    exact List.drop_left

end Text

/-- The value of a token in the source. -/
def Token.code : Token → UInt8
  | .word _ => 'a'.toUInt8
  | .bar => '|'.toUInt8
  | .lparen => '('.toUInt8
  | .rparen => ')'.toUInt8
  | .semi => ';'.toUInt8
  | .amp => '&'.toUInt8
  | .less => '<'.toUInt8
  | .greater => '>'.toUInt8
  | .append => '+'.toUInt8

/-- The token begins with one of the characters `toks`, which are symbols. -/
def Token.starts (toks : List UInt8) : Token → Bool
  | .word _ => false
  | .append => strchr toks '>'.toUInt8
  | token => strchr toks token.code

section Symbols
variable {c : UInt8} {token : Token}

theorem symbol_some (found : symbol c = some token) : token.code = c ∧
    strchr (chars ['|', '(', ')', ';', '&', '<']) c = true ∧
    (∀ toks, token.starts toks = strchr toks c) ∧ ∀ w, token ≠ .word w := by
  have spelled : token.text = [c] := by simpa using List.find?_some found
  have single : token ∈ singles := List.mem_of_find?_eq_some found
  have each : ∀ token ∈ singles, token.text = [token.code] ∧
      strchr (chars ['|', '(', ')', ';', '&', '<']) token.code = true ∧
      (∀ toks, token.starts toks = strchr toks token.code) ∧ ∀ w, token ≠ .word w := by
    intro token single
    simp only [singles, List.mem_cons, List.not_mem_nil, or_false] at single
    rcases single with rfl | rfl | rfl | rfl | rfl | rfl <;>
      exact ⟨rfl, rfl, fun _ => rfl, fun w is => by cases is⟩
  obtain ⟨text, rest⟩ := each token single
  have code : token.code = c := by
    rw [text] at spelled
    exact (List.cons.inj spelled).1
  rw [code] at rest
  exact ⟨code, rest⟩

theorem symbol_none (missing : symbol c = none) :
    strchr (chars ['|', '(', ')', ';', '&', '<']) c = false := by
  rw [symbol, List.find?_eq_none] at missing
  rw [strchr, Bool.eq_false_iff, ne_eq, List.contains_iff_mem]
  intro member
  have spelling : (chars ['|', '(', ')', ';', '&', '<']).map ([·]) = singles.map Token.text := rfl
  have listed := List.mem_map_of_mem (f := ([·])) member
  rw [spelling] at listed
  obtain ⟨token, single, spelled⟩ := List.mem_map.mp listed
  exact missing token single (decide_eq_true spelled)

/-- A character that is no white space and begins no other token is in a word. -/
theorem wordChar_of_symbol_none (missing : symbol c = none) (other : c ≠ '>'.toUInt8)
    (dark : strchr whitespace c = false) : wordChar c = true := by
  have rest := symbol_none missing
  rw [strchr, Bool.eq_false_iff, ne_eq, List.contains_iff_mem] at rest
  have plain : strchr symbols c = false := by
    rw [strchr, Bool.eq_false_iff, ne_eq, List.contains_iff_mem]
    intro member
    have each : ∀ d ∈ symbols, d ∈ chars ['|', '(', ')', ';', '&', '<'] ∨ d = '>'.toUInt8 := by
      decide +kernel
    exact (each c member).elim rest other
  rw [wordChar, dark, plain]
  rfl

/-- No word begins with a symbol. -/
theorem wordChar_starts (word : wordChar c = true) {toks : List UInt8} (sub : toks ⊆ symbols) :
    strchr toks c = false := by
  rw [strchr, Bool.eq_false_iff, ne_eq, List.contains_iff_mem]
  intro member
  have found : strchr symbols c = true := by
    rw [strchr, List.contains_iff_mem]
    exact sub member
  rw [wordChar, found] at word
  simp at word

end Symbols

/-- The line from `s` on has the tokens `ts`. -/
structure At (mem : List UInt8) (s : Nat) (ts : List Token) : Prop where
  inside : s ≤ strlen mem
  ahead : tokens (text mem s) = ts

/-- The characters between the pointers. -/
def slice (mem : List UInt8) (w : Span) : Word := (text mem w.q).take (w.eq - w.q)

/-- The pointers delimit a run of word characters that ends at another character or at the
end of the line. -/
structure IsWord (mem : List UInt8) (w : Span) : Prop where
  order : w.q ≤ w.eq
  bound : w.eq ≤ strlen mem
  chars : ∀ i, w.q ≤ i → i < w.eq → wordChar (byte mem i) = true
  stop : w.eq < strlen mem → wordChar (byte mem w.eq) = false

theorem tokens_dropWhile (cs : List UInt8) : tokens (cs.dropWhile (strchr whitespace)) = tokens cs := by
  induction cs with
  | nil => rfl
  | cons c cs ih =>
    by_cases space : strchr whitespace c = true
    · rw [List.dropWhile_cons_of_pos space, ih, tokens, if_pos space]
    · rw [List.dropWhile_cons_of_neg space]

section Scan
variable {mem : List UInt8} {s : Nat} {ts : List Token}

/-- Behind white space the line ends, or its next token begins. -/
theorem At.skip (here : At mem s ts) :
    At mem (scan mem (strlen mem) (strchr whitespace) s) ts ∧
    (scan mem (strlen mem) (strchr whitespace) s = strlen mem ∧ ts = [] ∨
      scan mem (strlen mem) (strchr whitespace) s < strlen mem ∧
      strchr whitespace (byte mem (scan mem (strlen mem) (strchr whitespace) s)) = false) := by
  obtain ⟨inside, rest⟩ := scan_text (strchr whitespace) here.inside
  have there : At mem (scan mem (strlen mem) (strchr whitespace) s) ts :=
    ⟨inside, by rw [rest, tokens_dropWhile, here.ahead]⟩
  refine ⟨there, ?_⟩
  generalize scan mem (strlen mem) (strchr whitespace) s = q at *
  obtain ends | below := Nat.eq_or_lt_of_le inside
  · refine Or.inl ⟨ends, ?_⟩
    rw [← there.ahead, text_end (by omega), tokens]
  · refine Or.inr ⟨below, ?_⟩
    rw [(text_cons below).2] at rest
    by_contra space
    have dark := List.head?_dropWhile_not (strchr whitespace) (text mem s)
    rw [← rest] at dark
    exact space (by simpa using dark)

theorem starts_byte {toks : List UInt8} (sub : toks ⊆ symbols) (below : s < strlen mem)
    (dark : strchr whitespace (byte mem s) = false) (here : At mem s ts) :
    ∃ token rest, ts = token :: rest ∧ token.starts toks = strchr toks (byte mem s) := by
  have tokens_ := here.ahead
  rw [(text_cons below).2, tokens, if_neg (by rw [dark]; decide), firstToken] at tokens_
  cases found : symbol (byte mem s) with
  | some token =>
    rw [found] at tokens_
    exact ⟨token, _, tokens_.symm, (symbol_some found).2.2.1 toks⟩
  | none =>
    rw [found] at tokens_
    by_cases greater : byte mem s = '>'.toUInt8
    · dsimp only at tokens_
      rw [if_pos greater] at tokens_
      rw [greater]
      split at tokens_
      · exact ⟨_, _, tokens_.symm, rfl⟩
      · exact ⟨_, _, tokens_.symm, rfl⟩
    · dsimp only at tokens_
      rw [if_neg greater] at tokens_
      exact ⟨_, _, tokens_.symm,
        (wordChar_starts (wordChar_of_symbol_none found greater dark) sub).symm⟩

/-- The next token begins with one of the characters `toks`. -/
def starts (toks : List UInt8) (ts : List Token) : Bool := ts.head?.any (Token.starts toks)

theorem peek_spec {toks : List UInt8} (sub : toks ⊆ symbols) (here : At mem s ts) :
    Sat (peek mem (strlen mem) toks) s (fun b s' => At mem s' ts ∧ b = starts toks ts ∧
      (ts = [] → s' = strlen mem)) (fun _ _ => False) := by
  rw [peek, sat_bind, sat_get, sat_bind, sat_set, sat_pure]
  obtain ⟨there, ends | ⟨below, dark⟩⟩ := here.skip
  · refine ⟨there, ?_, fun _ => ends.1⟩
    rw [ends.1, ends.2, byte_end]
    rfl
  · obtain ⟨token, rest, rfl, same⟩ := starts_byte sub below dark there
    refine ⟨there, ?_, nofun⟩
    rw [starts, List.head?_cons, Option.any_some, same, decide_eq_true (text_cons below).1,
      Bool.true_and]

/-- What `gettoken` returns. -/
def nextCode (ts : List Token) : UInt8 := (ts.head?.map Token.code).getD 0

/-- What `gettoken` finds, for the token that is ahead. -/
structure Found (mem : List UInt8) (s : Nat) (ts : List Token) (r : UInt8 × Nat) : Prop where
  code : r.1 = nextCode ts
  bound : r.2 ≤ strlen mem
  rest : tokens (text mem r.2) = ts.tail
  word : ∀ w, ts.head? = some (.word w) → slice mem ⟨s, r.2⟩ = w ∧ IsWord mem ⟨s, r.2⟩

theorem isWord_scan (inside : s ≤ strlen mem) :
    IsWord mem ⟨s, scan mem (strlen mem) wordChar s⟩ ∧
      slice mem ⟨s, scan mem (strlen mem) wordChar s⟩ = (text mem s).takeWhile wordChar := by
  obtain ⟨bound, rest⟩ := scan_text wordChar inside
  have run : slice mem ⟨s, scan mem (strlen mem) wordChar s⟩ = (text mem s).takeWhile wordChar := by
    rw [slice, scan_eq wordChar inside, Nat.add_sub_cancel_left]
    exact (List.prefix_iff_eq_take.mp (List.takeWhile_prefix wordChar)).symm
  have order : s ≤ scan mem (strlen mem) wordChar s := by
    rw [scan_eq wordChar inside]
    exact Nat.le_add_right _ _
  refine ⟨⟨order, bound, fun i low high => ?_, fun below => ?_⟩, run⟩
  · dsimp only at low high
    have member : byte mem i ∈ (text mem s).takeWhile wordChar := by
      rw [← run, slice, List.mem_iff_getElem?]
      dsimp only
      exact ⟨i - s, by rw [List.getElem?_take_of_lt (by omega), text_getElem? low (by omega)]⟩
    exact List.all_eq_true.mp List.all_takeWhile _ member
  · rw [(text_cons below).2] at rest
    have stop := List.head?_dropWhile_not wordChar (text mem s)
    rw [← rest] at stop
    simpa using stop

theorem tokenAt_found (here : At mem s ts)
    (ahead : s = strlen mem ∧ ts = [] ∨
      s < strlen mem ∧ strchr whitespace (byte mem s) = false) :
    Found mem s ts (tokenAt mem (strlen mem) s) := by
  obtain ⟨rfl, rfl⟩ | ⟨below, dark⟩ := ahead
  · rw [tokenAt, byte_end, if_pos rfl]
    exact ⟨rfl, le_rfl, here.ahead, fun w is => by cases is⟩
  · obtain ⟨filled, next⟩ := text_cons below
    have ahead := here.ahead
    rw [next, tokens, if_neg (by rw [dark]; decide), firstToken] at ahead
    rw [tokenAt, if_neg filled]
    cases found : symbol (byte mem s) with
    | some token =>
      obtain ⟨code, single, _, other⟩ := symbol_some found
      rw [found] at ahead
      rw [if_pos single, ← ahead]
      exact ⟨code.symm, below, rfl, fun w is => absurd (Option.some.inj is) (other w)⟩
    | none =>
      rw [found] at ahead
      rw [if_neg (by rw [symbol_none found]; decide)]
      dsimp only at ahead
      by_cases greater : byte mem s = '>'.toUInt8
      · rw [if_pos greater] at ahead ⊢
        by_cases again : byte mem (s + 1) = '>'.toUInt8
        · have more : s + 1 < strlen mem := by
            by_contra ends
            rw [show s + 1 = strlen mem by omega, byte_end] at again
            exact absurd again (by decide)
          rw [if_pos ((head?_text below (by decide)).mpr again), (text_cons more).2] at ahead
          rw [if_pos again, ← ahead]
          exact ⟨rfl, more, rfl, fun w is => by cases is⟩
        · rw [if_neg (fun head => again ((head?_text below (by decide)).mp head))] at ahead
          rw [if_neg again, ← ahead]
          exact ⟨greater, below, rfl, fun w is => by cases is⟩
      · rw [if_neg greater] at ahead ⊢
        have word := wordChar_of_symbol_none found greater dark
        obtain ⟨isWord, run⟩ := isWord_scan here.inside
        obtain ⟨bound, rest⟩ := scan_text wordChar here.inside
        rw [next, List.takeWhile_cons_of_pos word] at run
        rw [next, List.dropWhile_cons_of_pos word] at rest
        rw [← ahead]
        refine ⟨rfl, bound, by rw [rest]; rfl, fun w is => ⟨?_, isWord⟩⟩
        rw [run]
        exact Token.word.inj (Option.some.inj is)

/-- `gettoken` returns the code of the next token and moves behind it. -/
theorem gettoken_spec (here : At mem s ts) :
    Sat (gettoken mem (strlen mem)) s (fun r s' => At mem s' ts.tail ∧
      r.1 = nextCode ts ∧
      ∀ w, ts.head? = some (.word w) → slice mem r.2 = w ∧ IsWord mem r.2) (fun _ _ => False) := by
  rw [gettoken, sat_bind, sat_get, sat_bind, sat_set, sat_pure]
  obtain ⟨there, ahead⟩ := here.skip
  have found := tokenAt_found there ahead
  have next : At mem (tokenAt mem (strlen mem) (scan mem (strlen mem) (strchr whitespace) s)).2
      ts.tail := ⟨found.bound, found.rest⟩
  exact ⟨next.skip.1, found.code, found.word⟩

end Scan

end Xv6.Sh
