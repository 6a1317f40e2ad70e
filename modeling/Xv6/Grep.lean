import Mathlib.Computability.Language

/-! The command `grep`: its pattern matcher, and the loop that cuts what `read` delivers into
lines. A string is the list of its characters, without the zero byte at its end. -/
namespace Xv6.Grep
open Computability

def star : UInt8 := 42
def dot : UInt8 := 46
def dollar : UInt8 := 36
def caret : UInt8 := 94
def newline : UInt8 := 10

section Matcher

/-- `matchstar`, for the search `here` that `matchhere` makes for the rest of the pattern. -/
def matchstar (here : List UInt8 → Bool) (c : UInt8) : List UInt8 → Bool
  | [] => here []
  | t :: text => here (t :: text) || (decide (t = c ∨ c = dot) && matchstar here c text)

/-- The last two lines of `matchhere`. -/
def matchone (c : UInt8) (here : List UInt8 → Bool) : List UInt8 → Bool
  | [] => false
  | t :: text => decide (c = dot ∨ c = t) && here text

def matchhere : List UInt8 → List UInt8 → Bool
  | [], _ => true
  | [c], text => if c = dollar then text.isEmpty else matchone c (matchhere []) text
  | c :: d :: re, text =>
    if d = star then matchstar (matchhere re) c text else matchone c (matchhere (d :: re)) text

/-- The loop of `match`. -/
def matchFrom (re : List UInt8) : List UInt8 → Bool
  | [] => matchhere re []
  | t :: text => matchhere re (t :: text) || matchFrom re text

def matchRe (re text : List UInt8) : Bool :=
  if re.head? = some caret then matchhere re.tail text else matchFrom re text

/-- What stands for one character in a pattern. -/
def atom (c : UInt8) : Language UInt8 := {w | ∃ t, (c = dot ∨ t = c) ∧ w = [t]}

/-- The language of a pattern, its anchors apart. -/
def language : List UInt8 → Language UInt8
  | [] => 1
  | [c] => if c = dollar then 1 else atom c
  | c :: d :: re => if d = star then (atom c)∗ * language re else atom c * language (d :: re)

/-- The pattern ends with an anchor. -/
def anchored : List UInt8 → Bool
  | [] => false
  | [c] => c = dollar
  | _ :: d :: re => if d = star then anchored re else anchored (d :: re)

/-- The pattern is found at the beginning of the text. -/
def Found (re text : List UInt8) : Prop :=
  ∃ sub rest, text = sub ++ rest ∧ sub ∈ language re ∧ (anchored re = true → rest = [])

theorem mem_kstar_atom {c : UInt8} {w : List UInt8} :
    w ∈ (atom c)∗ ↔ ∀ t ∈ w, c = dot ∨ t = c := by
  rw [Language.mem_kstar]
  constructor
  · rintro ⟨pieces, rfl, each⟩ t member
    obtain ⟨piece, listed, inside⟩ := List.mem_flatten.mp member
    obtain ⟨u, accepted, rfl⟩ := each piece listed
    obtain rfl := List.mem_singleton.mp inside
    exact accepted
  · intro each
    refine ⟨w.map ([·]), ?_, ?_⟩
    · induction w with
      | nil => rfl
      | cons t w ih => simpa using ih fun u member => each u (List.mem_cons_of_mem t member)
    · intro piece listed
      obtain ⟨t, member, rfl⟩ := List.mem_map.mp listed
      exact ⟨t, each t member, rfl⟩

/-- The loop tries every run of characters that the star allows. -/
theorem matchstar_iff {here : List UInt8 → Bool} {c : UInt8} {text : List UInt8} :
    matchstar here c text = true ↔
      ∃ run rest, text = run ++ rest ∧ run ∈ (atom c)∗ ∧ here rest = true := by
  simp only [mem_kstar_atom]
  induction text with
  | nil =>
    constructor
    · exact fun found => ⟨[], [], rfl, nofun, found⟩
    · rintro ⟨run, rest, split, _, found⟩
      obtain ⟨_, rfl⟩ := List.append_eq_nil_iff.mp split.symm
      exact found
  | cons t text ih =>
    rw [matchstar, Bool.or_eq_true, Bool.and_eq_true, decide_eq_true_eq, ih]
    constructor
    · rintro (found | ⟨accepted, run, rest, rfl, each, found⟩)
      · exact ⟨[], t :: text, rfl, nofun, found⟩
      · exact ⟨t :: run, rest, rfl, List.forall_mem_cons.mpr ⟨accepted.symm, each⟩, found⟩
    · rintro ⟨_ | ⟨u, run⟩, rest, split, each, found⟩
      · rw [List.nil_append] at split
        exact Or.inl (split ▸ found)
      · obtain ⟨rfl, rfl⟩ := List.cons.inj split
        obtain ⟨accepted, each⟩ := List.forall_mem_cons.mp each
        exact Or.inr ⟨accepted.symm, run, rest, rfl, each, found⟩

theorem matchone_iff {here : List UInt8 → Bool} {c : UInt8} {text : List UInt8} :
    matchone c here text = true ↔
      ∃ one rest, text = one ++ rest ∧ one ∈ atom c ∧ here rest = true := by
  constructor
  · intro found
    cases text with
    | nil => cases found
    | cons t text =>
      rw [matchone, Bool.and_eq_true, decide_eq_true_eq] at found
      exact ⟨[t], text, rfl, ⟨t, found.1.imp_right Eq.symm, rfl⟩, found.2⟩
  · rintro ⟨_, rest, rfl, ⟨t, accepted, rfl⟩, found⟩
    rw [List.singleton_append, matchone, Bool.and_eq_true, decide_eq_true_eq]
    exact ⟨accepted.imp_right Eq.symm, found⟩

/-- A part of the pattern, and then the rest of it. -/
theorem found_mul {part : Language UInt8} {re rest' text : List UInt8}
    (lang : language re = part * language rest') (anchor : anchored re = anchored rest') :
    Found re text ↔ ∃ first rest, text = first ++ rest ∧ first ∈ part ∧ Found rest' rest := by
  unfold Found
  rw [lang, anchor]
  constructor
  · rintro ⟨_, rest, rfl, ⟨first, here, sub, later, rfl⟩, ends⟩
    exact ⟨first, sub ++ rest, List.append_assoc .., here, sub, rest, rfl, later, ends⟩
  · rintro ⟨first, _, rfl, here, sub, rest, rfl, later, ends⟩
    exact ⟨first ++ sub, rest, (List.append_assoc ..).symm, Language.append_mem_mul here later, ends⟩

theorem found_nil (text : List UInt8) : Found [] text :=
  ⟨[], text, rfl, Language.nil_mem_one, nofun⟩

theorem matchhere_iff (re text : List UInt8) : matchhere re text = true ↔ Found re text := by
  induction re using anchored.induct generalizing text with
  | case1 => exact iff_of_true rfl (found_nil text)
  | case2 c =>
    rw [matchhere]
    by_cases last : c = dollar
    · rw [if_pos last, List.isEmpty_iff]
      have lang : language [c] = 1 := if_pos last
      constructor
      · rintro rfl
        exact ⟨[], [], rfl, lang ▸ Language.nil_mem_one, fun _ => rfl⟩
      · rintro ⟨sub, rest, rfl, member, ends⟩
        rw [lang, Language.mem_one] at member
        rw [member, ends (decide_eq_true last)]
        rfl
    · have lang : language [c] = atom c * language [] := (if_neg last).trans (mul_one _).symm
      rw [if_neg last, matchone_iff, found_mul lang (decide_eq_false last)]
      exact exists₂_congr fun first rest => and_congr_right fun _ => and_congr_right fun _ =>
        iff_of_true rfl (found_nil rest)
  | case3 c re ih =>
    have lang : language (c :: star :: re) = (atom c)∗ * language re := if_pos rfl
    rw [matchhere, if_pos rfl, matchstar_iff, found_mul lang (if_pos rfl)]
    simp only [ih]
  | case4 c d re single ih =>
    have lang : language (c :: d :: re) = atom c * language (d :: re) := if_neg single
    rw [matchhere, if_neg single, matchone_iff, found_mul lang (if_neg single)]
    simp only [ih]

theorem matchFrom_iff (re text : List UInt8) :
    matchFrom re text = true ↔ ∃ before rest, text = before ++ rest ∧ Found re rest := by
  induction text with
  | nil =>
    rw [matchFrom, matchhere_iff]
    constructor
    · exact fun found => ⟨[], [], rfl, found⟩
    · rintro ⟨before, rest, split, found⟩
      obtain ⟨_, rfl⟩ := List.append_eq_nil_iff.mp split.symm
      exact found
  | cons t text ih =>
    rw [matchFrom, Bool.or_eq_true, matchhere_iff, ih]
    constructor
    · rintro (found | ⟨before, rest, rfl, found⟩)
      · exact ⟨[], t :: text, rfl, found⟩
      · exact ⟨t :: before, rest, rfl, found⟩
    · rintro ⟨_ | ⟨u, before⟩, rest, split, found⟩
      · rw [List.nil_append] at split
        exact Or.inl (split ▸ found)
      · obtain ⟨rfl, rfl⟩ := List.cons.inj split
        exact Or.inr ⟨before, rest, rfl, found⟩

/-- The matcher finds a pattern exactly where a part of the text is in its language: at the
beginning if the pattern begins with `^`, and at the end if it ends with `$`. -/
theorem matchRe_iff (re text : List UInt8) :
    matchRe re text = true ↔
      ∃ before sub rest, text = before ++ (sub ++ rest) ∧
        if re.head? = some caret then
          before = [] ∧ sub ∈ language re.tail ∧ (anchored re.tail = true → rest = [])
        else sub ∈ language re ∧ (anchored re = true → rest = []) := by
  unfold matchRe
  split
  · rw [matchhere_iff]
    constructor
    · rintro ⟨sub, rest, rfl, member, ends⟩
      exact ⟨[], sub, rest, rfl, rfl, member, ends⟩
    · rintro ⟨_, sub, rest, rfl, rfl, member, ends⟩
      exact ⟨sub, rest, rfl, member, ends⟩
  · rw [matchFrom_iff]
    constructor
    · rintro ⟨before, _, rfl, sub, rest, rfl, member, ends⟩
      exact ⟨before, sub, rest, rfl, member, ends⟩
    · rintro ⟨before, sub, rest, rfl, member, ends⟩
      exact ⟨before, sub ++ rest, rfl, sub, rest, rfl, member, ends⟩

/-- `a.*b$` in `xaayb`. -/
example : matchRe [97, 46, 42, 98, 36] [120, 97, 97, 121, 98] = true := by decide

end Matcher

section Lines

/-- The inner loop of `grep`, from the line that begins at `p` with `line`: what it writes,
what is left from `p` on, and whether `p` has moved. -/
def scan (re : List UInt8) : List UInt8 → List UInt8 → List UInt8 × List UInt8 × Bool
  | line, [] => ([], line, false)
  | line, c :: cs =>
    if c = 0 then ([], line ++ c :: cs, false)
    else if c = newline then
      let (out, left, _) := scan re [] cs
      ((if matchRe re line = true then line ++ [newline] else []) ++ out, left, true)
    else scan re (line ++ [c]) cs

/-- What stays in the buffer for the next `read`. -/
def kept (scanned : List UInt8 × List UInt8 × Bool) : List UInt8 :=
  if scanned.2.2 = true then scanned.2.1 else []

/-- What `grep` writes, with `held` in the buffer, for the chunks that `read` delivers. -/
def grep (re : List UInt8) : List UInt8 → List (List UInt8) → List UInt8
  | _, [] => []
  | held, chunk :: chunks =>
    let scanned := scan re [] (held ++ chunk)
    scanned.1 ++ grep re (kept scanned) chunks

/-- Every chunk is what a `read` may return that asks for the room left in the buffer. -/
def Delivered (re : List UInt8) : List UInt8 → List (List UInt8) → Prop
  | _, [] => True
  | held, chunk :: chunks => chunk ≠ [] ∧ chunk.length ≤ 1024 - held.length - 1 ∧
      Delivered re (kept (scan re [] (held ++ chunk))) chunks

/-- The text of some lines, and those of them that the pattern matches. -/
def textOf (lines : List (List UInt8)) : List UInt8 := lines.flatMap (· ++ [newline])

def matching (re : List UInt8) (lines : List (List UInt8)) : List UInt8 :=
  textOf (lines.filter (matchRe re))

/-- A line that fits into the buffer. -/
structure Line (line : List UInt8) : Prop where
  short : line.length ≤ 1022
  whole : newline ∉ line
  text : 0 ∉ line

variable {re line cs ds : List UInt8}

/-- Characters inside a line move to the part before them. -/
theorem scan_inside (whole : newline ∉ cs) (text : 0 ∉ cs) (re line ds : List UInt8) :
    scan re line (cs ++ ds) = scan re (line ++ cs) ds := by
  induction cs generalizing line with
  | nil => rw [List.nil_append, List.append_nil]
  | cons c cs ih =>
    rw [List.mem_cons, not_or] at whole text
    rw [List.cons_append, scan, if_neg (Ne.symm text.1), if_neg (Ne.symm whole.1),
      ih whole.2 text.2, List.append_assoc]
    rfl

/-- One piece is scanned after the other, from the line that the first leaves off in. -/
theorem scan_append (text : 0 ∉ cs) (line : List UInt8) :
    (scan re line (cs ++ ds)).1 = (scan re line cs).1 ++ (scan re (scan re line cs).2.1 ds).1 := by
  induction cs generalizing line with
  | nil => rfl
  | cons c cs ih =>
    rw [List.mem_cons, not_or] at text
    rw [List.cons_append, scan, scan, if_neg (Ne.symm text.1), if_neg (Ne.symm text.1)]
    by_cases ends : c = newline
    · rw [if_pos ends, if_pos ends]
      simp only [ih text.2, List.append_assoc]
    · rw [if_neg ends, if_neg ends, ih text.2]

theorem scan_moved (text : 0 ∉ cs) (line : List UInt8) :
    (scan re line cs).2.2 = true ↔ newline ∈ cs := by
  induction cs generalizing line with
  | nil => simp [scan]
  | cons c cs ih =>
    rw [List.mem_cons, not_or] at text
    rw [scan, if_neg (Ne.symm text.1)]
    by_cases ends : c = newline
    · simp [ends]
    · rw [if_neg ends, ih text.2, List.mem_cons]
      exact (or_iff_right (Ne.symm ends)).symm

theorem scan_textOf {lines : List (List UInt8)} (each : ∀ line ∈ lines, Line line) :
    (scan re [] (textOf lines)).1 = matching re lines := by
  induction lines with
  | nil => rfl
  | cons line lines ih =>
    obtain ⟨here, each⟩ := List.forall_mem_cons.mp each
    have cut : textOf (line :: lines) = line ++ (newline :: textOf lines) := by
      simp [textOf]
    rw [cut, scan_inside here.whole here.text, List.nil_append, scan, if_neg (by decide), if_pos rfl]
    simp only [ih each, matching]
    by_cases found : matchRe re line = true
    · simp [found, textOf]
    · simp [found]

theorem scan_left (re : List UInt8) (text : 0 ∉ cs) (whole : newline ∉ line) (clear : 0 ∉ line) :
    newline ∉ (scan re line cs).2.1 ∧ 0 ∉ (scan re line cs).2.1 := by
  induction cs generalizing line with
  | nil => exact ⟨whole, clear⟩
  | cons c cs ih =>
    rw [List.mem_cons, not_or] at text
    rw [scan, if_neg (Ne.symm text.1)]
    by_cases ends : c = newline
    · rw [if_pos ends]
      exact ih text.2 List.not_mem_nil List.not_mem_nil
    · rw [if_neg ends]
      apply ih text.2
      · simp [whole, Ne.symm ends]
      · simp [clear, text.1]

/-- Where every chunk ends a line, the chunks are scanned as if they came at once. -/
theorem grep_of_newlines {chunks : List (List UInt8)} {held : List UInt8} (whole : newline ∉ held)
    (clear : 0 ∉ held) (text : ∀ chunk ∈ chunks, 0 ∉ chunk) (ends : ∀ chunk ∈ chunks, newline ∈ chunk) :
    grep re held chunks = (scan re held chunks.flatten).1 := by
  induction chunks generalizing held with
  | nil => rfl
  | cons chunk chunks ih =>
    obtain ⟨here, text⟩ := List.forall_mem_cons.mp text
    obtain ⟨moves, ends⟩ := List.forall_mem_cons.mp ends
    obtain ⟨whole', clear'⟩ := scan_left re here whole clear
    rw [grep, scan_inside whole clear, List.nil_append, kept, if_pos ((scan_moved here held).mpr moves),
      ih whole' clear' text ends, List.flatten_cons, scan_append here]

theorem matchRe_empty (text : List UInt8) : matchRe [] text = true := by
  rw [matchRe_iff]
  exact ⟨[], [], text, rfl, Language.nil_mem_one, nofun⟩

theorem Delivered.nonempty {chunks : List (List UInt8)} {held : List UInt8}
    (delivered : Delivered re held chunks) : ∀ chunk ∈ chunks, chunk ≠ [] := by
  induction chunks generalizing held with
  | nil => exact fun chunk listed => absurd listed List.not_mem_nil
  | cons chunk chunks ih => exact List.forall_mem_cons.mpr ⟨delivered.1, ih delivered.2.2⟩

/-- The empty pattern is found in every line, so that all that is scanned is written or left. -/
theorem scan_empty (text : 0 ∉ cs) (line : List UInt8) :
    (scan [] line cs).1 ++ (scan [] line cs).2.1 = line ++ cs := by
  induction cs generalizing line with
  | nil => exact (List.append_nil line).symm
  | cons c cs ih =>
    rw [List.mem_cons, not_or] at text
    rw [scan, if_neg (Ne.symm text.1)]
    by_cases ends : c = newline
    · rw [if_pos ends]
      have rest := ih text.2 []
      rw [List.nil_append] at rest
      simp only [matchRe_empty, if_true, List.append_assoc]
      rw [rest, ends, List.singleton_append]
    · rw [if_neg ends, ih text.2, List.append_assoc, List.singleton_append]

/-- A chunk without the end of a line is lost. -/
theorem grep_empty_length {chunks : List (List UInt8)} {held : List UInt8} (whole : newline ∉ held)
    (clear : 0 ∉ held) (text : ∀ chunk ∈ chunks, 0 ∉ chunk) (some : ∀ chunk ∈ chunks, chunk ≠ []) :
    (grep [] held chunks).length + chunks.countP (newline ∉ ·) ≤
      held.length + chunks.flatten.length := by
  induction chunks generalizing held with
  | nil => exact Nat.zero_le _
  | cons chunk chunks ih =>
    obtain ⟨here, text⟩ := List.forall_mem_cons.mp text
    obtain ⟨nonempty, some⟩ := List.forall_mem_cons.mp some
    obtain ⟨whole', clear'⟩ := scan_left [] here whole clear
    have sum := congrArg List.length (scan_empty here held)
    have positive := List.length_pos_of_ne_nil nonempty
    rw [List.length_append, List.length_append] at sum
    rw [grep, scan_inside whole clear, List.nil_append, kept, List.countP_cons, List.flatten_cons,
      List.length_append, List.length_append]
    by_cases moves : newline ∈ chunk
    · rw [if_pos ((scan_moved here held).mpr moves)]
      have rest := ih whole' clear' text some
      rw [if_neg (by simpa using moves)]
      omega
    · have stays : ¬ (scan [] held chunk).2.2 = true := fun moved => moves ((scan_moved here held).mp moved)
      have rest := ih List.not_mem_nil List.not_mem_nil text some
      have silent : (scan [] held chunk).1 = [] := by
        have inside := scan_inside moves here [] held []
        rw [List.append_nil] at inside
        rw [inside]
        rfl
      rw [if_neg stays, silent, if_pos (decide_eq_true moves)]
      rw [List.length_nil] at rest ⊢
      omega

/-- However the text of some lines is delivered, `grep` writes the matching lines for every
pattern exactly if every chunk has the end of a line in it. -/
theorem grep_lines_iff (lines chunks : List (List UInt8)) (each : ∀ line ∈ lines, Line line)
    (input : chunks.flatten = textOf lines) (delivered : ∀ re, Delivered re [] chunks) :
    (∀ re, grep re [] chunks = matching re lines) ↔ ∀ chunk ∈ chunks, newline ∈ chunk := by
  have text : ∀ chunk ∈ chunks, 0 ∉ chunk := by
    intro chunk listed zero
    have inside : 0 ∈ textOf lines := input ▸ List.mem_flatten.mpr ⟨chunk, listed, zero⟩
    obtain ⟨line, member, inside⟩ := List.mem_flatMap.mp inside
    obtain inside | last := List.mem_append.mp inside
    · exact (each line member).text inside
    · exact absurd (List.mem_singleton.mp last) (by decide)
  have whole : ∀ re, (scan re [] chunks.flatten).1 = matching re lines := by
    intro re
    rw [input]
    exact scan_textOf each
  constructor
  · intro right
    have all : matching [] lines = textOf lines := by
      rw [matching, List.filter_eq_self.mpr fun line _ => matchRe_empty line]
    have written := congrArg List.length (right [])
    have lost := grep_empty_length List.not_mem_nil List.not_mem_nil text (delivered []).nonempty
    rw [written, all, ← input, List.length_nil, Nat.zero_add] at lost
    have none : chunks.countP (newline ∉ ·) = 0 := by omega
    intro chunk listed
    simpa using List.countP_eq_zero.mp none chunk listed
  · intro ends re
    rw [grep_of_newlines List.not_mem_nil List.not_mem_nil text ends, whole re]

/-- Two lines in one chunk, the second one cut. -/
theorem grep_two_chunks : grep [98] [] [[97, 10, 98], [99, 10]] = [98, 99, 10] := by
  have right := (grep_lines_iff [[97], [98, 99]] [[97, 10, 98], [99, 10]]
    (fun line member => ⟨by revert line; decide, by revert line; decide, by revert line; decide⟩)
    (by decide) (fun re => ?_)).mpr (by decide) [98]
  · exact right
  · simp [Delivered, kept, scan, newline]

/-- The line `ab` comes in two chunks, and its first character is not written. -/
theorem grep_cut_line :
    Delivered [98] [] [[97], [98, 10]] ∧ grep [98] [] [[97], [98, 10]] = [98, 10] ∧
      matching [98] [[97, 98]] = [97, 98, 10] := by
  refine ⟨⟨by decide, by decide, by decide, by decide, trivial⟩, by decide, by decide⟩

end Lines
end Xv6.Grep
