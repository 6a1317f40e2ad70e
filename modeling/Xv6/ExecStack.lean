import Mathlib.Data.List.GetD
import Xv6.Lib.Writes
import Xv6.Strings

/-! The arguments of `exec`. The kernel reads strings of the process and copies them into the
new image. What each routine does is said once for any invariant `P` of the kernel's work that
reading a byte of a string keeps and that follows the bytes put into the image. -/
namespace Xv6
open PteBit Control Writes

/-- The kernel can read the string of `n` bytes at `a`, and `P` is kept. -/
def Reads [NullPte] (s : St) (P : St → Prop) (E : Stop → St → Prop) (a n : Nat) : Prop :=
  ∀ k ≤ n, ∀ t, P t → Sat (load false (uint (a + k))) t (fun b u => b = s.peek (a + k) ∧ P u) E

namespace Reads
variable [NullPte] {s t : St} {P : St → Prop} {E : Stop → St → Prop} {a n : Nat}

theorem strlenLoop (reads : Reads s P E a n) (str : s.IsStr a n) (fuel : Nat) {k : Nat}
    (inside : k ≤ n) (enough : n < k + fuel ∨ ∀ t, P t → E .spin t) (holds : P t) :
    Sat (strlenLoop a fuel k) t (fun r u => r = n ∧ P u) E := by
  induction fuel generalizing k t with
  | zero => exact enough.elim (fun few => absurd inside (by omega)) fun spin => spin t holds
  | succ fuel ih =>
    rw [Xv6.strlenLoop]
    refine .bind (reads k inside t holds) ?_
    rintro b u ⟨rfl, holds⟩
    by_cases last : k = n
    · subst last
      rw [if_pos str.stop]
      exact ⟨rfl, holds⟩
    · rw [if_neg (str.body k (by omega))]
      exact ih (by omega) (enough.imp_left fun _ => by omega) holds

theorem strlen (reads : Reads s P E a n) (sound : s.Sound) (str : s.IsStr a n) (holds : P t) :
    Sat (strlen a) t (fun r u => r = n ∧ P u) E := by
  have size : s.proc.sz ≤ 2 ^ 31 := sound.size
  have below := str.below
  exact reads.strlenLoop str _ (Nat.zero_le n) (Or.inl (by omega)) holds

theorem loadStr (reads : Reads s P E a n) (str : s.IsStr a n) (fuel : Nat) {k : Nat}
    (inside : k ≤ n) (enough : n < k + fuel ∨ ∀ t, P t → E .spin t) (holds : P t) :
    Sat (loadStr a fuel k) t (fun r u => r = s.text a k n ∧ P u) E := by
  induction fuel generalizing k t with
  | zero => exact enough.elim (fun few => absurd inside (by omega)) fun spin => spin t holds
  | succ fuel ih =>
    rw [Xv6.loadStr]
    refine .bind (reads k inside t holds) ?_
    rintro b u ⟨rfl, holds⟩
    by_cases last : k = n
    · subst last
      rw [if_pos str.stop]
      exact ⟨by simp [St.text], holds⟩
    · rw [if_neg (str.body k (by omega))]
      refine .bind (ih (by omega) (enough.imp_left fun _ => by omega) holds) ?_
      rintro r u ⟨rfl, holds⟩
      refine ⟨?_, holds⟩
      have count : n - k = n - (k + 1) + 1 := by omega
      rw [St.text, St.text, count, List.range'_succ, List.map_cons]

theorem safestrcpy (reads : Reads s P E a n) (str : s.IsStr a n) (left : Nat) {k : Nat}
    (inside : k ≤ n) (holds : P t) : Sat (safestrcpy (a + k) left) t (fun _ u => P u) E := by
  induction left generalizing k t with
  | zero => exact holds
  | succ left ih =>
    rw [Xv6.safestrcpy]
    refine .bind (reads k inside t holds) ?_
    rintro b u ⟨rfl, holds⟩
    by_cases last : k = n
    · subst last
      rw [if_pos str.stop]
      exact holds
    · rw [if_neg (str.body k (by omega))]
      exact .bind (ih (k := k + 1) (by omega) holds) fun _ _ holds => holds

end Reads

/-- The kernel works for the process and holds the frames `X`. -/
theorem Reads.working {s : St} (sound : s.Sound) {a n : Nat} (str : s.IsStr a n)
    (X : Multiset Nat) : Reads s (fun t => Working s t X) (Cut s a n X) a n :=
  fun _ inside _ w => load_str sound str w inside

theorem loadStr_spec {s t : St} {X : Multiset Nat} {a n : Nat} (sound : s.Sound) (str : s.IsStr a n)
    (fuel : Nat) {k : Nat} (inside : k ≤ n) (w : Working s t X) :
    Sat (loadStr a fuel k) t (fun r u => r = s.text a k n ∧ Working s u X) (Cut s a n X) :=
  (Reads.working sound str X).loadStr str fuel inside
    (Or.inr fun _ _ is => by cases is) w

/-- Every byte of the range is on a page of the user. -/
def PgDir.Backs (d : PgDir) (va len : Nat) : Prop :=
  ∀ x, va ≤ x → x < va + len → x < 2 ^ 32 → (d.flat (x / 4096)).usable = true

/-- The range runs from pages of the user to an address without a page table. -/
def PgDir.Strays (d : PgDir) (va len : Nat) : Prop :=
  ∃ x, va ≤ x ∧ x < va + len ∧ x < 2 ^ 32 ∧ walkpgdir d x = none ∧
    ∀ y, va ≤ y → y < x → (d.flat (y / 4096)).usable = true

section Range
variable {d : PgDir} {va len k : Nat}

theorem PgDir.usable_table {x : Nat} (word : x < 2 ^ 32)
    (usable : (d.flat (x / 4096)).usable = true) : walkpgdir d x ≠ none := by
  have page : vpn x = x / 4096 := vpn_of_word (by omega)
  rw [← page] at usable
  rw [PgDir.walk_of_mapped (Pte.usable_iff.mp usable).1]
  exact Option.some_ne_none _

/-- A page whose part of the range is usable can be taken off. -/
theorem PgDir.backs_drop (usable : (d.flat (va / 4096)).usable = true)
    (page : va % 4096 + k = 4096) (more : k ≤ len) :
    d.Backs va len ↔ d.Backs (va + k) (len - k) := by
  constructor
  · intro backs x low high word
    exact backs x (by omega) (by omega) word
  · intro backs x low high word
    by_cases here : x < va + k
    · rw [show x / 4096 = va / 4096 by omega]
      exact usable
    · exact backs x (by omega) (by omega) word

theorem PgDir.strays_drop (usable : (d.flat (va / 4096)).usable = true)
    (page : va % 4096 + k = 4096) (more : k ≤ len) :
    d.Strays va len ↔ d.Strays (va + k) (len - k) := by
  constructor
  · rintro ⟨x, low, high, word, missing, before⟩
    have later : ¬ x < va + k := by
      intro here
      rw [← show x / 4096 = va / 4096 by omega] at usable
      exact PgDir.usable_table word usable missing
    exact ⟨x, by omega, by omega, word, missing, fun y above => before y (by omega)⟩
  · rintro ⟨x, low, high, word, missing, before⟩
    refine ⟨x, by omega, by omega, word, missing, fun y above below => ?_⟩
    by_cases here : y < va + k
    · rw [show y / 4096 = va / 4096 by omega]
      exact usable
    · exact before y (by omega) below

theorem PgDir.backs_of_page (usable : (d.flat (va / 4096)).usable = true)
    (page : va % 4096 + len ≤ 4096) : d.Backs va len := by
  intro x low high _
  rw [show x / 4096 = va / 4096 by omega]
  exact usable

theorem PgDir.Backs.not_strays (backs : d.Backs va len) : ¬ d.Strays va len := by
  rintro ⟨x, low, high, word, missing, _⟩
  exact PgDir.usable_table word (backs x low high word) missing

end Range

/-- The source of a copy delivers the bytes `f`, and the invariant is kept. -/
def Delivers (P : (Nat → UInt8) → St → Prop) (E : Stop → St → Prop) (src : Nat → K UInt8)
    (f : Nat → UInt8) (limit : Nat) : Prop :=
  ∀ i < limit, ∀ img t, P img t → Sat (src i) t (fun b u => b = f i ∧ P img u) E

/-- The invariant follows the bytes that are put on the user pages of `d`, at addresses in `R`. -/
def Follows (P : (Nat → UInt8) → St → Prop) (d : PgDir) (R : Nat → Prop) : Prop :=
  ∀ img t x b, R x → x < 2 ^ 32 → (d.flat (x / 4096)).usable = true → P img t →
    P (Function.update img x b) { t with phys := t.phys.poke (d.flat (x / 4096)).ppn x b }

section Copying
variable {d : PgDir} {P : (Nat → UInt8) → St → Prop} {E : Stop → St → Prop} {src : Nat → K UInt8}
  {f : Nat → UInt8} {limit : Nat} {t : St} {img : Nat → UInt8} {R : Nat → Prop}

theorem moveLoop_keeps (delivers : Delivers P E src f limit) (follows : Follows P d R)
    (k va i : Nat) {v : Nat} (range : ∀ x, va ≤ x → x < va + k → R x) (bound : i + k ≤ limit) (usable : (d.flat v).usable = true)
    (low : v < 2 ^ 20) (page : k = 0 ∨ va / 4096 = v ∧ va % 4096 + k ≤ 4096) (holds : P img t) :
    Sat (moveLoop src (d.flat v).ppn va k i) t
      (fun _ u => P (splice img va ((List.range' i k).map f)) u) E := by
  induction k generalizing va i t img with
  | zero => exact holds
  | succ k ih =>
    obtain ⟨rfl, fits⟩ := page.resolve_left (Nat.succ_ne_zero k)
    rw [moveLoop]
    refine .bind (delivers i (by omega) img t holds) ?_
    rintro b u ⟨rfl, holds⟩
    rw [sat_bind, sat_modify]
    exact ih (va + 1) (i + 1) (fun x low high => range x (by omega) (by omega)) (by omega) (by omega)
      (follows img u va (f i) (range va le_rfl (by omega)) (by omega) usable holds)

/-- What is left of a copy: the bytes are in the image if it has succeeded, and it succeeds
exactly when the whole range is on pages of the user. -/
structure CopiedOut (P : (Nat → UInt8) → St → Prop) (d : PgDir) (img : Nat → UInt8) (va : Nat)
    (bs : List UInt8) (ok : Bool) (t : St) : Prop where
  kept : ∃ img', P img' t ∧ (ok = true → img' = splice img va bs)
  backs : ok = true ↔ d.Backs va bs.length
  tables : ¬ d.Strays va bs.length

theorem copyoutLoop_keeps (dir : d.Sound) (delivers : Delivers P E src f limit)
    (follows : Follows P d R) (fuel va len i : Nat) (range : ∀ x, va ≤ x → x < va + len → R x)
    (null : d.Strays va len → ∀ img u, P img u → E .nullPte u) (bound : i + len ≤ limit)
    (enough : (va % 4096 + len + 4095) / 4096 < fuel) (word : va < 2 ^ 32) (holds : P img t) :
    Sat (copyoutLoop d src fuel va len i) t (CopiedOut P d img va ((List.range' i len).map f)) E := by
  induction fuel generalizing va len i t img with
  | zero => omega
  | succ fuel ih =>
    have count : ((List.range' i len).map f).length = len := by
      rw [List.length_map, List.length_range']
    have page : vpn (pgRoundDown va) = va / 4096 := by
      simp only [vpn, pgRoundDown, PGSIZE]
      omega
    have here : vpn va = va / 4096 := vpn_of_word (by omega)
    rw [copyoutLoop]
    split
    · rename_i more
      rw [sat_bind, sat_uva2ka, PgDir.walk_congr d (page.trans here.symm)]
      cases walk : walkpgdir d va with
      | none =>
        exact null ⟨va, le_rfl, by omega, word, walk, fun y above below => by omega⟩ img t holds
      | some pte =>
        have entry : d.flat (va / 4096) = pte := by
          rw [← here]
          exact PgDir.flat_of_walk walk
        dsimp only
        cases usable : pte.usable with
        | false =>
          rw [← entry] at usable
          refine ⟨⟨img, holds, by simp⟩, ⟨by simp, fun backs => ?_⟩, ?_⟩
          · rw [count] at backs
            rw [backs va le_rfl (by omega) word] at usable
            cases usable
          · rintro ⟨x, low, _, _, missing, before⟩
            obtain rfl | later := Nat.eq_or_lt_of_le low
            · rw [walk] at missing
              cases missing
            · rw [before va le_rfl later] at usable
              cases usable
        | true =>
          rw [← entry] at usable ⊢
          have half : va / 4096 < 2 ^ 19 := by
            by_contra kernel
            obtain ⟨_, user⟩ := Pte.usable_iff.mp usable
            rw [dir.guarded _ (by omega)] at user
            cases user
          have start : va - pgRoundDown va = va % 4096 := by
            simp only [pgRoundDown, PGSIZE]
            omega
          -- `k` bytes fit on the page: either all of them, or up to its end.
          obtain ⟨k, is⟩ : ∃ k, k = min (PGSIZE - va % 4096) len := ⟨_, rfl⟩
          have fits : k ≤ len ∧ va % 4096 + k ≤ 4096 ∧ (k = len ∨ va % 4096 + k = 4096) := by
            simp only [PGSIZE] at is
            omega
          rw [if_pos rfl]
          dsimp only
          rw [sat_bind, start, ← is, moveOut, PgDir.walk_congr d (page.trans here.symm), walk]
          refine (moveLoop_keeps delivers follows k va i
            (fun x low high => range x low (by omega)) (by omega) usable (by omega)
            (Or.inr ⟨rfl, fits.2.1⟩) holds).imp (fun _ u holds => ?_)
          obtain all | full := fits.2.2
          · have backs : d.Backs va len := PgDir.backs_of_page usable (by omega)
            rw [all, Nat.sub_self]
            rw [all] at holds
            obtain ⟨fuel, rfl⟩ : ∃ n, fuel = n + 1 := ⟨fuel - 1, by omega⟩
            rw [copyoutLoop, if_neg (by omega)]
            refine ⟨⟨_, holds, fun _ => rfl⟩, ?_, ?_⟩
            · rw [count]
              exact iff_of_true rfl backs
            · rw [count]
              exact backs.not_strays
          · have next : uint (pgRoundDown va + PGSIZE) = va + k := by
              simp only [uint, pgRoundDown, PGSIZE]
              omega
            rw [next]
            refine (ih (va + k) (len - k) (i + k) (fun x low high => range x (by omega) (by omega)) ?_ (by omega) (by omega) (by omega) holds).imp
              (fun ok u done => ?_)
            · rw [← PgDir.strays_drop usable full fits.1]
              exact null
            · have rest : ((List.range' (i + k) (len - k)).map f).length = len - k := by
                rw [List.length_map, List.length_range']
              obtain ⟨⟨img', holds, same⟩, backs, tables⟩ := done
              rw [rest, ← PgDir.backs_drop usable full fits.1] at backs
              rw [rest, ← PgDir.strays_drop usable full fits.1] at tables
              refine ⟨⟨img', holds, fun yes => ?_⟩, by rwa [count], by rwa [count]⟩
              have length : ((List.range' i k).map f).length = k := by
                rw [List.length_map, List.length_range']
              have split : (List.range' i len).map f =
                  (List.range' i k).map f ++ (List.range' (i + k) (len - k)).map f := by
                rw [← List.map_append, List.range'_append_1, Nat.add_sub_cancel' fits.1]
              rw [same yes, split, splice_append, length]
    · obtain rfl : len = 0 := by omega
      refine ⟨⟨img, holds, fun _ => rfl⟩, iff_of_true rfl fun x low high => ?_, ?_⟩
      · rw [count] at high
        omega
      · rintro ⟨x, low, high, _⟩
        rw [count] at high
        omega

theorem copyout_keeps (dir : d.Sound) {va len : Nat} (delivers : Delivers P E src f len)
    (follows : Follows P d R) (range : ∀ x, va ≤ x → x < va + len → R x)
    (null : d.Strays va len → ∀ img u, P img u → E .nullPte u) (word : va < 2 ^ 32)
    (holds : P img t) :
    Sat (copyout d va src len) t (CopiedOut P d img va ((List.range' 0 len).map f)) E := by
  apply copyoutLoop_keeps dir delivers follows _ va len 0 range null (by omega) _ word holds
  simp only [PGSIZE]
  omega

end Copying

/-- `a` points to the string `str` in the memory of the process. -/
def St.Spells (s : St) (a : Nat) (str : List UInt8) : Prop :=
  ∃ len, s.IsStr a len ∧ str = s.text a 0 len

theorem St.Spells.of_strings {s : St} {argv : List Nat}
    (strings : ∀ arg ∈ argv, ∃ len, s.IsStr arg len) : ∃ strs, List.Forall₂ s.Spells argv strs := by
  induction argv with
  | nil => exact ⟨[], .nil⟩
  | cons arg argv ih =>
    obtain ⟨len, str⟩ := strings arg List.mem_cons_self
    obtain ⟨strs, spells⟩ := ih fun arg member => strings arg (List.mem_cons_of_mem _ member)
    exact ⟨_ :: strs, .cons ⟨len, str, rfl⟩ spells⟩

theorem St.text_length (s : St) (a len : Nat) : (s.text a 0 len).length = len := by
  rw [St.text, List.length_map, List.length_range', Nat.sub_zero]

theorem St.IsStr.bytes {s : St} {a len : Nat} (str : s.IsStr a len) :
    (List.range' 0 (len + 1)).map (fun j => s.peek (a + j)) = s.text a 0 len ++ [0] := by
  rw [List.range'_1_concat, List.map_append, List.map_singleton, Nat.zero_add, str.stop]
  rfl

/-- Where a string of `len` bytes is put below `sp`. -/
def pushAt (sp len : Nat) : Nat := uint (sp + 2 ^ 32 - (len + 1)) / 4 * 4

theorem pushAt_lt (sp len : Nat) : pushAt sp len < 2 ^ 32 :=
  lt_of_le_of_lt (Nat.div_mul_le_self _ _) (Nat.mod_lt _ (by decide))

/-- The argument strings are put below `sp`, one below the other: the stack pointer,
the addresses of the strings, and the image. -/
def pushStrings : List (List UInt8) → Nat → List Nat → (Nat → UInt8) →
    Nat × List Nat × (Nat → UInt8)
  | [], sp, args, img => (sp, args, img)
  | str :: rest, sp, args, img =>
    let sp := uint (sp + 2 ^ 32 - (str.length + 1)) / 4 * 4
    pushStrings rest sp (args ++ [sp]) (splice img sp (str ++ [0]))

/-- The stack pointer below the strings. -/
def pushedTo (strs : List (List UInt8)) (sp : Nat) : Nat := (pushStrings strs sp [] fun _ => 0).1

theorem pushStrings_congr (strs : List (List UInt8)) (sp : Nat) (args args' : List Nat)
    (img img' : Nat → UInt8) :
    (pushStrings strs sp args img).1 = (pushStrings strs sp args' img').1 := by
  induction strs generalizing sp args args' img img' with
  | nil => rfl
  | cons str strs ih =>
    rw [pushStrings, pushStrings]
    exact ih _ _ _ _ _

theorem pushStrings_fst (strs : List (List UInt8)) (sp : Nat) (args : List Nat)
    (img : Nat → UInt8) : (pushStrings strs sp args img).1 = pushedTo strs sp :=
  pushStrings_congr strs sp args [] img _

theorem pushStrings_count (strs : List (List UInt8)) (sp : Nat) (args : List Nat)
    (img : Nat → UInt8) :
    (pushStrings strs sp args img).2.1.length = args.length + strs.length := by
  induction strs generalizing sp args img with
  | nil => rfl
  | cons str strs ih =>
    rw [pushStrings, ih, List.length_append, List.length_singleton, List.length_cons]
    omega

namespace PgDir

/-- Every string is put on pages of the user. -/
def BacksStrings (d : PgDir) : List (List UInt8) → Nat → Prop
  | [], _ => True
  | str :: rest, sp =>
    d.Backs (pushAt sp str.length) (str.length + 1) ∧ d.BacksStrings rest (pushAt sp str.length)

/-- One of the strings runs to an address without a page table, when those before it have
been put on pages of the user. -/
def StraysStrings (d : PgDir) : List (List UInt8) → Nat → Prop
  | [], _ => False
  | str :: rest, sp =>
    d.Strays (pushAt sp str.length) (str.length + 1) ∨
      d.Backs (pushAt sp str.length) (str.length + 1) ∧ d.StraysStrings rest (pushAt sp str.length)

end PgDir

theorem PgDir.BacksStrings.not_strays {d : PgDir} {strs : List (List UInt8)} {sp : Nat}
    (backs : d.BacksStrings strs sp) (k : Nat) : ¬ d.StraysStrings (strs.take k) sp := by
  induction strs generalizing sp k with
  | nil =>
    rw [List.take_nil]
    exact id
  | cons str strs ih =>
    cases k with
    | zero => exact id
    | succ k =>
      rw [List.take_succ_cons]
      rintro (stray | ⟨_, stray⟩)
      · exact backs.1.not_strays stray
      · exact ih backs.2 k stray

/-- What is left of the argument loop: it succeeds exactly when the arguments are few and each
is put on pages of the user. -/
structure ArgsPushed (P : (Nat → UInt8) → St → Prop) (d : PgDir) (strs : List (List UInt8))
    (sp : Nat) (args : List Nat) (img : Nat → UInt8) (r : Option (Nat × List Nat)) (t : St) :
    Prop where
  kept : ∃ img', P img' t ∧ (r ≠ none → img' = (pushStrings strs sp args img).2.2)
  value : ∀ out, r = some out →
    out = ((pushStrings strs sp args img).1, (pushStrings strs sp args img).2.1)
  backs : r ≠ none ↔ args.length + strs.length ≤ MAXARG ∧ d.BacksStrings strs sp
  tables : ¬ d.StraysStrings (strs.take (MAXARG - args.length)) sp

section Stack
variable {s t : St} {d : PgDir} {P : (Nat → UInt8) → St → Prop} {E : Stop → St → Prop}
  {img : Nat → UInt8} {argv : List Nat} {strs : List (List UInt8)}

theorem execArgs_keeps (sound : s.Sound) (dir : d.Sound) (follows : Follows P d fun _ => True)
    (spells : List.Forall₂ s.Spells argv strs)
    (reads : ∀ arg ∈ argv, ∀ n, s.IsStr arg n → ∀ img, Reads s (P img) E arg n) (sp : Nat)
    (args : List Nat) (few : args.length ≤ MAXARG)
    (null : d.StraysStrings (strs.take (MAXARG - args.length)) sp → ∀ img u, P img u → E .nullPte u)
    (holds : P img t) :
    Sat (execArgs d argv sp args) t (ArgsPushed P d strs sp args img) E := by
  induction spells generalizing sp args t img with
  | nil =>
    refine ⟨⟨img, holds, fun _ => rfl⟩, fun out is => (Option.some.inj is).symm, ?_, ?_⟩
    · exact iff_of_true nofun ⟨few, trivial⟩
    · rw [List.take_nil]
      exact id
  | @cons arg str argv strs spell _ ih =>
    obtain ⟨len, isStr, is⟩ := spell
    have length : str.length = len := by rw [is, St.text_length]
    rw [execArgs]
    split
    · rename_i many
      refine ⟨⟨img, holds, fun filled => absurd rfl filled⟩, nofun, ?_, ?_⟩
      · refine iff_of_false (not_not.mpr rfl) fun both => ?_
        have count := both.1
        rw [List.length_cons] at count
        omega
      · rw [Nat.sub_eq_zero_of_le many, List.take_zero]
        exact id
    · rename_i room
      have take : (str :: strs).take (MAXARG - args.length) =
          str :: strs.take (MAXARG - (args.length + 1)) := by
        rw [show MAXARG - args.length = MAXARG - (args.length + 1) + 1 by omega, List.take_succ_cons]
      rw [take] at null
      have reading := reads arg List.mem_cons_self len isStr
      refine .bind ((reading img).strlen sound isStr holds) ?_
      rintro k u ⟨same, holds⟩
      rw [same]
      dsimp only
      refine .bind ((reading img).strlen sound isStr holds) ?_
      rintro k u ⟨same, holds⟩
      rw [same, sat_bind, ← length]
      have delivers : Delivers P E (fun i => load false (uint (arg + i)))
          (fun i => s.peek (arg + i)) (str.length + 1) := by
        intro i inside img t holds
        exact reading img i (by omega) t holds
      have stray : d.Strays (pushAt sp str.length) (str.length + 1) → ∀ img u, P img u →
          E .nullPte u := fun stray => null (Or.inl stray)
      refine (copyout_keeps dir delivers follows (fun _ _ _ => trivial) stray (pushAt_lt sp str.length) holds).imp
        (fun ok u done => ?_)
      have bytes : (List.range' 0 (str.length + 1)).map (fun i => s.peek (arg + i)) = str ++ [0] := by
        rw [length, is]
        exact isStr.bytes
      have count : (str ++ [0]).length = str.length + 1 := by
        rw [List.length_append, List.length_singleton]
      rw [bytes] at done
      obtain ⟨⟨img', holds, same⟩, backs, tables⟩ := done
      rw [count] at backs tables
      cases ok with
      | false =>
        have unbacked : ¬ d.Backs (pushAt sp str.length) (str.length + 1) :=
          fun all => by cases backs.mpr all
        refine ⟨⟨img', holds, fun filled => absurd rfl filled⟩, nofun, ?_, ?_⟩
        · exact iff_of_false (not_not.mpr rfl) fun both => unbacked both.2.1
        · rw [take]
          rintro (stray | ⟨all, _⟩)
          · exact tables stray
          · exact unbacked all
      | true =>
        have all := backs.mp rfl
        obtain rfl := same rfl
        rw [if_pos rfl]
        refine (ih (fun arg member => reads arg (List.mem_cons_of_mem _ member))
          (pushAt sp str.length) (args ++ [pushAt sp str.length]) ?_ ?_ holds).imp
          (fun r u done => ?_)
        · rw [List.length_append, List.length_singleton]
          omega
        · rw [List.length_append, List.length_singleton]
          exact fun stray => null (Or.inr ⟨all, stray⟩)
        · obtain ⟨kept, value, backs, later⟩ := done
          rw [List.length_append, List.length_singleton] at backs later
          refine ⟨kept, value, ?_, ?_⟩
          · rw [backs, List.length_cons, PgDir.BacksStrings, Nat.add_assoc, Nat.add_comm 1]
            exact and_congr_right fun _ => (and_iff_right all).symm
          · rw [take]
            rintro (stray | ⟨_, stray⟩)
            · exact tables stray
            · exact later stray

end Stack

theorem flatMap_leBytes_length (words : List Nat) :
    (words.flatMap leBytes).length = words.length * 4 := by
  induction words with
  | nil => rfl
  | cons w words ih =>
    rw [List.flatMap_cons, List.length_append, ih, List.length_cons, leBytes]
    simp only [List.length_cons, List.length_nil]
    omega

theorem map_getD_range (bs : List UInt8) :
    (List.range' 0 bs.length).map (fun i => bs.getD i 0) = bs := by
  apply List.ext_getElem
  · simp only [List.length_map, List.length_range']
  · intro i _ inside
    simp only [List.getElem_map, List.getElem_range', Nat.zero_add, Nat.one_mul]
    exact List.getD_eq_getElem _ _ inside

theorem ustack_bytes (sp : Nat) (args : List Nat) :
    ((ustack sp args).flatMap leBytes).length = (3 + args.length + 1) * 4 := by
  rw [flatMap_leBytes_length, ustack]
  simp only [List.length_append, List.length_cons, List.length_nil]

theorem lastElem_le (path : List UInt8) : lastElem path ≤ path.length := Nat.sub_le _ _

/-- The image with the arguments on its stack. -/
def stackBytes (strs : List (List UInt8)) (sz : Nat) (img : Nat → UInt8) : Nat → UInt8 :=
  let (sp, args, img) := pushStrings strs sz [] img
  splice img (uint (sp + 2 ^ 32 - (3 + args.length + 1) * 4)) ((ustack sp args).flatMap leBytes)

/-- The stack pointer that a program starts with. -/
def stackTop (strs : List (List UInt8)) (sz : Nat) : Nat :=
  uint (pushedTo strs sz + 2 ^ 32 - (3 + strs.length + 1) * 4)

namespace PgDir

/-- The strings and the words of the arguments are put on pages of the user. -/
def BacksStack (d : PgDir) (strs : List (List UInt8)) (sz : Nat) : Prop :=
  strs.length ≤ MAXARG ∧ d.BacksStrings strs sz ∧
    d.Backs (stackTop strs sz) ((3 + strs.length + 1) * 4)

/-- A string or the words of the arguments run to an address without a page table. -/
def StraysStack (d : PgDir) (strs : List (List UInt8)) (sz : Nat) : Prop :=
  d.StraysStrings (strs.take MAXARG) sz ∨ strs.length ≤ MAXARG ∧ d.BacksStrings strs sz ∧
    d.Strays (stackTop strs sz) ((3 + strs.length + 1) * 4)

end PgDir

theorem PgDir.BacksStack.not_strays {d : PgDir} {strs : List (List UInt8)} {sz : Nat}
    (backs : d.BacksStack strs sz) : ¬ d.StraysStack strs sz := by
  rintro (stray | ⟨_, _, stray⟩)
  · exact backs.2.1.not_strays _ stray
  · exact backs.2.2.not_strays stray

/-- What is left when `exec` has built the stack. -/
structure StackBuilt (P : (Nat → UInt8) → St → Prop) (d : PgDir) (strs : List (List UInt8))
    (sz : Nat) (img : Nat → UInt8) (r : Option (Nat × List UInt8)) (t : St) : Prop where
  kept : ∃ img', P img' t ∧ (r ≠ none → img' = stackBytes strs sz img)
  value : ∀ sp called, r = some (sp, called) → sp = stackTop strs sz
  backs : r ≠ none ↔ d.BacksStack strs sz
  tables : ¬ d.StraysStack strs sz

section Stack
variable {s t : St} {d : PgDir} {P : (Nat → UInt8) → St → Prop} {E : Stop → St → Prop}
  {img : Nat → UInt8} {argv : List Nat} {strs : List (List UInt8)}

theorem execStack_keeps (img : Nat → UInt8) (sound : s.Sound) (dir : d.Sound)
    (follows : Follows P d fun _ => True) {path len : Nat}
    (name : s.IsStr path len) (spells : List.Forall₂ s.Spells argv strs)
    (reads : ∀ arg ∈ path :: argv, ∀ n, s.IsStr arg n → ∀ img, Reads s (P img) E arg n) (sz : Nat)
    (null : d.StraysStack strs sz → ∀ img u, P img u → E .nullPte u) (holds : P img t) :
    Sat (execStack d sz path argv) t (StackBuilt P d strs sz img) E := by
  have size : s.proc.sz ≤ 2 ^ 31 := sound.size
  have below := name.below
  rw [execStack]
  refine .bind (execArgs_keeps sound dir follows spells
    (fun arg member => reads arg (List.mem_cons_of_mem _ member)) sz [] (Nat.zero_le _)
    (fun stray => null (Or.inl stray)) holds) fun r u done => ?_
  obtain ⟨⟨img', holds, same⟩, value, backs, early⟩ := done
  rw [List.length_nil, Nat.zero_add] at backs
  cases r with
  | none =>
    have unbacked : ¬ (strs.length ≤ MAXARG ∧ d.BacksStrings strs sz) :=
      fun both => backs.mpr both rfl
    refine ⟨⟨img', holds, fun filled => absurd rfl filled⟩, nofun, ?_, ?_⟩
    · exact iff_of_false (not_not.mpr rfl) fun all => unbacked ⟨all.1, all.2.1⟩
    · rintro (stray | ⟨few, all, _⟩)
      · exact early stray
      · exact unbacked ⟨few, all⟩
  | some out =>
    obtain ⟨few, all⟩ := backs.mp (Option.some_ne_none _)
    obtain rfl := value out rfl
    obtain rfl := same (Option.some_ne_none _)
    have count := pushStrings_count strs sz [] img
    have lowest := pushStrings_fst strs sz [] img
    rw [List.length_nil, Nat.zero_add] at count
    have bytes : stackBytes strs sz img = splice (pushStrings strs sz [] img).2.2 (stackTop strs sz)
        ((ustack (pushStrings strs sz [] img).1 (pushStrings strs sz [] img).2.1).flatMap leBytes) := by
      rw [stackBytes, stackTop, ← lowest, ← count]
    have length := ustack_bytes (pushStrings strs sz [] img).1 (pushStrings strs sz [] img).2.1
    rw [count] at length
    dsimp only
    rw [sat_bind, count, lowest, ← stackTop]
    rw [lowest] at bytes length
    generalize (ustack (pushedTo strs sz) (pushStrings strs sz [] img).2.1).flatMap leBytes = words at *
    have delivers : Delivers P E (fun i => return words.getD i 0) (fun i => words.getD i 0)
        ((3 + strs.length + 1) * 4) := fun i _ img t holds => ⟨rfl, holds⟩
    have stray : d.Strays (stackTop strs sz) ((3 + strs.length + 1) * 4) → ∀ img u, P img u →
        E .nullPte u := fun stray => null (Or.inr ⟨few, all, stray⟩)
    have word : stackTop strs sz < 2 ^ 32 := Nat.mod_lt _ (by decide)
    refine (copyout_keeps dir delivers follows (fun _ _ _ => trivial) stray word holds).imp (fun ok u done => ?_)
    rw [← length, map_getD_range] at done
    obtain ⟨⟨img', holds, same⟩, backs, tables⟩ := done
    rw [length] at backs tables
    have astray : ¬ d.StraysStack strs sz := by
      rintro (stray | ⟨_, _, stray⟩)
      · exact early stray
      · exact tables stray
    cases ok with
    | false =>
      refine ⟨⟨img', holds, fun filled => absurd rfl filled⟩, nofun, ?_, astray⟩
      exact iff_of_false (not_not.mpr rfl) fun all => by cases backs.mpr all.2.2
    | true =>
      obtain rfl := same rfl
      rw [← bytes] at holds
      have reading := reads path List.mem_cons_self len name (stackBytes strs sz img)
      rw [if_pos rfl]
      refine .bind (reading.loadStr name _ (Nat.zero_le len) (Or.inl (by omega)) holds) ?_
      rintro _ u ⟨rfl, holds⟩
      have inside : lastElem (s.text path 0 len) ≤ len := by
        have bound := lastElem_le (s.text path 0 len)
        rwa [St.text_length] at bound
      refine .bind (reading.safestrcpy name 15 inside holds) fun called u holds => ?_
      refine ⟨⟨_, holds, fun _ => rfl⟩, fun sp called is => ?_, ?_, astray⟩
      · exact (Prod.mk.inj (Option.some.inj is)).1.symm
      · exact iff_of_true (Option.some_ne_none _) ⟨few, all, backs.mp rfl⟩

/-- The frames of the new directory are the kernel's, so a byte put on its pages changes
nothing for the process. -/
theorem Follows.working (sound : s.Sound) (dir : d.Sound) {R : Nat → Prop} :
    Follows (fun _ t => Working s t d.frames) d R := by
  intro _ t x b _ word usable w
  obtain ⟨mapped, user⟩ := Pte.usable_iff.mp usable
  have half : x / 4096 < 2 ^ 19 := by
    by_contra kernel
    rw [dir.guarded _ (by omega)] at user
    cases user
  exact w.phys sound (poke_moves t.phys (PgDir.mem_frames half mapped) x b)

theorem execStack_spec (sound : s.Sound) (dir : d.Sound) (quiet : ∀ e u, e ≠ .exit → E e u)
    (sz path : Nat) (argv : List Nat) (args : ∀ arg ∈ path :: argv, ∃ n, s.IsStr arg n)
    (cut : ∀ arg ∈ path :: argv, ∀ n, s.IsStr arg n → ∀ e u, Cut s arg n d.frames e u → E e u)
    (w : Working s t d.frames) :
    Sat (execStack d sz path argv) t (fun _ u => Working s u d.frames) E := by
  obtain ⟨n, name⟩ := args path List.mem_cons_self
  obtain ⟨strs, spells⟩ := St.Spells.of_strings fun arg member =>
    args arg (List.mem_cons_of_mem _ member)
  refine (execStack_keeps (fun _ => 0) sound dir (.working sound dir) name spells
    (fun arg member k str _ => ?_) sz (fun _ _ u _ => quiet _ u nofun) w).imp
    (fun _ _ built => built.kept.elim fun _ kept => kept.1)
  intro j inside t w
  exact (load_str sound str w inside).mono (fun _ _ done => done) (cut arg member k str)

end Stack

end Xv6
