import Xv6.EntryWrites
import Xv6.ExecImage

/-! The stack a program starts with. A copy that succeeds has found every page of its range
usable, and the page below the stack is not, so an `exec` that succeeds has put all its
strings and words in the stack page. -/
namespace Xv6
open PteBit Control Writes

section Usable
variable {d : PgDir} {n : Nat}

/-- An object that is put on the stack below `sp`, on usable pages only, is in the stack page:
one that reaches below the page has a byte in the guard page, and one that wraps around
starts in the half of the kernel. -/
theorem Stacked.descends (stacked : Stacked d n) {sp len : Nat} (base : (n + 1) * 4096 ≤ sp)
    (top : sp ≤ (n + 2) * 4096) (some : 0 < len) (short : len ≤ 2 ^ 31)
    (usable : d.Backs (uint (sp + 2 ^ 32 - len) / 4 * 4) len) :
    len ≤ sp ∧ uint (sp + 2 ^ 32 - len) / 4 * 4 = (sp - len) / 4 * 4 ∧
      (n + 1) * 4096 ≤ (sp - len) / 4 * 4 := by
  have low : (n + 2) * 4096 ≤ 2 ^ 31 := stacked.low
  have fits : len ≤ sp := by
    by_contra wraps
    have start : uint (sp + 2 ^ 32 - len) = sp + 2 ^ 32 - len := by
      simp only [uint]
      omega
    rw [start] at usable
    have page := stacked.usable_page (by omega) (usable ((sp + 2 ^ 32 - len) / 4 * 4) le_rfl
      (by omega) (by omega))
    omega
  have start : uint (sp + 2 ^ 32 - len) = sp - len := by
    simp only [uint]
    omega
  rw [start] at usable ⊢
  refine ⟨fits, rfl, ?_⟩
  by_contra below
  have page := stacked.usable_page (v := max ((sp - len) / 4 * 4) (n * 4096) / 4096) (by omega)
    (usable _ (le_max_left _ _) (by omega) (by omega))
  omega

end Usable

/-- The strings are pushed one below the other from `sp` down to `low`, all of them above
`base`, at the addresses `ptrs`. -/
inductive Pushed (base : Nat) : List (List UInt8) → Nat → List Nat → Nat → Prop
  | nil (sp : Nat) : Pushed base [] sp [] sp
  | cons {str : List UInt8} {strs : List (List UInt8)} {sp low : Nat} {ptrs : List Nat}
      (fits : str.length + 1 ≤ sp) (above : base ≤ (sp - (str.length + 1)) / 4 * 4)
      (rest : Pushed base strs ((sp - (str.length + 1)) / 4 * 4) ptrs low) :
      Pushed base (str :: strs) sp ((sp - (str.length + 1)) / 4 * 4 :: ptrs) low

namespace Pushed
variable {base sp low : Nat} {strs : List (List UInt8)} {ptrs : List Nat}

theorem le (pushed : Pushed base strs sp ptrs low) : low ≤ sp := by
  induction pushed with
  | nil => exact le_rfl
  | cons => omega

theorem base_le (pushed : Pushed base strs sp ptrs low) (start : base ≤ sp) : base ≤ low := by
  induction pushed with
  | nil => exact start
  | cons _ above _ ih => exact ih above

theorem aligned (pushed : Pushed base strs sp ptrs low) (start : sp % 4 = 0) : low % 4 = 0 := by
  induction pushed with
  | nil => exact start
  | cons _ _ _ ih => exact ih (Nat.mul_mod_left _ _)

theorem length_eq (pushed : Pushed base strs sp ptrs low) : ptrs.length = strs.length := by
  induction pushed with
  | nil => rfl
  | cons _ _ _ ih => rw [List.length_cons, List.length_cons, ih]

/-- Every string takes at least the byte of its end. -/
theorem length_le (pushed : Pushed base strs sp ptrs low) : low + ptrs.length ≤ sp := by
  induction pushed with
  | nil => exact le_rfl
  | cons _ _ _ ih =>
    rw [List.length_cons]
    omega

theorem within (pushed : Pushed base strs sp ptrs low) :
    ∀ q ∈ ptrs.zip strs, low ≤ q.1 ∧ q.1 + (q.2.length + 1) ≤ sp := by
  induction pushed with
  | nil => exact fun q member => absurd member List.not_mem_nil
  | cons _ _ rest ih =>
    intro q member
    rw [List.zip_cons_cons] at member
    obtain rfl | later := List.mem_cons.mp member
    · have lowest := rest.le
      dsimp only
      omega
    · have inside := ih q later
      omega

theorem apart (pushed : Pushed base strs sp ptrs low) :
    (ptrs.zip strs).Pairwise fun p q => q.1 + (q.2.length + 1) ≤ p.1 := by
  induction pushed with
  | nil => exact List.Pairwise.nil
  | cons _ _ rest ih =>
    rw [List.zip_cons_cons]
    exact List.Pairwise.cons (fun q member => (rest.within q member).2) ih

/-- The addresses are those that `exec` computes. -/
theorem pointers (pushed : Pushed base strs sp ptrs low) (word : sp < 2 ^ 32) (args : List Nat)
    (img : Nat → UInt8) :
    (pushStrings strs sp args img).1 = low ∧ (pushStrings strs sp args img).2.1 = args ++ ptrs := by
  induction pushed generalizing args img with
  | nil => exact ⟨rfl, (List.append_nil args).symm⟩
  | @cons str strs sp low ptrs fits _ _ ih =>
    have start : uint (sp + 2 ^ 32 - (str.length + 1)) = sp - (str.length + 1) := by
      simp only [uint]
      omega
    rw [pushStrings, start]
    have rest := ih (by omega) (args ++ [(sp - (str.length + 1)) / 4 * 4])
      (splice img ((sp - (str.length + 1)) / 4 * 4) (str ++ [0]))
    rwa [List.append_assoc, List.singleton_append] at rest

theorem outside (pushed : Pushed base strs sp ptrs low) (word : sp < 2 ^ 32) (args : List Nat)
    (img : Nat → UInt8) {x : Nat} (out : x < low ∨ sp ≤ x) :
    (pushStrings strs sp args img).2.2 x = img x := by
  induction pushed generalizing args img with
  | nil => rfl
  | @cons str strs sp low ptrs fits _ rest ih =>
    have start : uint (sp + 2 ^ 32 - (str.length + 1)) = sp - (str.length + 1) := by
      simp only [uint]
      omega
    have lowest := rest.le
    rw [pushStrings, start]
    rw [ih (by omega) _ _ (by omega), splice_outside _ _ (by
      rw [List.length_append, List.length_singleton]
      omega)]

/-- Each string is at its address, with its end: the strings pushed later are below it. -/
theorem strings (pushed : Pushed base strs sp ptrs low) (word : sp < 2 ^ 32) (args : List Nat)
    (img : Nat → UInt8) :
    List.Forall₂ (fun p str => ∀ k ≤ str.length,
      (pushStrings strs sp args img).2.2 (p + k) = (str ++ [0]).getD k 0) ptrs strs := by
  induction pushed generalizing args img with
  | nil => exact .nil
  | @cons str strs sp low ptrs fits _ rest ih =>
    have start : uint (sp + 2 ^ 32 - (str.length + 1)) = sp - (str.length + 1) := by
      simp only [uint]
      omega
    rw [pushStrings, start]
    refine .cons (fun k inside => ?_) (ih (by omega) _ _)
    rw [rest.outside (by omega) _ _ (by omega), splice_inside _ _ (by omega) 0 (by
      rw [List.length_append, List.length_singleton]
      omega), Nat.add_sub_cancel_left]

end Pushed

theorem mencrypted_esp (s : St) (va : Nat) (len : Int) :
    (s.mencrypted va len).proc.esp = s.proc.esp := by
  unfold St.mencrypted
  split
  · split <;> rfl
  · rfl

/-- The bytes of the `i`-th word of a row. -/
theorem flatMap_leBytes_getD {words : List Nat} {i k w : Nat} (word : words[i]? = some w)
    (inside : k < 4) : (words.flatMap leBytes).getD (4 * i + k) 0 = (w / 2 ^ (8 * k)).toUInt8 := by
  induction words generalizing i with
  | nil => cases word
  | cons v words ih =>
    rw [List.flatMap_cons]
    cases i with
    | zero =>
      obtain rfl : v = w := Option.some.inj word
      rw [Nat.mul_zero, Nat.zero_add, List.getD_append _ _ _ _ (show k < (leBytes v).length from inside)]
      obtain rfl | rfl | rfl | rfl : k = 0 ∨ k = 1 ∨ k = 2 ∨ k = 3 := by omega
      · rw [Nat.mul_zero, Nat.pow_zero, Nat.div_one]
        rfl
      all_goals rfl
    | succ i =>
      have four : (leBytes v).length = 4 := rfl
      rw [List.getD_append_right _ _ _ _ (by omega), four,
        show 4 * (i + 1) + k - 4 = 4 * i + k by omega]
      exact ih word

section Stack
variable {s t : St} {d : PgDir} {n : Nat}

/-- Strings that are all put on usable pages are in the stack page. -/
theorem Stacked.pushed (stacked : Stacked d n) {strs : List (List UInt8)} {sp : Nat}
    (base : (n + 1) * 4096 ≤ sp) (top : sp ≤ (n + 2) * 4096)
    (short : ∀ str ∈ strs, str.length < 2 ^ 31) (backs : d.BacksStrings strs sp) :
    ∃ ptrs, Pushed ((n + 1) * 4096) strs sp ptrs (pushedTo strs sp) := by
  induction strs generalizing sp with
  | nil => exact ⟨[], .nil sp⟩
  | cons str strs ih =>
    have length := short str List.mem_cons_self
    obtain ⟨fits, start, above⟩ :=
      stacked.descends base top (Nat.succ_pos str.length) (by omega) backs.1
    have rest := backs.2
    rw [pushAt, start] at rest
    have lowest : pushedTo (str :: strs) sp = pushedTo strs ((sp - (str.length + 1)) / 4 * 4) := by
      rw [← start, pushedTo, pushStrings]
      exact pushStrings_fst _ _ _ _
    obtain ⟨ptrs, pushed⟩ := ih above (by omega)
      (fun str member => short str (List.mem_cons_of_mem _ member)) rest
    rw [lowest]
    exact ⟨_, .cons fits above pushed⟩

/-- The words below the strings are in the stack page as well. -/
theorem Stacked.top (stacked : Stacked d n) {strs : List (List UInt8)} {ptrs : List Nat}
    (pushed : Pushed ((n + 1) * 4096) strs ((n + 2) * 4096) ptrs (pushedTo strs ((n + 2) * 4096)))
    (backs : d.Backs (stackTop strs ((n + 2) * 4096)) ((3 + strs.length + 1) * 4)) :
    stackTop strs ((n + 2) * 4096) + (ptrs.length + 4) * 4 = pushedTo strs ((n + 2) * 4096) ∧
      (n + 1) * 4096 ≤ stackTop strs ((n + 2) * 4096) := by
  have base := pushed.base_le (by omega)
  have aligned := pushed.aligned (by omega)
  have below := pushed.le
  have few := pushed.length_le
  have count := pushed.length_eq
  rw [← count] at backs
  rw [stackTop, ← count] at backs ⊢
  generalize pushedTo strs ((n + 2) * 4096) = sp at *
  have whole : uint (sp + 2 ^ 32 - (3 + ptrs.length + 1) * 4) / 4 * 4 =
      uint (sp + 2 ^ 32 - (3 + ptrs.length + 1) * 4) := by
    simp only [uint]
    omega
  rw [← whole] at backs
  obtain ⟨fits, start, above⟩ := stacked.descends base below (by omega) (by omega) backs
  rw [whole] at start
  rw [start]
  omega

theorem St.Spells.short (sound : s.Sound) {argv : List Nat} {strs : List (List UInt8)}
    (spells : List.Forall₂ s.Spells argv strs) : ∀ str ∈ strs, str.length < 2 ^ 31 := by
  have size : s.proc.sz ≤ 2 ^ 31 := sound.size
  induction spells with
  | nil => exact fun str member => absurd member List.not_mem_nil
  | cons spell _ ih =>
    intro str member
    obtain rfl | later := List.mem_cons.mp member
    · obtain ⟨len, isStr, rfl⟩ := spell
      have below := isStr.below
      rw [St.text_length]
      omega
    · exact ih str later

theorem execCommit_esp (d : PgDir) (sz sp entry : Nat) (called : List UInt8) (t : St) :
    Sat (execCommit d sz sp entry called) t (fun _ u => u.proc.esp = sp) (fun _ _ => True) := by
  rw [execCommit, sat_bind, sat_get]
  simp only [sat_bind, modifyProc, switchuvm, sat_modify]
  refine (mencrypt_spec 0 _ _).mono ?_ (fun _ _ _ => trivial)
  rintro _ _ ⟨_, rfl⟩
  refine (mencrypt_spec _ 1 _).mono ?_ (fun _ _ _ => trivial)
  rintro _ _ ⟨_, rfl⟩
  rw [onPhys, sat_zoom]
  refine (sat_self _ _).mono (fun _ m _ => ?_) (fun _ _ _ => trivial)
  dsimp only
  rw [mencrypted_esp, mencrypted_esp]

end Stack

/-- The words at the initial stack pointer. -/
def argWords (esp : Nat) (ptrs : List Nat) : List Nat :=
  [0xffffffff, ptrs.length, esp + 12] ++ ptrs ++ [0]

/-- The process starts with the arguments on its stack: the words from the stack pointer on,
the strings they point to, and all of it apart from each other in the last page. -/
structure ArgStack (t : St) (strs : List (List UInt8)) (ptrs : List Nat) : Prop where
  words : ∀ i w, (argWords t.proc.esp ptrs)[i]? = some w → t.word (t.proc.esp + 4 * i) = w
  strings : List.Forall₂ t.Spells ptrs strs
  bottom : t.proc.sz - PGSIZE ≤ t.proc.esp
  inside : ∀ q ∈ ptrs.zip strs,
    t.proc.esp + 4 * (argWords t.proc.esp ptrs).length ≤ q.1 ∧ q.1 + (q.2.length + 1) ≤ t.proc.sz
  apart : (ptrs.zip strs).Pairwise fun p q => q.1 + (q.2.length + 1) ≤ p.1

/-- Where an `exec` that succeeds has put its arguments. -/
structure Placed (t : St) (n : Nat) (strs : List (List UInt8)) (ptrs : List Nat) (low : Nat) :
    Prop where
  pushed : Pushed ((n + 1) * 4096) strs ((n + 2) * 4096) ptrs low
  esp : t.proc.esp + (ptrs.length + 4) * 4 = low
  bottom : (n + 1) * 4096 ≤ t.proc.esp

theorem exec_placed {s : St} (sound : s.Sound) (namei : List UInt8 → Option Inode) {path len : Nat}
    {argv : List Nat} {strs : List (List UInt8)} (name : s.IsStr path len)
    (spells : List.Forall₂ s.Spells argv strs) :
    Sat (exec namei path argv) s (fun r u => r = 0 → ∃ ip, namei (s.text path 0 len) = some ip ∧
      Runs u ip strs ∧ ∃ ptrs low, Placed u ip.imagePages strs ptrs low) (fun _ _ => True) := by
  refine exec_through sound name (W := fun u => Working s u 0)
    (fun k inside u w => (load_str sound name w inside).mono (fun _ _ done => done)
      (fun _ _ _ => trivial)) (Working.refl s).rewind (fun _ _ _ => nofun) fun u ip w found _ => ?_
  refine execImage_through sound (W := Working s) (fun _ _ w => w) (fun _ _ _ _ w => w.phys sound) w
    rfl (fun _ _ _ => trivial) (fun _ _ => nofun) fun u d stacked w fill => ?_
  refine (execStack_filling sound stacked _ name spells fill).imp (fun r u built => ?_)
  obtain ⟨img, fill, same⟩ := built.kept
  refine ⟨fun _ => fill.work, fun sp called is => ?_⟩
  have filled : r ≠ none := by rw [is]; rintro ⟨⟩
  obtain rfl := same filled
  obtain rfl := built.value sp called is
  obtain ⟨_, backs, words⟩ := built.backs.mp filled
  obtain ⟨ptrs, pushed⟩ := stacked.pushed (by omega) le_rfl (St.Spells.short sound spells) backs
  obtain ⟨esp, bottom⟩ := stacked.top pushed words
  refine ((execCommit_filling sound stacked fill _ _ called).and
    (execCommit_esp d _ _ _ called u)).mono ?_ (fun _ _ _ => trivial)
  rintro _ v ⟨runs, is⟩ _
  rw [← is] at esp bottom
  exact ⟨ip, found, runs, ptrs, _, pushed, esp, bottom⟩

section Placed
variable {t : St} {ip : Inode} {strs : List (List UInt8)} {ptrs : List Nat} {low : Nat}

theorem Runs.peek (runs : Runs t ip strs) {a : Nat} (below : a < (ip.imagePages + 2) * 4096) :
    t.peek a = ip.memory strs a := by
  have size : t.proc.sz ≤ 2 ^ 31 := runs.size
  rw [runs.loaded.sz] at size
  have page : vpn a = a / 4096 := vpn_of_word (by omega)
  rw [St.peek, page, runs.plain _ (by omega)]
  exact congrArg (ip.memory strs) (Nat.div_add_mod' a 4096)

/-- The words of `exec` start at the stack pointer of the process. -/
theorem Placed.memory (placed : Placed t ip.imagePages strs ptrs low)
    (size : (ip.imagePages + 2) * 4096 ≤ 2 ^ 31) :
    ip.memory strs =
      splice (pushStrings strs ((ip.imagePages + 2) * 4096) [] ip.program).2.2 t.proc.esp
        ((argWords t.proc.esp ptrs).flatMap leBytes) := by
  obtain ⟨bottom, args⟩ := placed.pushed.pointers (by omega) [] ip.program
  have esp := placed.esp
  have top := placed.pushed.le
  have start : uint (low + 2 ^ 32 - (3 + ptrs.length + 1) * 4) = t.proc.esp := by
    simp only [uint]
    omega
  have array : uint (low + 2 ^ 32 - (ptrs.length + 1) * 4) = t.proc.esp + 12 := by
    simp only [uint]
    omega
  rw [List.nil_append] at args
  rw [Inode.memory, stackBytes]
  dsimp only
  rw [bottom, args, start, ustack, array]
  rfl

theorem argWords_length (esp : Nat) : (argWords esp ptrs).length = ptrs.length + 4 := by
  simp only [argWords, List.length_append, List.length_cons, List.length_nil]
  omega

theorem argWords_lt (esp : Nat) (top : esp + (ptrs.length + 4) * 4 < 2 ^ 32)
    (small : ∀ p ∈ ptrs, p < 2 ^ 32) : ∀ w ∈ argWords esp ptrs, w < 2 ^ 32 := by
  intro w member
  simp only [argWords, List.mem_append, List.mem_cons, List.not_mem_nil, or_false] at member
  obtain ((rfl | rfl | rfl) | pointer) | rfl := member
  · decide
  · omega
  · omega
  · exact small w pointer
  · decide

/-- The addresses of the strings are below the size of the process. -/
theorem Pushed.pointer_lt {base sp : Nat} (pushed : Pushed base strs sp ptrs low) :
    ∀ p ∈ ptrs, p < sp := by
  induction pushed with
  | nil => exact fun p member => absurd member List.not_mem_nil
  | cons _ _ _ ih =>
    intro p member
    obtain rfl | later := List.mem_cons.mp member
    · omega
    · have below := ih p later
      omega

theorem Placed.strings (placed : Placed t ip.imagePages strs ptrs low) (runs : Runs t ip strs)
    (texts : ∀ str ∈ strs, (0 : UInt8) ∉ str) : List.Forall₂ t.Spells ptrs strs := by
  have size : t.proc.sz ≤ 2 ^ 31 := runs.size
  rw [runs.loaded.sz] at size
  have bottom := placed.bottom
  have esp := placed.esp
  have within := placed.pushed.within
  refine (List.forall₂_iff_zip.mp (placed.pushed.strings (by omega) [] ip.program)).elim
    fun length bytes => List.forall₂_iff_zip.mpr ⟨length, fun {p str} member => ?_⟩
  obtain ⟨above, below⟩ := within _ member
  have bytes := bytes member
  dsimp only at above below
  have text : (0 : UInt8) ∉ str := texts str (List.of_mem_zip member).2
  have mapped : (t.proc.pgdir.flat (ip.imagePages + 1)).mapped = true := by
    simp [Pte.mapped, runs.loaded.stack]
  have peek : ∀ k ≤ str.length, t.peek (p + k) = (str ++ [0]).getD k 0 := by
    intro k inside
    rw [runs.peek (by omega), placed.memory size, splice_outside, bytes k inside]
    rw [flatMap_leBytes_length, argWords_length]
    omega
  refine ⟨str.length, ⟨?_, fun k inside => ?_, fun k inside => ?_, ?_⟩, ?_⟩
  · rw [runs.loaded.sz]
    omega
  · have page : vpn (p + k) = ip.imagePages + 1 := by
      simp only [vpn, PGSIZE]
      omega
    rw [page]
    exact mapped
  · rw [peek k (by omega), List.getD_append _ _ _ _ inside, List.getD_eq_getElem _ _ inside]
    exact fun zero => text (zero ▸ List.getElem_mem inside)
  · rw [peek _ le_rfl, List.getD_append_right _ _ _ _ le_rfl, Nat.sub_self]
    rfl
  · apply List.ext_getElem
    · rw [St.text, List.length_map, List.length_range', Nat.sub_zero]
    · intro k inside _
      simp only [St.text, List.getElem_map, List.getElem_range', Nat.zero_add, Nat.one_mul]
      rw [peek k (by omega), List.getD_append _ _ _ _ inside, List.getD_eq_getElem _ _ inside]

theorem Placed.argStack (placed : Placed t ip.imagePages strs ptrs low) (runs : Runs t ip strs)
    (texts : ∀ str ∈ strs, (0 : UInt8) ∉ str) : ArgStack t strs ptrs := by
  have size : t.proc.sz ≤ 2 ^ 31 := runs.size
  have sz := runs.loaded.sz
  rw [sz] at size
  have bottom := placed.bottom
  have esp := placed.esp
  have top := placed.pushed.le
  refine ⟨fun i w word => ?_, placed.strings runs texts, ?_, fun q member => ?_,
    placed.pushed.apart⟩
  · obtain ⟨inside, _⟩ := List.getElem?_eq_some_iff.mp word
    rw [argWords_length] at inside
    have pointers : ∀ p ∈ ptrs, p < 2 ^ 32 := fun p member =>
      (placed.pushed.pointer_lt p member).trans_le (size.trans (by decide))
    have small : w < 2 ^ 32 := argWords_lt t.proc.esp (by omega) pointers w (List.mem_of_getElem? word)
    refine word_of_bytes small fun k four => ?_
    rw [runs.peek (by omega), placed.memory size, splice_inside _ _ (by omega) 0 (by
      rw [flatMap_leBytes_length, argWords_length]
      omega), Nat.add_assoc, Nat.add_sub_cancel_left, flatMap_leBytes_getD word four]
  · rw [sz]
    simp only [PGSIZE]
    omega
  · obtain ⟨above, below⟩ := placed.pushed.within q member
    rw [argWords_length, sz]
    omega

/-- Outside the stack page the memory is the image of the program. -/
theorem Placed.elsewhere (placed : Placed t ip.imagePages strs ptrs low) (runs : Runs t ip strs)
    {v : Nat} (below : v < ip.imagePages + 2) (other : v ≠ ip.imagePages + 1) :
    t.plain v = imagePage ip.program v := by
  have size : t.proc.sz ≤ 2 ^ 31 := runs.size
  rw [runs.loaded.sz] at size
  have bottom := placed.bottom
  have esp := placed.esp
  rw [runs.plain v below]
  funext k
  have inside := k.isLt
  rw [imagePage, imagePage, placed.memory size, splice_outside _ _ (Or.inl (by omega)),
    placed.pushed.outside (by omega) _ _ (Or.inl (by omega))]

end Placed

/-- The strings that the kernel reads have no zero byte. -/
theorem St.Spells.texts {s : St} {argv : List Nat} {strs : List (List UInt8)}
    (spells : List.Forall₂ s.Spells argv strs) : ∀ str ∈ strs, (0 : UInt8) ∉ str := by
  induction spells with
  | nil => exact fun str member => absurd member List.not_mem_nil
  | cons spell _ ih =>
    intro str member
    obtain rfl | later := List.mem_cons.mp member
    · obtain ⟨len, isStr, rfl⟩ := spell
      intro zero
      rw [St.text, List.mem_map] at zero
      obtain ⟨j, inside, end_⟩ := zero
      rw [List.mem_range'_1] at inside
      exact isStr.body j (by omega) end_
    · exact ih str later

/-- An `exec` that succeeds leaves the arguments on the stack: the words at the stack pointer
and the strings they point to lie apart in the last page, and every other page of the process
is that of the program. -/
theorem exec_arguments {s t : St} (sound : s.Sound) {namei : List UInt8 → Option Inode}
    {path len : Nat} {argv : List Nat} {strs : List (List UInt8)} (name : s.IsStr path len)
    (spells : List.Forall₂ s.Spells argv strs) (run : (exec namei path argv).run s = .ok 0 t) :
    ∃ ip ptrs, namei (s.text path 0 len) = some ip ∧ ArgStack t strs ptrs ∧
      ∀ v, v * PGSIZE < t.proc.sz - PGSIZE → t.plain v = imagePage ip.program v := by
  obtain ⟨ip, found, runs, ptrs, low, placed⟩ :=
    (exec_placed sound namei name spells).of_ok run rfl
  refine ⟨ip, ptrs, found, placed.argStack runs (St.Spells.texts spells), fun v below => ?_⟩
  rw [runs.loaded.sz] at below
  simp only [PGSIZE] at below
  exact placed.elsewhere runs (by omega) (by omega)

/-- A program that is started with the argument "a" twice finds it on its stack. -/
theorem two_arguments :
    ∃ t, (exec (fun _ => some (zeroFile 1)) 0x1000 [0x1000, 0x1000]).run launchSt = .ok 0 t ∧
      ∃ ip ptrs, some (zeroFile 1) = some ip ∧ ArgStack t [[97], [97]] ptrs ∧
        ∀ v, v * PGSIZE < t.proc.sz - PGSIZE → t.plain v = imagePage ip.program v := by
  obtain ⟨t, run⟩ := launchSt_returns (n := 1) (Or.inl rfl) (k := 2) (by decide)
  exact ⟨t, run, exec_arguments launchSt_sound launchSt_name (launchSt_spells 2) run⟩

end Xv6
