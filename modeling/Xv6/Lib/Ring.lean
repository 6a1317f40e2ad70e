import Mathlib.Data.List.Basic
import Mathlib.Data.List.Nodup
import Mathlib.Logic.Function.Basic
import Mathlib.Order.Lattice

/-! Circular doubly linked lists through a sentinel node. The links are two functions
on the nodes, and the list is what one meets on the way round. -/
namespace Ring
open Function (update update_of_ne update_self)

variable {N : Type} {f g : N → N} {a b z : N} {xs l r : List N}

/-- From `a` the links lead over the nodes `xs` to `z`. -/
def Path (f : N → N) : N → List N → N → Prop
  | a, [], z => f a = z
  | a, x :: xs, z => f a = x ∧ Path f x xs z

theorem path_append : Path f a (l ++ b :: r) z ↔ Path f a l b ∧ Path f b r z := by
  induction l generalizing a with
  | nil => exact Iff.rfl
  | cons x l ih =>
    simp only [List.cons_append, Path, ih]
    exact and_assoc.symm

/-- Only the links of the nodes on the way count. -/
theorem Path.congr (path : Path f a xs z) (same : ∀ x ∈ a :: xs, g x = f x) : Path g a xs z := by
  induction xs generalizing a with
  | nil => rwa [Path, same a List.mem_cons_self]
  | cons x xs ih =>
    obtain ⟨first, rest⟩ := path
    refine ⟨by rw [same a List.mem_cons_self, first], ih rest fun y member => ?_⟩
    exact same y (List.mem_cons_of_mem a member)

/-- The first node on the way, or its end. -/
theorem Path.first (path : Path f a xs z) : f a = xs.headD z := by
  cases xs with
  | nil => exact path
  | cons x xs => exact path.1

/-- From the first part of a way to the second. -/
theorem Path.junction (path : Path f a (l ++ r) z) : f (l.getLastD a) = r.headD z := by
  induction l generalizing a with
  | nil => exact path.first
  | cons x l ih =>
    rw [List.getLastD_cons]
    exact ih path.2

/-- The node whose link leads to the end is the last one. -/
theorem Path.last {y : N} (path : Path f a xs z) (away : z ∉ xs) (member : y ∈ a :: xs) (ends : f y = z) :
    y = xs.getLastD a := by
  induction xs generalizing a with
  | nil => exact List.mem_singleton.mp member
  | cons x xs ih =>
    rw [List.getLastD_cons]
    rcases List.mem_cons.mp member with rfl | later
    · exact absurd (path.1.symm.trans ends ▸ List.mem_cons_self) away
    · exact ih path.2 (fun later => away (List.mem_cons_of_mem x later)) later

/-- The link of any other node leads to one on the way. -/
theorem Path.onward {y : N} (path : Path f a xs z) (member : y ∈ a :: xs) (goes : f y ≠ z) : f y ∈ xs := by
  induction xs generalizing a with
  | nil => exact absurd (List.mem_singleton.mp member ▸ path) goes
  | cons x xs ih =>
    rcases List.mem_cons.mp member with rfl | later
    · exact path.1 ▸ List.mem_cons_self
    · exact List.mem_cons_of_mem x (ih path.2 later)

/-- A way round may start at any of its nodes. -/
theorem Path.rotate (path : Path f a (l ++ b :: r) a) : Path f b (r ++ a :: l) b :=
  path_append.mpr (path_append.mp path).symm

theorem Path.around (path : Path f a xs a) (start : b ∈ a :: xs) :
    ∃ ys, Path f b ys b ∧ (b :: ys).Perm (a :: xs) := by
  rcases List.mem_cons.mp start with rfl | inside
  · exact ⟨xs, path, .refl _⟩
  · obtain ⟨l, r, rfl⟩ := List.append_of_mem inside
    have perm : (b :: r ++ a :: l).Perm (a :: l ++ b :: r) := List.perm_append_comm
    exact ⟨r ++ a :: l, path.rotate, perm⟩

/-- The node before another one is the only one that leads there. -/
theorem Path.before {y : N} (path : Path f a (l ++ b :: r) z) (once : (a :: (l ++ b :: r)).Nodup) (away : b ≠ z)
    (member : y ∈ a :: (l ++ b :: r)) (leads : f y = b) : y = l.getLastD a := by
  obtain ⟨first, second⟩ := path_append.mp path
  have parts : (a :: l ++ b :: r).Nodup := once
  obtain ⟨_, onceAfter, apart⟩ := List.nodup_append.mp parts
  rcases List.mem_append.mp (show y ∈ a :: l ++ b :: r from member) with early | late
  · refine first.last (fun later => ?_) early leads
    exact apart b (List.mem_cons_of_mem a later) b List.mem_cons_self rfl
  · have onward := second.onward late (leads ▸ away)
    rw [leads] at onward
    exact absurd onward (List.nodup_cons.mp onceAfter).1

/-- On a way upwards, every link but the last leads to the next node above. -/
theorem Path.next_above [LinearOrder N] {y : N} (path : Path f a xs z) (sorted : (a :: xs).Pairwise (· < ·))
    (member : y ∈ a :: xs) : f y = z ∧ (∀ v ∈ a :: xs, v ≤ y) ∨
      f y ∈ xs ∧ y < f y ∧ ∀ v ∈ a :: xs, v ≤ y ∨ f y ≤ v := by
  induction xs generalizing a with
  | nil =>
    cases List.mem_singleton.mp member
    refine .inl ⟨path, fun v member => ?_⟩
    rw [List.mem_singleton.mp member]
  | cons x xs ih =>
    obtain ⟨first, rest⟩ := path
    obtain ⟨above, ordered⟩ := List.pairwise_cons.mp sorted
    rcases List.mem_cons.mp member with rfl | later
    · refine .inr ⟨first ▸ List.mem_cons_self, first ▸ above x List.mem_cons_self, fun v member => ?_⟩
      rcases List.mem_cons.mp member with rfl | later
      · exact .inl le_rfl
      · rw [first]
        rcases List.mem_cons.mp later with rfl | later
        · exact .inr le_rfl
        · exact .inr ((List.pairwise_cons.mp ordered).1 v later).le
    · have low : a ≤ y := (above y later).le
      rcases ih rest ordered later with ⟨ends, highest⟩ | ⟨goes, up, next⟩
      · refine .inl ⟨ends, fun v member => ?_⟩
        rcases List.mem_cons.mp member with rfl | later
        · exact low
        · exact highest v later
      · refine .inr ⟨List.mem_cons_of_mem x goes, up, fun v member => ?_⟩
        rcases List.mem_cons.mp member with rfl | later
        · exact .inl low
        · exact next v later

section Updates
variable [DecidableEq N]

/-- The last link on the way is turned to another node. -/
theorem Path.retarget (path : Path f a xs z) (once : (a :: xs).Nodup) (w : N) :
    Path (update f (xs.getLastD a) w) a xs w := by
  induction xs generalizing a with
  | nil => exact update_self a w f
  | cons x xs ih =>
    obtain ⟨first, rest⟩ := path
    obtain ⟨fresh, once⟩ := List.nodup_cons.mp once
    rw [List.getLastD_cons]
    refine ⟨?_, ih rest once⟩
    rw [update_of_ne, first]
    rintro rfl
    exact fresh List.getLastD_mem_cons

/-- A node is left out. -/
theorem Path.skip (path : Path f a (l ++ b :: r) z) (once : (a :: (l ++ b :: r)).Nodup) :
    Path (update f (l.getLastD a) (f b)) a (l ++ r) z := by
  obtain ⟨before, after⟩ := path_append.mp path
  have parts : (a :: l ++ b :: r).Nodup := once
  obtain ⟨onceBefore, _, apart⟩ := List.nodup_append.mp parts
  have target := before.retarget onceBefore (f b)
  cases r with
  | nil =>
    rw [List.append_nil]
    rwa [show f b = z from after] at target ⊢
  | cons x r =>
    obtain ⟨first, rest⟩ := after
    rw [first] at target ⊢
    refine path_append.mpr ⟨target, rest.congr fun y member => update_of_ne ?_ _ _⟩
    rintro rfl
    exact apart _ List.getLastD_mem_cons _ (List.mem_cons_of_mem b member) rfl

/-- The first link of a way starts from a new node, and the old one leads there. -/
theorem Path.enter (path : Path f a xs z) (new : b ∉ a :: xs) (once : (a :: xs).Nodup) :
    Path (update (update f b (f a)) a b) a (b :: xs) z := by
  have ne : b ≠ a := fun same => new (same ▸ List.mem_cons_self)
  refine ⟨update_self _ _ _, ?_⟩
  have start : update (update f b (f a)) a b b = f a := by
    rw [update_of_ne ne, update_self]
  cases xs with
  | nil => exact start.trans path
  | cons x xs =>
    refine ⟨start.trans path.1, path.2.congr fun y member => ?_⟩
    rw [update_of_ne, update_of_ne]
    · rintro rfl
      exact new (List.mem_cons_of_mem a member)
    · rintro rfl
      exact (List.nodup_cons.mp once).1 member

/-- A new node is put behind the first part of a way. -/
theorem Path.insert (path : Path f a (l ++ r) z) (once : (a :: (l ++ r)).Nodup) (new : b ∉ a :: (l ++ r)) :
    Path (update (update f b (f (l.getLastD a))) (l.getLastD a) b) a (l ++ b :: r) z := by
  induction l generalizing a with
  | nil => exact path.enter new once
  | cons x l ih =>
    obtain ⟨first, rest⟩ := path
    obtain ⟨fresh, once⟩ := List.nodup_cons.mp once
    rw [List.getLastD_cons]
    refine ⟨?_, ih rest once fun member => new (List.mem_cons_of_mem a member)⟩
    have notLast : a ≠ l.getLastD x := by
      rintro rfl
      exact fresh (List.mem_append_left r List.getLastD_mem_cons)
    have notNew : a ≠ b := by
      rintro rfl
      exact new List.mem_cons_self
    rw [update_of_ne notLast, update_of_ne notNew, first]

end Updates

theorem headD_reverse (l : List N) (a : N) : l.reverse.headD a = l.getLastD a := by
  rw [List.headD_eq_head?_getD, List.head?_reverse, List.getLastD_eq_getLast?]

theorem getLastD_reverse (l : List N) (a : N) : l.reverse.getLastD a = l.headD a := by
  rw [List.getLastD_eq_getLast?, List.getLast?_reverse, List.headD_eq_head?_getD]

/-- The two links of every node. -/
structure Links (N : Type) where
  next : N → N
  prev : N → N

/-- The links lead around over `xs`, one way and the other. -/
structure Links.Around (ls : Links N) (head : N) (xs : List N) : Prop where
  forward : Path ls.next head xs head
  backward : Path ls.prev head xs.reverse head
  once : (head :: xs).Nodup

namespace Links.Around
variable {ls : Links N} {head : N}

theorem ends (around : ls.Around head xs) :
    ls.next head = xs.headD head ∧ ls.prev head = xs.getLastD head := by
  refine ⟨around.forward.first, ?_⟩
  rw [around.backward.first, headD_reverse]

theorem parts (around : ls.Around head (l ++ b :: r)) :
    ls.next b = r.headD head ∧ ls.prev b = l.getLastD head := by
  have backward := around.backward
  rw [List.reverse_append, List.reverse_cons, List.append_assoc, List.singleton_append] at backward
  refine ⟨(path_append.mp around.forward).2.first, ?_⟩
  rw [(path_append.mp backward).2.first, headD_reverse]

theorem prev_next (around : ls.Around head xs) {n : N} (member : n ∈ head :: xs) :
    ls.prev (ls.next n) = n := by
  obtain rfl | member := List.mem_cons.mp member
  · cases xs with
    | nil => rw [around.ends.1, List.headD_nil, around.ends.2, List.getLastD_nil]
    | cons x xs =>
      have first : ls.Around n ([] ++ x :: xs) := around
      rw [around.ends.1, List.headD_cons, first.parts.2, List.getLastD_nil]
  · obtain ⟨l, r, rfl⟩ := List.append_of_mem member
    rw [around.parts.1]
    cases r with
    | nil => rw [List.headD_nil, around.ends.2, List.getLastD_concat]
    | cons x r =>
      rw [List.append_cons] at around
      rw [List.headD_cons, around.parts.2, List.getLastD_concat]

theorem next_prev (around : ls.Around head xs) {n : N} (member : n ∈ head :: xs) :
    ls.next (ls.prev n) = n := by
  obtain rfl | member := List.mem_cons.mp member
  · rw [around.ends.2]
    rcases List.eq_nil_or_concat xs with rfl | ⟨l, y, rfl⟩
    · rw [List.getLastD_nil, around.ends.1, List.headD_nil]
    · rw [List.concat_eq_append] at around ⊢
      rw [List.getLastD_concat, around.parts.1, List.headD_nil]
  · obtain ⟨l, r, rfl⟩ := List.append_of_mem member
    rw [around.parts.2]
    rcases List.eq_nil_or_concat l with rfl | ⟨l, y, rfl⟩
    · rw [List.getLastD_nil, around.ends.1, List.nil_append, List.headD_cons]
    · rw [List.concat_eq_append] at around ⊢
      rw [List.append_assoc, List.singleton_append] at around
      rw [List.getLastD_concat, around.parts.1, List.headD_cons]

end Links.Around

namespace Links
variable [DecidableEq N]

/-- Take a node out of its place. -/
def unlink (ls : Links N) (b : N) : Links N where
  next := update ls.next (ls.prev b) (ls.next b)
  prev := update ls.prev (ls.next b) (ls.prev b)

/-- Put a node right after the sentinel. -/
def push (ls : Links N) (head b : N) : Links N :=
  let next := update ls.next b (ls.next head)
  let prev := update ls.prev b head
  ⟨update next head b, update prev (next head) b⟩

namespace Around
variable {ls : Links N} {head : N}

theorem unlink (around : ls.Around head (l ++ b :: r)) : (ls.unlink b).Around head (l ++ r) := by
  obtain ⟨after, before⟩ := around.parts
  have backward := around.backward
  have once : (head :: (l ++ b :: r).reverse).Nodup := by
    rw [List.nodup_cons, List.mem_reverse, List.nodup_reverse, ← List.nodup_cons]
    exact around.once
  rw [List.reverse_append, List.reverse_cons, List.append_assoc, List.singleton_append] at backward once
  constructor
  · rw [Links.unlink, before]
    exact around.forward.skip around.once
  · have skipped := backward.skip once
    rw [getLastD_reverse, ← after] at skipped
    rwa [List.reverse_append]
  · exact around.once.sublist ((List.sublist_append_right [b] r).append_left l |>.cons_cons head)

theorem push (around : ls.Around head xs) (new : b ∉ head :: xs) :
    (ls.push head b).Around head (b :: xs) := by
  have ne : b ≠ head := fun same => new (same ▸ List.mem_cons_self)
  have first : update ls.next b (ls.next head) head = xs.headD head := by
    rw [update_of_ne ne.symm, around.forward.first]
  constructor
  · exact around.forward.enter new around.once
  · have onceBack : (head :: xs.reverse).Nodup := by
      rw [List.nodup_cons, List.mem_reverse, List.nodup_reverse, ← List.nodup_cons]
      exact around.once
    have apart : ∀ x ∈ head :: xs.reverse, x ≠ b := by
      rintro x member rfl
      rw [List.mem_cons, List.mem_reverse, ← List.mem_cons] at member
      exact new member
    rw [List.reverse_cons, path_append]
    dsimp only [Links.push]
    rw [first, ← getLastD_reverse]
    constructor
    · refine (around.backward.congr fun x member => ?_).retarget onceBack b
      exact update_of_ne (apart x member) _ _
    · rw [Path, update_of_ne, update_self]
      exact (apart _ List.getLastD_mem_cons).symm
  · refine List.nodup_cons.mpr ⟨?_, List.nodup_cons.mpr ⟨?_, (List.nodup_cons.mp around.once).2⟩⟩
    · intro member
      obtain same | member := List.mem_cons.mp member
      · exact ne same.symm
      · exact (List.nodup_cons.mp around.once).1 member
    · exact fun member => new (List.mem_cons_of_mem head member)

end Around
end Links

/-- Follow the links from `x` to the first node that passes the test, until `stop`.
Nothing is returned when the links lead on and on. -/
def seek [DecidableEq N] (f : N → N) (stop : N) (test : N → Bool) : Nat → N → Option (Option N)
  | 0, _ => none
  | n + 1, x =>
    if x = stop then some none
    else if test x then some (some x)
    else seek f stop test n (f x)

theorem seek_path [DecidableEq N] (test : N → Bool) (path : Path f a xs z) (away : z ∉ xs)
    {fuel : Nat} (enough : xs.length < fuel) : seek f z test fuel (f a) = some (xs.find? test) := by
  induction xs generalizing a fuel with
  | nil =>
    obtain ⟨n, rfl⟩ := Nat.exists_eq_add_of_lt enough
    rw [show f a = z from path]
    exact if_pos rfl
  | cons x xs ih =>
    obtain ⟨first, rest⟩ := path
    rw [List.length_cons] at enough
    obtain ⟨n, rfl⟩ : ∃ n, fuel = n + 1 := ⟨fuel - 1, by omega⟩
    rw [first, seek, if_neg fun same : x = z => away (same ▸ List.mem_cons_self)]
    cases passes : test x with
    | true => rw [if_pos rfl, List.find?_cons_of_pos passes]
    | false =>
      rw [if_neg (by simp), List.find?_cons_of_neg (by simp [passes])]
      exact ih rest (fun member => away (List.mem_cons_of_mem x member)) (by omega)

/-- Follow the links from `x` to the first node that passes the test. Nothing is returned
when they lead on and on. -/
def hunt (f : N → N) (test : N → Bool) : Nat → N → Option N
  | 0, _ => none
  | n + 1, x => if test x then some x else hunt f test n (f x)

/-- More turns change no result. -/
theorem hunt_more {test : N → Bool} {y : N} {n m : Nat} (found : hunt f test n a = some y) (more : n ≤ m) :
    hunt f test m a = some y := by
  induction n generalizing a m with
  | zero => exact nomatch found
  | succ n ih =>
    obtain ⟨m, rfl⟩ := Nat.exists_eq_add_of_le' (Nat.one_le_of_lt more)
    unfold hunt at found ⊢
    by_cases passes : test a = true
    · rwa [if_pos passes] at found ⊢
    · rw [if_neg passes] at found ⊢
      exact ih found (Nat.le_of_succ_le_succ more)

theorem hunt_path {test : N → Bool} (path : Path f a xs z) (passes : ∃ y ∈ a :: xs, test y = true)
    {fuel : Nat} (enough : xs.length < fuel) : ∃ y ∈ a :: xs, test y = true ∧ hunt f test fuel a = some y := by
  induction xs generalizing a fuel with
  | nil =>
    obtain ⟨n, rfl⟩ := Nat.exists_eq_add_of_lt enough
    obtain ⟨y, member, passes⟩ := passes
    cases List.mem_singleton.mp member
    exact ⟨a, member, passes, if_pos passes⟩
  | cons x xs ih =>
    rw [List.length_cons] at enough
    obtain ⟨n, rfl⟩ : ∃ n, fuel = n + 1 := ⟨fuel - 1, by omega⟩
    by_cases here : test a = true
    · exact ⟨a, List.mem_cons_self, here, if_pos here⟩
    · obtain ⟨first, rest⟩ := path
      obtain ⟨y, member, passes⟩ := passes
      have later : y ∈ x :: xs := by
        rcases List.mem_cons.mp member with rfl | later
        · exact absurd passes here
        · exact later
      have shorter : xs.length < n := by omega
      obtain ⟨y, member, passes, found⟩ := ih rest ⟨y, later, passes⟩ shorter
      refine ⟨y, List.mem_cons_of_mem a member, passes, ?_⟩
      rw [hunt, if_neg here, first, found]

/-- On a way round, the one node that passes is found from everywhere. -/
theorem hunt_ring {test : N → Bool} {y : N} (path : Path f a xs a) (start : b ∈ a :: xs) (member : y ∈ a :: xs)
    (only : ∀ x ∈ a :: xs, test x = true ↔ x = y) {fuel : Nat} (enough : xs.length < fuel) :
    hunt f test fuel b = some y := by
  obtain ⟨ys, around, perm⟩ := path.around start
  have length : ys.length = xs.length := Nat.succ.inj perm.length_eq
  obtain ⟨x, at_, passes, found⟩ :=
    hunt_path around ⟨y, perm.mem_iff.mpr member, (only y member).mpr rfl⟩ (length ▸ enough)
  rw [found, (only x (perm.mem_iff.mp at_)).mp passes]

end Ring
