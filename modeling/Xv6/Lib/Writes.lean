import Mathlib.Data.List.Basic
import Mathlib.Logic.Function.Basic

/-! Sequences of writes to a store of cells. The prefixes of a sequence are what a
store can hold when the writer is stopped. -/
namespace Writes
open Function (update update_of_ne update_self)

variable {α β : Type} [DecidableEq α]

/-- The store after the writes, the first one first. -/
def apply (ws : List (α × β)) (d : α → β) : α → β :=
  ws.foldl (fun d w => update d w.1 w.2) d

variable {ws vs : List (α × β)} {d e : α → β} {a : α}

@[simp] theorem apply_nil (d : α → β) : apply [] d = d := rfl

@[simp] theorem apply_cons (w : α × β) (ws : List (α × β)) (d : α → β) :
    apply (w :: ws) d = apply ws (update d w.1 w.2) := rfl

theorem apply_append (ws vs : List (α × β)) (d : α → β) :
    apply (ws ++ vs) d = apply vs (apply ws d) := List.foldl_append

/-- A cell that is not written keeps its content. -/
theorem apply_of_notMem (absent : ∀ w ∈ ws, w.1 ≠ a) : apply ws d a = d a := by
  induction ws generalizing d with
  | nil => rfl
  | cons w ws ih =>
    rw [apply_cons, ih fun v member => absent v (List.mem_cons_of_mem _ member),
      update_of_ne (absent w List.mem_cons_self).symm]

/-- What a cell holds after the writes depends on its old content only if it is
not written. -/
theorem apply_congr (same : d a = e a ∨ ∃ w ∈ ws, w.1 = a) : apply ws d a = apply ws e a := by
  induction ws generalizing d e with
  | nil =>
    obtain same | ⟨w, member, _⟩ := same
    · exact same
    · cases member
  | cons w ws ih =>
    rw [apply_cons, apply_cons]
    apply ih
    by_cases here : a = w.1
    · left
      rw [here, update_self, update_self]
    · obtain same | ⟨v, member, at_⟩ := same
      · left
        rw [update_of_ne here, update_of_ne here, same]
      · obtain rfl | later := List.mem_cons.mp member
        · exact absurd at_.symm here
        · exact Or.inr ⟨v, later, at_⟩

/-- Where no cell is written twice, each write is what its cell holds in the end. -/
theorem apply_of_mem (once : (ws.map Prod.fst).Nodup) {w : α × β} (member : w ∈ ws) :
    apply ws d w.1 = w.2 := by
  induction ws generalizing d with
  | nil => cases member
  | cons v ws ih =>
    obtain ⟨fresh, once⟩ := List.nodup_cons.mp once
    rw [apply_cons]
    obtain rfl | later := List.mem_cons.mp member
    · rw [apply_of_notMem fun u inside same => fresh (List.mem_map.mpr ⟨u, inside, same⟩),
        update_self]
    · exact ih once later

/-- Writing everything once more after some of the writes. -/
theorem apply_apply_take (ws : List (α × β)) (k : Nat) (d : α → β) :
    apply ws (apply (ws.take k) d) = apply ws d := by
  funext a
  apply apply_congr
  by_cases written : ∃ w ∈ ws, w.1 = a
  · exact Or.inr written
  · left
    refine apply_of_notMem fun w member here => ?_
    exact written ⟨w, List.mem_of_mem_take member, here⟩

section Splice
variable {x n : Nat}

/-- The store after the values are put in the cells from `n` on. -/
def splice (d : Nat → β) (n : Nat) : List β → Nat → β
  | [] => d
  | b :: bs => splice (update d n b) (n + 1) bs

theorem splice_append (d : Nat → β) (n : Nat) (bs cs : List β) :
    splice d n (bs ++ cs) = splice (splice d n bs) (n + bs.length) cs := by
  induction bs generalizing d n with
  | nil => rfl
  | cons b bs ih =>
    rw [List.cons_append, splice, splice, ih, List.length_cons, Nat.add_assoc, Nat.add_comm 1]

theorem splice_outside (d : Nat → β) (bs : List β) (outside : x < n ∨ n + bs.length ≤ x) :
    splice d n bs x = d x := by
  induction bs generalizing d n with
  | nil => rfl
  | cons b bs ih =>
    rw [List.length_cons] at outside
    rw [splice, ih _ (by omega), update_of_ne (by omega)]

theorem splice_inside (d : Nat → β) (bs : List β) (low : n ≤ x) (e : β)
    (high : x < n + bs.length) : splice d n bs x = bs.getD (x - n) e := by
  induction bs generalizing d n with
  | nil =>
    rw [List.length_nil] at high
    omega
  | cons b bs ih =>
    rw [List.length_cons] at high
    rw [splice]
    by_cases here : x = n
    · subst here
      rw [splice_outside _ _ (by omega), update_self, Nat.sub_self, List.getD_cons_zero]
    · obtain ⟨k, rfl⟩ : ∃ k, x = n + 1 + k := ⟨x - n - 1, by omega⟩
      rw [ih _ (by omega) (by omega), Nat.add_sub_cancel_left, Nat.add_assoc,
        Nat.add_sub_cancel_left, Nat.add_comm 1, List.getD_cons_succ]

end Splice

end Writes
