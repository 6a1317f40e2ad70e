import Mathlib.Algebra.Order.Group.Nat
import Mathlib.Data.List.Basic
import Mathlib.Data.UInt
import Mathlib.Logic.Function.Basic

/-! Circular buffers with free-running 32-bit indices that are reduced modulo the size
at each access. The size divides `2^32`, so the indices may wrap. -/
namespace Circular

section Distance

/-- How far `b` is ahead of `a`. -/
def ahead (a b : UInt32) : Nat := (b - a).toNat

variable {a b : UInt32}

theorem ahead_self (a : UInt32) : ahead a a = 0 := by simp [ahead]

theorem ahead_eq_zero : ahead a b = 0 ↔ a = b := by
  unfold ahead
  constructor
  · intro zero
    apply UInt32.toNat_inj.mp
    rw [UInt32.toNat_sub] at zero
    have := a.toNat_lt
    have := b.toNat_lt
    omega
  · rintro rfl
    simp

theorem add_ahead (a b : UInt32) : a + UInt32.ofNat (ahead a b) = b := by
  simp [ahead]

theorem ahead_next (room : ahead a b + 1 < 2 ^ 32) : ahead a (b + 1) = ahead a b + 1 := by
  simp only [ahead, UInt32.toNat_sub, UInt32.toNat_add, UInt32.toNat_one] at *
  have := a.toNat_lt
  have := b.toNat_lt
  omega

theorem ahead_of_next (some : ahead a b ≠ 0) : ahead (a + 1) b + 1 = ahead a b := by
  simp only [ahead, UInt32.toNat_sub, UInt32.toNat_add, UInt32.toNat_one] at *
  have := a.toNat_lt
  have := b.toNat_lt
  omega

theorem ahead_prev (some : ahead a b ≠ 0) : ahead a (b - 1) + 1 = ahead a b := by
  simp only [ahead, UInt32.toNat_sub, UInt32.toNat_one] at *
  have := a.toNat_lt
  have := b.toNat_lt
  omega

theorem ahead_add {c : UInt32} (between : ahead a b ≤ ahead a c) : ahead a b + ahead b c = ahead a c := by
  simp only [ahead, UInt32.toNat_sub] at *
  have := a.toNat_lt
  have := b.toNat_lt
  have := c.toNat_lt
  omega

theorem eq_add_iff {n : Nat} (small : n < 2 ^ 32) : b = a + UInt32.ofNat n ↔ ahead a b = n := by
  constructor
  · rintro rfl
    simpa [ahead] using small
  · rintro rfl
    exact (add_ahead a b).symm

end Distance

section Items
variable {α : Type*} {N : Nat} [NeZero N]

/-- The place in the buffer that an index stands for. -/
def slot (N : Nat) [NeZero N] (i : UInt32) : Fin N := Fin.ofNat N i.toNat

/-- The next `k` entries from index `a` on. -/
def items (data : Fin N → α) (a : UInt32) (k : Nat) : List α :=
  (List.range k).map fun j => data (slot N (a + UInt32.ofNat j))

variable {data : Fin N → α} {a : UInt32} {k : Nat}

theorem items_succ : items data a (k + 1) = items data a k ++ [data (slot N (a + UInt32.ofNat k))] := by
  simp [items, List.range_succ]

theorem items_cons : items data a (k + 1) = data (slot N a) :: items data (a + 1) k := by
  simp only [items, List.range_succ_eq_map, List.map_cons, List.map_map]
  congr 1
  · simp
  · apply List.map_congr_left
    intro j _
    simp only [Function.comp, Nat.succ_eq_add_one, UInt32.ofNat_add]
    rw [UInt32.add_comm (UInt32.ofNat j), UInt32.add_assoc]
    rfl

theorem items_append {n : Nat} : items data a (k + n) = items data a k ++ items data (a + UInt32.ofNat k) n := by
  induction n with
  | zero => simp [items]
  | succ n ih =>
    rw [← Nat.add_assoc, items_succ, items_succ, ih, List.append_assoc, UInt32.ofNat_add, UInt32.add_assoc]

/-- Different entries of a full buffer are at different places. -/
theorem slot_inj (divides : N ∣ 2 ^ 32) {i j : Nat} (i_lt : i < N) (j_lt : j < N)
    (same : slot N (a + UInt32.ofNat i) = slot N (a + UInt32.ofNat j)) : i = j := by
  have plain : ∀ n, (a + UInt32.ofNat n).toNat % N = (a.toNat + n) % N := by
    intro n
    rw [UInt32.toNat_add, Nat.mod_mod_of_dvd _ divides, UInt32.toNat_ofNat', Nat.add_mod,
      Nat.mod_mod_of_dvd _ divides, ← Nat.add_mod]
  have equal := congrArg Fin.val same
  simp only [slot, Fin.val_ofNat, plain] at equal
  have modeq : i ≡ j [MOD N] := Nat.ModEq.add_left_cancel' a.toNat equal
  exact Nat.ModEq.eq_of_lt_of_lt modeq i_lt j_lt

/-- An entry behind the others may be changed. -/
theorem items_update (data : Fin N → α) (a : UInt32) (divides : N ∣ 2 ^ 32) {n : Nat} (behind : k ≤ n) (room : n < N) (c : α) :
    items (Function.update data (slot N (a + UInt32.ofNat n)) c) a k = items data a k := by
  apply List.map_congr_left
  intro j member
  have j_lt := List.mem_range.mp member
  apply Function.update_of_ne
  intro same
  have := slot_inj divides (by omega) room same
  omega

/-- A new entry is appended. -/
theorem items_push (data : Fin N → α) (a : UInt32) (divides : N ∣ 2 ^ 32) (room : k < N) (c : α) :
    items (Function.update data (slot N (a + UInt32.ofNat k)) c) a (k + 1) = items data a k ++ [c] := by
  rw [items_succ, items_update data a divides le_rfl room, Function.update_self]

end Items

section Window
variable {α : Type*} {N : Nat} [NeZero N] {data : Fin N → α} {a b e : UInt32}

/-- The entries from index `a` up to index `b`. -/
def window (data : Fin N → α) (a b : UInt32) : List α := items data a (ahead a b)

theorem window_self (data : Fin N → α) (a : UInt32) : window data a a = [] := by
  simp [window, ahead_self, items]

/-- The entry at index `e` may be changed while `b` is not past it. -/
theorem window_write (divides : N ∣ 2 ^ 32) (behind : ahead a b ≤ ahead a e) (room : ahead a e < N) (c : α) :
    window (Function.update data (slot N e) c) a b = window data a b := by
  have kept := items_update data a divides behind room c
  rwa [add_ahead] at kept

theorem window_push (divides : N ∣ 2 ^ 32) (room : ahead a b < N) (small : N < 2 ^ 32) (c : α) :
    window (Function.update data (slot N b) c) a (b + 1) = window data a b ++ [c] := by
  have pushed := items_push data a divides room c
  rw [add_ahead] at pushed
  unfold window
  rw [ahead_next (by omega), pushed]

theorem window_pop (some : a ≠ b) : window data a b = data (slot N a) :: window data (a + 1) b := by
  unfold window
  rw [← ahead_of_next (mt ahead_eq_zero.mp some), items_cons]

theorem window_append (between : ahead a b ≤ ahead a e) :
    window data a b ++ window data b e = window data a e := by
  have split : items data a (ahead a b + ahead b e) = _ := items_append
  rw [add_ahead, ahead_add between] at split
  exact split.symm

end Window
end Circular
