import Mathlib.Logic.Function.Basic
import Xv6.Mmu

/-! The two functions `memmove`: that of the kernel in `string.c`, and that of the user
library in `ulib.c`, which copies upwards only. -/
namespace Xv6
open Function (update update_of_ne update_self)

abbrev Bytes := Nat → UInt8

/-- `while(n-- > 0) *d++ = *s++`. -/
def copyUp : Nat → Nat → Nat → Bytes → Bytes
  | 0, _, _, mem => mem
  | n + 1, d, s, mem => copyUp n (uint (d + 1)) (uint (s + 1)) (update mem d (mem s))

/-- `while(n-- > 0) *--d = *--s`. -/
def copyDown : Nat → Nat → Nat → Bytes → Bytes
  | 0, _, _, mem => mem
  | n + 1, d, s, mem => copyDown n (d - 1) (s - 1) (update mem (d - 1) (mem (s - 1)))

/-- `memmove` of `string.c`. -/
def Kernel.memmove (dst src n : Nat) (mem : Bytes) : Bytes :=
  if src < dst ∧ uint (src + n) > dst then copyDown n (uint (dst + n)) (uint (src + n)) mem
  else copyUp n dst src mem

/-- `memmove` of `ulib.c`. -/
def Ulib.memmove (dst src : Nat) (n : Int) (mem : Bytes) : Bytes := copyUp n.toNat dst src mem

/-- The memory with `n` bytes at `dst` replaced. -/
def placed (dst n : Nat) (f : Nat → UInt8) (mem : Bytes) : Bytes := fun a =>
  if dst ≤ a ∧ a < dst + n then f (a - dst) else mem a

/-- The memory with `n` bytes moved as if through a buffer of their own. -/
def moved (dst src n : Nat) (mem : Bytes) : Bytes := placed dst n (fun i => mem (src + i)) mem

section Loops
variable {dst src n : Nat} {mem : Bytes}

theorem placed_inside {f : Nat → UInt8} {i : Nat} (inside : i < n) :
    placed dst n f mem (dst + i) = f i := by
  rw [placed, if_pos (by omega), Nat.add_sub_cancel_left]

theorem placed_outside {f : Nat → UInt8} {a : Nat} (outside : ¬ (dst ≤ a ∧ a < dst + n)) :
    placed dst n f mem a = mem a := if_neg outside

theorem placed_zero (f : Nat → UInt8) : placed dst 0 f mem = mem := by
  funext a
  exact placed_outside (by omega)

theorem placed_succ (f : Nat → UInt8) :
    placed dst (n + 1) f mem = update (placed dst n f mem) (dst + n) (f n) := by
  funext a
  by_cases here : a = dst + n
  · rw [here, placed_inside (Nat.lt_succ_self n), update_self]
  · rw [update_of_ne here]
    by_cases inside : dst ≤ a ∧ a < dst + n
    · rw [placed, placed, if_pos inside, if_pos (by omega)]
    · rw [placed_outside inside, placed_outside (by omega)]

theorem placed_congr {f g : Nat → UInt8} (same : ∀ i < n, f i = g i) :
    placed dst n f mem = placed dst n g mem := by
  funext a
  by_cases inside : dst ≤ a ∧ a < dst + n
  · rw [placed, placed, if_pos inside, if_pos inside, same _ (by omega)]
  · rw [placed_outside inside, placed_outside inside]

theorem copyUp_succ (low : dst + n + 1 < 2 ^ 32) (room : src + n + 1 < 2 ^ 32) :
    copyUp (n + 1) dst src mem =
      update (copyUp n dst src mem) (dst + n) (copyUp n dst src mem (src + n)) := by
  induction n generalizing dst src mem with
  | zero => rfl
  | succ n ih =>
    have next : uint (dst + 1) = dst + 1 := by
      simp only [uint]
      omega
    have source : uint (src + 1) = src + 1 := by
      simp only [uint]
      omega
    rw [copyUp, ih (by omega) (by omega), copyUp, next, source,
      show dst + 1 + n = dst + (n + 1) by omega, show src + 1 + n = src + (n + 1) by omega]

/-- Copying upwards into a range that begins behind the source repeats its first bytes. -/
theorem copyUp_behind (order : src < dst) (low : dst + n < 2 ^ 32) :
    copyUp n dst src mem = placed dst n (fun i => mem (src + i % (dst - src))) mem := by
  induction n with
  | zero => exact (placed_zero _).symm
  | succ n ih =>
    rw [copyUp_succ (by omega) (by omega), ih (by omega), placed_succ]
    congr 1
    by_cases inside : dst ≤ src + n
    · -- The byte read has been written before, one period earlier.
      obtain ⟨i, at_⟩ := Nat.exists_eq_add_of_le inside
      have period : n = i + (dst - src) := by omega
      rw [at_, placed_inside (by omega)]
      conv_rhs => rw [period, Nat.add_mod_right]
    · rw [placed_outside (by omega), Nat.mod_eq_of_lt (by omega)]

theorem copyUp_before (order : dst ≤ src) (room : src + n < 2 ^ 32) :
    copyUp n dst src mem = moved dst src n mem := by
  rw [moved]
  induction n with
  | zero => exact (placed_zero _).symm
  | succ n ih =>
    rw [copyUp_succ (by omega) (by omega), ih (by omega), placed_succ,
      placed_outside (a := src + n) (by omega)]

theorem copyDown_behind (order : src < dst) :
    copyDown n (dst + n) (src + n) mem = moved dst src n mem := by
  induction n generalizing mem with
  | zero => exact (placed_zero _).symm
  | succ n ih =>
    rw [copyDown, Nat.add_succ_sub_one, Nat.add_succ_sub_one, ih]
    funext a
    simp only [moved]
    by_cases inside : dst ≤ a ∧ a < dst + n
    · rw [placed, placed, if_pos inside, if_pos (by omega), update_of_ne (by omega)]
    · rw [placed_outside inside, placed_succ, update, update, placed_outside inside]

theorem Kernel.memmove_eq_moved (low : dst + n < 2 ^ 32) (room : src + n < 2 ^ 32) :
    Kernel.memmove dst src n mem = moved dst src n mem := by
  have source : uint (src + n) = src + n := by
    simp only [uint]
    omega
  have target : uint (dst + n) = dst + n := by
    simp only [uint]
    omega
  unfold Kernel.memmove
  rw [source, target]
  split
  · rename_i overlap
    exact copyDown_behind overlap.1
  · by_cases order : src < dst
    · -- Without overlap the period is not reached.
      rw [copyUp_behind order low]
      apply placed_congr
      intro i inside
      rw [Nat.mod_eq_of_lt (by omega)]
    · exact copyUp_before (by omega) room

theorem copyUp_eq_moved_iff (low : dst + n < 2 ^ 32) (room : src + n < 2 ^ 32) :
    copyUp n dst src mem = moved dst src n mem ↔
      (src < dst → ∀ i < n, mem (src + i) = mem (src + i % (dst - src))) := by
  by_cases order : src < dst
  · rw [copyUp_behind order low]
    constructor
    · intro same _ i inside
      have byte := congrFun same (dst + i)
      rw [moved, placed_inside inside, placed_inside inside] at byte
      exact byte.symm
    · exact fun periodic => placed_congr fun i inside => (periodic order i inside).symm
  · rw [copyUp_before (by omega) room]
    exact iff_of_true rfl fun behind => absurd behind order

end Loops

/-- Both functions leave the bytes moved and nothing else changed exactly where the target
does not begin inside the source, or the source repeats itself at the distance of the two. -/
theorem memmoves_move_iff (mem : Bytes) (dst src n : Nat) (low : dst + n < 2 ^ 32)
    (room : src + n < 2 ^ 32) :
    Kernel.memmove dst src n mem = moved dst src n mem ∧
    (Ulib.memmove dst src n mem = moved dst src n mem ↔
      (src < dst → dst < src + n → ∀ i < n, mem (src + i) = mem (src + i % (dst - src)))) := by
  refine ⟨Kernel.memmove_eq_moved low room, (copyUp_eq_moved_iff low room).trans ?_⟩
  constructor
  · exact fun periodic order _ => periodic order
  · intro periodic order i inside
    by_cases overlap : dst < src + n
    · exact periodic order overlap i inside
    · rw [Nat.mod_eq_of_lt (by omega)]

/-- A shift down, with overlap. -/
theorem memmoves_shift_down :
    Kernel.memmove 100 101 8 UInt8.ofNat = moved 100 101 8 UInt8.ofNat ∧
      Ulib.memmove 100 101 8 UInt8.ofNat = moved 100 101 8 UInt8.ofNat := by
  obtain ⟨kernel, user⟩ := memmoves_move_iff UInt8.ofNat 100 101 8 (by decide) (by decide)
  exact ⟨kernel, user.mpr fun order => absurd order (by decide)⟩

/-- Three bytes moved up by one. -/
theorem memmoves_differ_above :
    Kernel.memmove 101 100 3 (fun a => UInt8.ofNat a) 102 = 101 ∧
      Ulib.memmove 101 100 3 (fun a => UInt8.ofNat a) 102 = 100 := by
  decide
end Xv6
