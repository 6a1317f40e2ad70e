import Mathlib.Data.List.Basic
import Mathlib.Tactic.NormNum

/-! Little-endian words of four bytes in a block of bytes: reading and writing
one word, and a row of words from some position on. -/
namespace Words

variable {n : Nat} (b : Fin n → UInt8)

/-- The byte at an offset of the block, and 0 past its end. -/
def byte (k : Nat) : Nat := if h : k < n then (b ⟨k, h⟩).toNat else 0

/-- The word at position `i`. -/
def get (i : Nat) : Nat :=
  byte b (4 * i) + 2 ^ 8 * byte b (4 * i + 1) + 2 ^ 16 * byte b (4 * i + 2) +
    2 ^ 24 * byte b (4 * i + 3)

/-- The block with the word `v` at position `i`. -/
def set (i v : Nat) : Fin n → UInt8 := fun k =>
  if k.val / 4 = i then (v / 2 ^ (8 * (k.val % 4))).toUInt8 else b k

/-- The block with the words of the list from position `i` on. -/
def setRow (b : Fin n → UInt8) (i : Nat) : List Nat → Fin n → UInt8
  | [] => b
  | v :: rest => setRow (set b i v) (i + 1) rest

/-- The `k` words from position `i` on. -/
def getRow (i k : Nat) : List Nat := (List.range k).map fun j => get b (i + j)

variable {b} {i j v : Nat}

theorem byte_set_self {k : Nat} (room : 4 * i + k < n) (inside : k < 4) :
    byte (set b i v) (4 * i + k) = v / 2 ^ (8 * k) % 256 := by
  have here : (4 * i + k) / 4 = i := by omega
  have place : (4 * i + k) % 4 = k := by omega
  rw [byte, dif_pos room, set, if_pos here, place]
  simp

theorem byte_set_ne {k : Nat} (other : k / 4 ≠ i) : byte (set b i v) k = byte b k := by
  unfold byte
  split
  · rw [set, if_neg other]
  · rfl

theorem get_set (room : 4 * i + 4 ≤ n) (small : v < 2 ^ 32) : get (set b i v) i = v := by
  have zero := byte_set_self (b := b) (v := v) (k := 0) (show 4 * i + 0 < n by omega) (by omega)
  have one := byte_set_self (b := b) (v := v) (k := 1) (show 4 * i + 1 < n by omega) (by omega)
  have two := byte_set_self (b := b) (v := v) (k := 2) (show 4 * i + 2 < n by omega) (by omega)
  have three := byte_set_self (b := b) (v := v) (k := 3) (show 4 * i + 3 < n by omega) (by omega)
  rw [Nat.add_zero] at zero
  rw [get, zero, one, two, three]
  norm_num
  omega

theorem get_set_ne (other : j ≠ i) : get (set b i v) j = get b j := by
  unfold get
  rw [byte_set_ne (by omega), byte_set_ne (by omega), byte_set_ne (by omega),
    byte_set_ne (by omega)]

theorem get_setRow_of_lt (row : List Nat) (before : j < i) : get (setRow b i row) j = get b j := by
  induction row generalizing b i with
  | nil => rfl
  | cons v rest ih => rw [setRow, ih (by omega), get_set_ne (by omega)]

theorem getRow_succ (b : Fin n → UInt8) (i k : Nat) :
    getRow b i (k + 1) = get b i :: getRow b (i + 1) k := by
  rw [getRow, List.range_succ_eq_map, List.map_cons, List.map_map]
  refine congrArg (get b i :: ·) (List.map_congr_left fun j _ => ?_)
  rw [Function.comp_apply]
  congr 1
  omega

/-- A row that has been written is read back. -/
theorem getRow_setRow (row : List Nat) (room : 4 * (i + row.length) ≤ n)
    (small : ∀ v ∈ row, v < 2 ^ 32) : getRow (setRow b i row) i row.length = row := by
  induction row generalizing b i with
  | nil => rfl
  | cons v rest ih =>
    rw [List.length_cons] at room ⊢
    have first : get (setRow (set b i v) (i + 1) rest) i = v := by
      rw [get_setRow_of_lt rest (by omega), get_set (by omega) (small v List.mem_cons_self)]
    rw [getRow_succ, setRow, first,
      ih (by omega) fun w member => small w (List.mem_cons_of_mem _ member)]

end Words
