import Mathlib.Data.Nat.Bits
import Mathlib.Tactic.Ring

/-! Bit-fields of a word: reading a field, writing it, and that a write is seen in the
field itself and in no other field that lies apart from it. -/
namespace Fields

/-- A field of `width` bits, from bit `shift` on. -/
structure Field where
  shift : Nat
  width : Nat
  deriving DecidableEq, Repr

namespace Field
variable (f g : Field) (w x : Nat)

def get : Nat := w / 2 ^ f.shift % 2 ^ f.width

/-- The word with the last bits of `x` in the field. -/
def put : Nat :=
  w / 2 ^ (f.shift + f.width) * 2 ^ (f.shift + f.width) + x % 2 ^ f.width * 2 ^ f.shift +
    w % 2 ^ f.shift

/-- The two fields have no bit in common. -/
def Apart : Prop := f.shift + f.width ≤ g.shift ∨ g.shift + g.width ≤ f.shift

instance decidableApart : Decidable (f.Apart g) := inferInstanceAs (Decidable (_ ∨ _))

variable {f g w x}

/-- What a write puts below the end of the field. -/
theorem low_lt : x % 2 ^ f.width * 2 ^ f.shift + w % 2 ^ f.shift < 2 ^ (f.shift + f.width) := by
  have value : x % 2 ^ f.width + 1 ≤ 2 ^ f.width := Nat.mod_lt x (Nat.two_pow_pos _)
  have rest : w % 2 ^ f.shift < 2 ^ f.shift := Nat.mod_lt w (Nat.two_pow_pos _)
  calc x % 2 ^ f.width * 2 ^ f.shift + w % 2 ^ f.shift
      < x % 2 ^ f.width * 2 ^ f.shift + 2 ^ f.shift := by omega
    _ = (x % 2 ^ f.width + 1) * 2 ^ f.shift := by ring
    _ ≤ 2 ^ f.width * 2 ^ f.shift := Nat.mul_le_mul_right _ value
    _ = 2 ^ (f.shift + f.width) := by rw [Nat.pow_add, Nat.mul_comm]

theorem get_put : f.get (f.put w x) = x % 2 ^ f.width := by
  have split : f.put w x =
      w % 2 ^ f.shift + 2 ^ f.shift * (2 ^ f.width * (w / 2 ^ (f.shift + f.width)) + x % 2 ^ f.width) := by
    rw [put, Nat.pow_add]
    ring
  rw [get, split, Nat.add_mul_div_left _ _ (Nat.two_pow_pos _),
    Nat.div_eq_of_lt (Nat.mod_lt _ (Nat.two_pow_pos _)), Nat.zero_add, Nat.mul_add_mod, Nat.mod_mod]

/-- Bits above the field are the bits of the word. -/
theorem put_div : f.put w x / 2 ^ (f.shift + f.width) = w / 2 ^ (f.shift + f.width) := by
  rw [put, Nat.add_assoc, Nat.mul_comm, Nat.mul_add_div (Nat.two_pow_pos _),
    Nat.div_eq_of_lt low_lt, Nat.add_zero]

/-- Bits below the field are the bits of the word. -/
theorem put_mod : f.put w x % 2 ^ f.shift = w % 2 ^ f.shift := by
  have split : f.put w x =
      2 ^ f.shift * (2 ^ f.width * (w / 2 ^ (f.shift + f.width)) + x % 2 ^ f.width) + w % 2 ^ f.shift := by
    rw [put, Nat.pow_add]
    ring
  rw [split, Nat.mul_add_mod, Nat.mod_mod]

/-- A field below the place `n` is read from the bits below it. -/
theorem get_mod {n : Nat} (below : g.shift + g.width ≤ n) : g.get (w % 2 ^ n) = g.get w := by
  have whole : ∀ w, g.get w = w % 2 ^ (g.shift + g.width) / 2 ^ g.shift := by
    intro w
    rw [get, Nat.pow_add, Nat.mod_mul_right_div_self]
  rw [whole, whole, Nat.mod_mod_of_dvd _ (Nat.pow_dvd_pow 2 below)]

theorem get_put_of_apart (apart : g.Apart f) : g.get (f.put w x) = g.get w := by
  obtain below | above := apart
  · rw [← get_mod below, put_mod, get_mod below]
  · have high : ∀ w, g.get w =
        w / 2 ^ (f.shift + f.width) / 2 ^ (g.shift - (f.shift + f.width)) % 2 ^ g.width := by
      intro w
      rw [get, Nat.div_div_eq_div_mul, ← Nat.pow_add, Nat.add_sub_cancel' above]
    rw [high, high, put_div]

theorem put_lt {n : Nat} (inside : f.shift + f.width ≤ n) (small : w < 2 ^ n) :
    f.put w x < 2 ^ n := by
  obtain ⟨k, rfl⟩ := Nat.exists_eq_add_of_le inside
  have quotient : w / 2 ^ (f.shift + f.width) + 1 ≤ 2 ^ k := by
    rw [Nat.pow_add, Nat.mul_comm] at small
    exact Nat.div_lt_of_lt_mul (by rwa [Nat.mul_comm] at small)
  have low := low_lt (f := f) (w := w) (x := x)
  calc f.put w x
      < (w / 2 ^ (f.shift + f.width) + 1) * 2 ^ (f.shift + f.width) := by
        rw [put, Nat.add_assoc, Nat.add_mul, Nat.one_mul]
        omega
    _ ≤ 2 ^ k * 2 ^ (f.shift + f.width) := Nat.mul_le_mul_right _ quotient
    _ = 2 ^ (f.shift + f.width + k) := by rw [Nat.mul_comm, ← Nat.pow_add]

end Field
end Fields
