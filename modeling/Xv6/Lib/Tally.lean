import Mathlib.Algebra.BigOperators.Group.Finset.Basic
import Mathlib.Algebra.Order.Group.Multiset
import Mathlib.Data.Finset.Basic
import Mathlib.Tactic.Abel

/-! Accounting for resources held by numbered owners. Each owner holds a
multiset of resources; the tally is their sum, and a tally without duplicates
means that every resource has at most one owner. -/
namespace Tally

/-- When one summand changes, the sum changes by the same amount. -/
theorem sum_change {ι N : Type} [DecidableEq ι] [AddCommMonoid N] {s : Finset ι} {f g : ι → N}
    {k : ι} (member : k ∈ s) (same : ∀ i ∈ s, i ≠ k → g i = f i) :
    ∑ i ∈ s, g i + f k = ∑ i ∈ s, f i + g k := by
  have rest : ∑ i ∈ s.erase k, g i = ∑ i ∈ s.erase k, f i :=
    Finset.sum_congr rfl fun i hi => same i (Finset.mem_of_mem_erase hi) (Finset.ne_of_mem_erase hi)
  rw [← Finset.add_sum_erase _ g member, ← Finset.add_sum_erase _ f member, rest]
  abel

variable {α : Type} {n k : Nat} {f g : Nat → Multiset α}

/-- What the owners below `n` hold together. -/
def total (n : Nat) (f : Nat → Multiset α) : Multiset α := ∑ i ∈ Finset.range n, f i

theorem total_eq (n : Nat) (f : Nat → Multiset α) : total n f = ∑ i ∈ Finset.range n, f i := rfl

-- A tally is compared through the lemmas below and never summed up.
attribute [irreducible] total

theorem total_congr (same : ∀ i < n, g i = f i) : total n g = total n f := by
  rw [total_eq, total_eq]
  exact Finset.sum_congr rfl fun i hi => same i (Finset.mem_range.mp hi)

theorem total_eq_zero (empty : ∀ i < n, f i = 0) : total n f = 0 := by
  rw [total_eq]
  exact Finset.sum_eq_zero fun i hi => empty i (Finset.mem_range.mp hi)

theorem total_zero (f : Nat → Multiset α) : total 0 f = 0 := by
  rw [total_eq, Finset.range_zero, Finset.sum_empty]

theorem total_succ (n : Nat) (f : Nat → Multiset α) : total (n + 1) f = total n f + f n := by
  rw [total_eq, total_eq, Finset.sum_range_succ]

/-- Owners who hold nothing do not count. -/
theorem total_prefix (le : k ≤ n) (empty : ∀ i, k ≤ i → i < n → f i = 0) :
    total n f = total k f := by
  rw [total_eq, total_eq]
  refine (Finset.sum_subset (Finset.range_subset_range.mpr le) fun i inside outside => ?_).symm
  exact empty i (by simpa using outside) (Finset.mem_range.mp inside)

/-- The owners hold consecutive numbers. -/
theorem total_range' {base : Nat} {f : Nat → Multiset Nat} (each : ∀ i < n, f i = {base + i}) :
    total n f = (List.range' base n : Multiset Nat) := by
  induction n with
  | zero => exact total_zero f
  | succ n ih =>
    rw [total_succ, ih fun i below => each i (by omega), each n (by omega), List.range'_concat,
      Nat.one_mul, ← Multiset.coe_add, Multiset.coe_singleton]

/-- When one owner's holding changes, the tally changes by the same amount. -/
theorem total_change (bound : k < n) (same : ∀ i < n, i ≠ k → g i = f i) :
    total n g + f k = total n f + g k := by
  rw [total_eq, total_eq]
  exact sum_change (Finset.mem_range.mpr bound) fun i hi => same i (Finset.mem_range.mp hi)

theorem mem_total {a : α} : a ∈ total n f ↔ ∃ i < n, a ∈ f i := by
  rw [total_eq, Multiset.mem_sum]
  simp only [Finset.mem_range]

/-- In a tally without duplicates two owners of one resource are the same. -/
theorem owner_unique (nodup : (total n f).Nodup) {i j : Nat} {a : α} (hi : i < n) (hj : j < n)
    (ai : a ∈ f i) (aj : a ∈ f j) : i = j := by
  by_contra ne
  rw [total_eq, ← Finset.add_sum_erase _ f (Finset.mem_range.mpr hi)] at nodup
  have disjoint := (Multiset.nodup_add.mp nodup).2.2
  have rest : a ∈ ∑ k ∈ (Finset.range n).erase i, f k :=
    Multiset.mem_sum.mpr ⟨j, Finset.mem_erase.mpr ⟨Ne.symm ne, Finset.mem_range.mpr hj⟩, aj⟩
  exact Multiset.disjoint_left.mp disjoint ai rest

/-- What one owner holds is neither in the stock `A` nor held by another owner. -/
theorem apart {A B : Multiset α}
    (nodup : (A + total n f + B).Nodup) {i j : Nat} {a : α} (hi : i < n) (hj : j < n) (ne : i ≠ j)
    (held : a ∈ f j) : a ∉ A + f i := by
  intro member
  have nodup := (Multiset.nodup_add.mp nodup).1
  obtain ⟨_, owners, disjoint⟩ := Multiset.nodup_add.mp nodup
  obtain free | owned := Multiset.mem_add.mp member
  · exact Multiset.disjoint_left.mp disjoint free (mem_total.mpr ⟨j, hj, held⟩)
  · exact ne (owner_unique owners hi hj owned held)

end Tally
