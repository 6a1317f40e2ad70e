import Mathlib.Data.List.Basic
import Mathlib.Data.List.Pairwise
import Mathlib.Tactic.Ring

/-! Blocks of memory as a start and a number of units of width `w`. How often a byte is
covered by a list of blocks adds up over lists and does not change when a block is cut
in two. Lists whose blocks lie in order with gaps between them are kept so when a block
is put into its place. -/
namespace Extents

abbrev Extent := Nat × Nat

variable {w x : Nat} {a b e : Extent} {es l r : List Extent}

/-- The end of a block. -/
def stop (w : Nat) (e : Extent) : Nat := e.1 + w * e.2

def has (w x : Nat) (e : Extent) : Bool := e.1 ≤ x ∧ x < stop w e

theorem has_iff : has w x e = true ↔ e.1 ≤ x ∧ x < stop w e := decide_eq_true_iff

/-- How many of the blocks cover the byte. -/
def tally (w : Nat) (es : List Extent) (x : Nat) : Nat := es.countP (has w x)

theorem tally_append (l r : List Extent) : tally w (l ++ r) x = tally w l x + tally w r x :=
  List.countP_append

theorem tally_cons (e : Extent) (es : List Extent) : tally w (e :: es) x = tally w [e] x + tally w es x :=
  tally_append [e] es

theorem tally_pos : 0 < tally w es x ↔ ∃ e ∈ es, has w x e = true := List.countP_pos_iff

theorem tally_one (e : Extent) : tally w [e] x = if has w x e then 1 else 0 := by
  simp [tally, List.countP_cons]

/-- A block may be cut in two. -/
theorem tally_cut (a m n : Nat) : tally w [(a, m + n)] x = tally w [(a, m)] x + tally w [(a + w * m, n)] x := by
  have long : stop w (a, m + n) = a + w * m + w * n := by
    simp only [stop]
    ring
  have first : stop w (a, m) = a + w * m := rfl
  have second : stop w (a + w * m, n) = a + w * m + w * n := rfl
  have whole : has w x (a, m + n) = true ↔ a ≤ x ∧ x < a + w * m + w * n := by rw [has_iff, long]
  have left : has w x (a, m) = true ↔ a ≤ x ∧ x < a + w * m := by rw [has_iff, first]
  have right : has w x (a + w * m, n) = true ↔ a + w * m ≤ x ∧ x < a + w * m + w * n := by
    rw [has_iff, second]
  simp only [tally_one, whole, left, right]
  split_ifs <;> omega

/-- No byte is in two of the blocks. -/
theorem apart_of_tally (once : ∀ x, tally w es x ≤ 1) :
    es.Pairwise fun a b => ∀ x, ¬ (has w x a = true ∧ has w x b = true) := by
  induction es with
  | nil => exact .nil
  | cons e es ih =>
    rw [List.pairwise_cons]
    constructor
    · rintro b member x ⟨first, second⟩
      have covered : 0 < tally w es x := tally_pos.mpr ⟨b, member, second⟩
      have total := once x
      rw [tally_cons, tally_one, if_pos first] at total
      omega
    · refine ih fun x => ?_
      have total := once x
      rw [tally_cons] at total
      omega

/-- Blocks in order cover every byte once at most. -/
theorem tally_le_one (ordered : es.Pairwise fun a b => stop w b ≤ a.1) : tally w es x ≤ 1 := by
  induction es with
  | nil => exact Nat.zero_le 1
  | cons e es ih =>
    obtain ⟨below, ordered⟩ := List.pairwise_cons.mp ordered
    rw [tally_cons, tally_one]
    split_ifs with inside
    · have none : tally w es x = 0 := by
        refine Nat.eq_zero_of_not_pos fun covered => ?_
        rw [tally_pos] at covered
        obtain ⟨b, member, covers⟩ := covered
        have le := below b member
        rw [has_iff] at inside covers
        omega
      omega
    · have := ih ordered
      omega

/-- The blocks lie in order, with a gap after each. -/
def Spaced (w : Nat) (es : List Extent) : Prop := es.Pairwise fun a b => stop w a < b.1

theorem Spaced.split (spaced : Spaced w (l ++ r)) : Spaced w l ∧ Spaced w r :=
  ⟨(List.pairwise_append.mp spaced).1, (List.pairwise_append.mp spaced).2.1⟩

theorem Spaced.insert (spaced : Spaced w (l ++ r)) (before : ∀ a ∈ l, stop w a < e.1)
    (after : ∀ b ∈ r, stop w e < b.1) : Spaced w (l ++ e :: r) := by
  obtain ⟨left, right, across⟩ := List.pairwise_append.mp spaced
  refine List.pairwise_append.mpr ⟨left, List.pairwise_cons.mpr ⟨after, right⟩, fun a member b later => ?_⟩
  rcases List.mem_cons.mp later with rfl | later
  · exact before a member
  · exact across a member b later

theorem Spaced.remove (spaced : Spaced w (l ++ e :: r)) : Spaced w (l ++ r) :=
  List.Pairwise.sublist ((List.sublist_cons_self e r).append_left l) spaced

/-- A block that shares no byte with the others has a place among them. -/
theorem Spaced.place (spaced : Spaced w es) (real : ∀ b ∈ es, 0 < w * b.2) (new : 0 < w * e.2)
    (once : ∀ x, tally w (e :: es) x ≤ 1) :
    ∃ l r, es = l ++ r ∧ (∀ a ∈ l, stop w a ≤ e.1) ∧ ∀ b ∈ r, stop w e ≤ b.1 := by
  induction es with
  | nil => exact ⟨[], [], rfl, nofun, nofun⟩
  | cons b es ih =>
    have apart := (List.pairwise_cons.mp (apart_of_tally once)).1 b List.mem_cons_self
    obtain ⟨later, rest⟩ := List.pairwise_cons.mp spaced
    have size := real b List.mem_cons_self
    simp only [has_iff] at apart
    unfold stop at apart later ⊢
    by_cases below : b.1 < e.1
    · have ends : b.1 + w * b.2 ≤ e.1 := by
        have := apart e.1
        omega
      obtain ⟨l, r, rfl, before, after⟩ := ih rest (fun c member => real c (List.mem_cons_of_mem b member)) fun x => by
        have total := once x
        rw [tally_cons, tally_cons b] at total
        rw [tally_cons]
        omega
      refine ⟨b :: l, r, rfl, ?_, after⟩
      intro a member
      rcases List.mem_cons.mp member with rfl | member
      · exact ends
      · exact before a member
    · have starts : e.1 + w * e.2 ≤ b.1 := by
        have := apart b.1
        omega
      refine ⟨[], b :: es, rfl, nofun, ?_⟩
      intro c member
      rcases List.mem_cons.mp member with rfl | member
      · exact starts
      · have := later c member
        omega

/-- Nothing but the last block can end where a place begins. -/
theorem Spaced.before (spaced : Spaced w (l ++ [b])) (real : 0 < w * b.2) {place : Nat}
    (fits : stop w b ≤ place) : ∀ a ∈ l, stop w a < place := by
  intro a member
  have gap := (List.pairwise_append.mp spaced).2.2 a member b (List.mem_singleton.mpr rfl)
  unfold stop at *
  omega

end Extents
