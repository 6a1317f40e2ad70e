import Xv6.Umalloc

/-! The free list of `umalloc.c` is a ring through `base` in the order of addresses, with
gaps between its blocks. `free` finds the one place of a block in it and joins what
touches, and `malloc` takes a block or a part of one out of it. -/
namespace Xv6.Umalloc
open Extents Transition
open Ring (Path)
open Function (update update_apply update_idem update_of_ne update_self)

variable {s t : Heap} {bs l r : List Extent} {b e : Extent} {a bp p : Nat} {u m n fuel : Nat}

section FreeList

/-- The free blocks, as one meets them on the way from `base` round to `base`. -/
structure Listed (s : Heap) (bs : List Extent) : Prop where
  ring : Path s.ptr s.base (bs.map Prod.fst) s.base
  freep : s.freep ∈ s.base :: bs.map Prod.fst
  zero : s.size s.base = 0
  sizes : ∀ b ∈ bs, s.size b.1 = b.2
  real : ∀ b ∈ bs, 0 < b.2
  spaced : Extents.Spaced unit bs
  above : ∀ b ∈ bs, s.base + unit ≤ b.1
  below : ∀ b ∈ bs, stop unit b < 2 ^ 32

theorem Listed.sorted (listed : Listed s bs) : (s.base :: bs.map Prod.fst).Pairwise (· < ·) := by
  rw [List.pairwise_cons, List.pairwise_map]
  constructor
  · intro a member
    obtain ⟨b, listedB, rfl⟩ := List.mem_map.mp member
    exact Nat.lt_of_lt_of_le (Nat.lt_add_of_pos_right (by decide)) (listed.above b listedB)
  · exact listed.spaced.imp fun gap => Nat.lt_of_le_of_lt (Nat.le_add_right _ _) gap

theorem Listed.once (listed : Listed s bs) : (s.base :: bs.map Prod.fst).Nodup :=
  listed.sorted.imp fun less => less.ne

theorem plus_eq (fits : stop unit (a, u) < 2 ^ 32) : plus a u = stop unit (a, u) := Nat.mod_eq_of_lt fits

/-- A block that is to be put into the list, in its place. -/
structure Placed (s : Heap) (l r : List Extent) (e : Extent) : Prop where
  real : 0 < e.2
  size : s.size e.1 = e.2
  above : s.base + unit ≤ e.1
  below : stop unit e < 2 ^ 32
  before : ∀ a ∈ l, stop unit a ≤ e.1
  after : ∀ b ∈ r, stop unit e ≤ b.1

/-- The block after which it is put. -/
def prior (s : Heap) (l : List Extent) : Nat := (l.map Prod.fst).getLastD s.base

theorem prior_concat : prior s (l ++ [b]) = b.1 := by
  rw [prior, List.map_append, List.map_singleton, List.getLastD_concat]

/-- What the addresses of the list say about the place. -/
theorem Placed.split (placed : Placed s l r e) (listed : Listed s (l ++ r)) :
    (∀ x ∈ s.base :: l.map Prod.fst, x ≤ prior s l) ∧ prior s l < e.1 ∧
      (∀ x ∈ r.map Prod.fst, e.1 < x) ∧ prior s l ∈ s.base :: (l ++ r).map Prod.fst := by
  have sorted := listed.sorted
  have low := placed.above
  have last : prior s l ∈ s.base :: l.map Prod.fst := List.getLastD_mem_cons
  have under : ∀ x ∈ s.base :: l.map Prod.fst, x < e.1 := by
    intro x member
    rcases List.mem_cons.mp member with rfl | member
    · unfold unit at low
      omega
    · obtain ⟨a, listedA, rfl⟩ := List.mem_map.mp member
      have ends := placed.before a listedA
      have real := listed.real a (List.mem_append_left r listedA)
      unfold stop unit at ends
      omega
  refine ⟨?_, under _ last, ?_, ?_⟩
  · rcases List.eq_nil_or_concat l with rfl | ⟨l, b, rfl⟩
    · intro x member
      exact (List.mem_singleton.mp member).le
    · rw [List.concat_eq_append] at *
      rw [prior_concat]
      intro x member
      rw [List.map_append, List.map_append, ← List.cons_append, ← List.cons_append, List.pairwise_append,
        List.pairwise_append] at sorted
      rw [List.map_append, ← List.cons_append, List.mem_append] at member
      rcases member with early | here
      · exact (sorted.1.2.2 x early b.1 (by simp)).le
      · exact (List.mem_singleton.mp here).le
  · intro x member
    obtain ⟨b, listedB, rfl⟩ := List.mem_map.mp member
    have starts := placed.after b listedB
    have real := placed.real
    unfold stop unit at starts
    omega
  · rw [List.map_append, ← List.cons_append]
    exact List.mem_append_left _ last

/-- The loop of `free` stops at one block only. -/
theorem Placed.here_iff (placed : Placed s l r e) (listed : Listed s (l ++ r)) :
    ∀ x ∈ s.base :: (l ++ r).map Prod.fst, s.here e.1 x = true ↔ x = prior s l := by
  intro x member
  obtain ⟨most, under, upper, last⟩ := placed.split listed
  have low := placed.above
  have side : ∀ y ∈ s.base :: (l ++ r).map Prod.fst, y ≤ prior s l ∨ e.1 < y := by
    intro y at_
    rw [List.map_append, ← List.cons_append, List.mem_append] at at_
    exact at_.imp (most y) (upper y)
  have floor : ∀ y ∈ s.base :: (l ++ r).map Prod.fst, s.base ≤ y := by
    intro y at_
    rcases List.mem_cons.mp at_ with rfl | at_
    · exact le_rfl
    · exact ((List.pairwise_cons.mp listed.sorted).1 y at_).le
  have position := side x member
  have lowX := floor x member
  unfold Heap.here
  rw [decide_eq_true_iff]
  rcases listed.ring.next_above listed.sorted member with ⟨wraps, highest⟩ | ⟨goes, up, next⟩
  · -- At the end of the list.
    have top := highest _ last
    rw [wraps]
    unfold unit at low
    constructor <;> omega
  · have beyond := side _ (List.mem_cons_of_mem _ goes)
    have order := next _ last
    constructor <;> omega

theorem Placed.hunt (placed : Placed s l r e) (listed : Listed s (l ++ r)) (enough : (l ++ r).length < fuel) :
    Ring.hunt s.ptr (s.here e.1) fuel s.freep = some (prior s l) :=
  Ring.hunt_ring listed.ring listed.freep (placed.split listed).2.2.2 (placed.here_iff listed) (by simpa using enough)

theorem Placed.new (placed : Placed s l r e) (listed : Listed s (l ++ r)) :
    e.1 ∉ s.base :: (l ++ r).map Prod.fst := by
  intro member
  obtain ⟨most, under, upper, _⟩ := placed.split listed
  rw [List.map_append, ← List.cons_append, List.mem_append] at member
  rcases member with early | late
  · exact absurd (most _ early) (by omega)
  · exact absurd (upper _ late) (lt_irrefl _)

/-- What follows the place. -/
theorem Listed.next (listed : Listed s (l ++ r)) : s.ptr (prior s l) = (r.map Prod.fst).headD s.base := by
  have ring := listed.ring
  rw [List.map_append] at ring
  exact ring.junction

/-- The block is joined with what is above it, and is to be linked from below or joined
with what is there. -/
structure Half (s : Heap) (l r : List Extent) (e : Extent) : Prop where
  ring : Path (update s.ptr (prior s l) e.1) s.base ((l ++ e :: r).map Prod.fst) s.base
  once : (s.base :: (l ++ e :: r).map Prod.fst).Nodup
  zero : s.size s.base = 0
  sizes : ∀ b ∈ l ++ e :: r, s.size b.1 = b.2
  real : ∀ b ∈ l ++ e :: r, 0 < b.2
  spaced : Extents.Spaced unit (l ++ r)
  before : ∀ a ∈ l, stop unit a ≤ e.1
  after : ∀ b ∈ r, stop unit e < b.1
  above : ∀ b ∈ l ++ e :: r, s.base + unit ≤ b.1
  below : ∀ b ∈ l ++ e :: r, stop unit b < 2 ^ 32

/-- A step of `free` leaves the rest alone, and covers what was covered. -/
structure Keeps (s t : Heap) (bs bs' : List Extent) (e e' : Extent) : Prop where
  base : t.base = s.base
  live : t.live = s.live
  regions : t.regions = s.regions
  size : ∀ a, a ≠ e.1 → a ∉ bs.map Prod.fst → t.size a = s.size a
  tally : ∀ x, tally unit bs' x = tally unit bs x
  grown : e' ∈ bs' ∧ e.2 ≤ e'.2
  subset : ∀ b ∈ bs', b = e' ∨ b ∈ bs
  length : bs'.length ≤ bs.length

theorem Placed.gap (placed : Placed s l r e) (spaced : Extents.Spaced unit r) (real : ∀ b ∈ r, 0 < b.2)
    (touch : stop unit e ≠ (r.map Prod.fst).headD s.base) : ∀ b ∈ r, stop unit e < b.1 := by
  cases r with
  | nil => nofun
  | cons c r =>
    have first : stop unit e < c.1 := Nat.lt_of_le_of_ne (placed.after c List.mem_cons_self) touch
    intro b member
    rcases List.mem_cons.mp member with rfl | later
    · exact first
    · have gap := (List.pairwise_cons.mp spaced).1 b later
      have size := real c List.mem_cons_self
      unfold stop unit at *
      omega

theorem mem_insert (member : b ∈ l ++ e :: r) : b = e ∨ b ∈ l ++ r := by
  rcases List.mem_append.mp member with early | later
  · exact .inr (List.mem_append_left r early)
  · rcases List.mem_cons.mp later with same | later
    · exact .inl same
    · exact .inr (List.mem_append_right l later)

theorem forall_insert {P : Extent → Prop} (new : P e) (others : ∀ b ∈ l ++ r, P b) : ∀ b ∈ l ++ e :: r, P b := by
  intro b member
  rcases mem_insert member with rfl | other
  · exact new
  · exact others b other

theorem append_cons_subset (c : Extent) : l ++ r ⊆ l ++ c :: r :=
  ((List.sublist_cons_self c r).append_left l).subset

theorem once_insert {x z : Nat} {xs ys : List Nat} (once : (z :: (xs ++ ys)).Nodup) (new : x ∉ z :: (xs ++ ys)) :
    (z :: (xs ++ x :: ys)).Nodup := by
  have perm : (z :: (xs ++ x :: ys)).Perm (x :: z :: (xs ++ ys)) :=
    (List.Perm.cons z List.perm_middle).trans (List.Perm.swap x z _)
  exact perm.nodup_iff.mpr (List.nodup_cons.mpr ⟨new, once⟩)

theorem Placed.linkUp (placed : Placed s l r e) (listed : Listed s (l ++ r)) :
    ∃ e' r', e'.1 = e.1 ∧ Half (s.linkUp e.1 (prior s l)) l r' e' ∧
      Keeps s (s.linkUp e.1 (prior s l)) (l ++ e :: r) (l ++ e' :: r') e e' := by
  have next := listed.next
  have new := placed.new listed
  have once := listed.once
  have ring := listed.ring
  have ends : plus e.1 (s.size e.1) = stop unit e := by
    rw [placed.size]
    exact plus_eq placed.below
  have apart : ∀ b ∈ l ++ r, b.1 ≠ e.1 := by
    intro b member same
    exact new (List.mem_cons_of_mem _ (same ▸ List.mem_map_of_mem member))
  have notBase : s.base ≠ e.1 := fun same => new (same ▸ List.mem_cons_self)
  rw [List.map_append] at new once ring
  unfold Heap.linkUp
  simp only [ends, next]
  by_cases touch : stop unit e = (r.map Prod.fst).headD s.base
  · rw [if_pos touch]
    cases r with
    | nil =>
      have above := placed.above
      have same : stop unit e = s.base := touch
      unfold stop unit at *
      omega
    | cons c r =>
      have meets : stop unit e = c.1 := touch
      have sizeC := listed.sizes c (by simp)
      have belowC := listed.below c (by simp)
      have sum : (s.size e.1 + s.size c.1) % 2 ^ 32 = e.2 + c.2 := by
        rw [placed.size, sizeC]
        apply Nat.mod_eq_of_lt
        unfold stop unit at *
        omega
      have ending : stop unit (e.1, e.2 + c.2) = stop unit c := by
        unfold stop unit at *
        dsimp only
        omega
      have spaced := listed.spaced
      have still : l ++ r ⊆ l ++ c :: r := append_cons_subset c
      refine ⟨(e.1, e.2 + c.2), r, rfl, ?_, ?_⟩
      · have skipped := ring.skip once
        have onceRest : (s.base :: (l.map Prod.fst ++ r.map Prod.fst)).Nodup :=
          once.sublist (((List.sublist_cons_self _ _).append_left _).cons_cons _)
        have newRest : e.1 ∉ s.base :: (l.map Prod.fst ++ r.map Prod.fst) := fun member =>
          new ((((List.sublist_cons_self _ _).append_left _).cons_cons _).subset member)
        have inserted := skipped.insert onceRest newRest
        have links : update (update (update s.ptr (prior s l) (s.ptr c.1)) e.1 (s.ptr c.1))
            (prior s l) e.1 = update (update s.ptr e.1 (s.ptr c.1)) (prior s l) e.1 := by
          funext y
          by_cases atPrior : y = prior s l <;> simp [update_apply, atPrior]
        exact {
          ring := by
            rw [update_self] at inserted
            rw [List.map_append]
            change Path (update (update s.ptr e.1 (s.ptr c.1)) (prior s l) e.1) s.base
              (l.map Prod.fst ++ e.1 :: r.map Prod.fst) s.base
            rw [← links]
            exact inserted
          once := by
            rw [List.map_append]
            exact once_insert onceRest newRest
          zero := by simp [notBase, listed.zero]
          sizes := forall_insert (by simpa using sum) fun b other => by
            simpa [apart b (still other)] using listed.sizes b (still other)
          real := forall_insert (Nat.add_pos_left placed.real _) fun b other => listed.real b (still other)
          spaced := spaced.remove
          before := placed.before
          after := by
            intro b member
            rw [ending]
            exact (List.pairwise_cons.mp spaced.split.2).1 b member
          above := forall_insert placed.above fun b other => listed.above b (still other)
          below := forall_insert (by rwa [ending]) fun b other => listed.below b (still other) }
      · exact {
          base := rfl
          live := rfl
          regions := rfl
          size := fun a other _ => update_of_ne other _ _
          tally := by
            intro x
            have same : e.1 + unit * e.2 = c.1 := meets
            rw [tally_append, tally_append, tally_cons _ r, tally_cut, same, tally_cons e (c :: r), tally_cons c r,
              Nat.add_assoc]
          grown := ⟨by simp, Nat.le_add_right _ _⟩
          subset := fun b member => (mem_insert member).imp_right fun other => append_cons_subset e (still other)
          length := by simp }
  · rw [if_neg touch]
    refine ⟨e, r, rfl, ?_, ?_⟩
    · have inserted := ring.insert once new
      exact {
        ring := by
          rw [List.map_append, ← next]
          exact inserted
        once := by
          rw [List.map_append]
          exact once_insert once new
        zero := listed.zero
        sizes := forall_insert placed.size listed.sizes
        real := forall_insert placed.real listed.real
        spaced := listed.spaced
        before := placed.before
        after := placed.gap listed.spaced.split.2 (fun b member => listed.real b (List.mem_append_right l member)) touch
        above := forall_insert placed.above listed.above
        below := forall_insert placed.below listed.below }
    · exact ⟨rfl, rfl, rfl, fun _ _ _ => rfl, fun _ => rfl, ⟨by simp, le_rfl⟩, fun _ => .inr, le_rfl⟩

/-- `linkDown`, and the block after which the new one was put as the place to start from. -/
theorem Half.linkDown (half : Half s l r e) :
    ∃ bs e', Listed { s.linkDown e.1 (prior s l) with freep := prior s l } bs ∧
      Keeps s (s.linkDown e.1 (prior s l)) (l ++ e :: r) bs e e' := by
  have sizeE := half.sizes e (by simp)
  have ring := half.ring
  have once := half.once
  rw [List.map_append] at ring once
  have apart : prior s l ≠ e.1 := by
    intro same
    have parts : (s.base :: l.map Prod.fst ++ e.1 :: r.map Prod.fst).Nodup := once
    exact (List.nodup_append.mp parts).2.2 _ List.getLastD_mem_cons _ List.mem_cons_self same
  unfold Heap.linkDown
  by_cases touch : plus (prior s l) (s.size (prior s l)) = e.1
  · rw [if_pos touch]
    rcases List.eq_nil_or_concat l with rfl | ⟨l, b, rfl⟩
    · -- Nothing touches `base`.
      have above := half.above e (by simp)
      have same : plus s.base (s.size s.base) = e.1 := touch
      have small := half.below e (by simp)
      rw [half.zero, plus_eq] at same
      · unfold stop unit at *
        omega
      · unfold stop unit at *
        omega
    · rw [List.concat_eq_append] at *
      have listedB : b ∈ l ++ [b] ++ e :: r := by simp
      have sizeB := half.sizes b listedB
      have belowE := half.below e (by simp)
      rw [prior_concat, sizeB, plus_eq (half.below b listedB)] at touch
      rw [prior_concat] at apart ⊢
      have sum : (s.size b.1 + s.size e.1) % 2 ^ 32 = b.2 + e.2 := by
        rw [sizeB, sizeE]
        apply Nat.mod_eq_of_lt
        unfold stop unit at *
        omega
      have ending : stop unit (b.1, b.2 + e.2) = stop unit e := by
        unfold stop unit at *
        dsimp only
        omega
      have skipped := ring.skip once
      have links : update (update s.ptr (prior s (l ++ [b])) e.1) (prior s (l ++ [b]))
          (update s.ptr (prior s (l ++ [b])) e.1 e.1) = update s.ptr b.1 (s.ptr e.1) := by
        rw [prior_concat, update_idem, update_of_ne apart.symm]
      have lone : s.base ≠ b.1 ∧ ∀ c ∈ l ++ r, c.1 ≠ b.1 := by
        have parts : (s.base :: (l.map Prod.fst ++ b.1 :: (e.1 :: r.map Prod.fst))).Nodup := by simpa using once
        have split : (s.base :: l.map Prod.fst ++ b.1 :: (e.1 :: r.map Prod.fst)).Nodup := parts
        obtain ⟨_, after, across⟩ := List.nodup_append.mp split
        refine ⟨across _ List.mem_cons_self _ List.mem_cons_self, fun c member => ?_⟩
        rcases List.mem_append.mp member with early | later
        · exact across _ (List.mem_cons_of_mem _ (List.mem_map_of_mem early)) _ List.mem_cons_self
        · intro same
          exact (List.nodup_cons.mp after).1 (List.mem_cons_of_mem _ (same ▸ List.mem_map_of_mem later))
      have still : l ++ r ⊆ l ++ [b] ++ e :: r := by
        rw [List.append_assoc]
        exact fun c member => append_cons_subset b (append_cons_subset e member)
      refine ⟨l ++ (b.1, b.2 + e.2) :: r, (b.1, b.2 + e.2), ?_, ?_⟩
      · exact {
          ring := by
            have addresses : (l ++ (b.1, b.2 + e.2) :: r).map Prod.fst = (l ++ [b]).map Prod.fst ++ r.map Prod.fst := by
              simp
            rw [addresses]
            change Path (update s.ptr b.1 (s.ptr e.1)) _ _ _
            rw [← links]
            exact skipped
          freep := by simp
          zero := by simp [lone.1, half.zero]
          sizes := forall_insert (by simpa using sum) fun c other => by
            simpa [lone.2 c other] using half.sizes c (still other)
          real := forall_insert (Nat.add_pos_left (half.real b listedB) _) fun c other => half.real c (still other)
          spaced := by
            have spaced := half.spaced
            rw [List.append_assoc] at spaced
            refine Extents.Spaced.insert spaced.remove ?_ ?_
            · intro a member
              exact (List.pairwise_append.mp spaced).2.2 a member b List.mem_cons_self
            · rw [ending]
              exact half.after
          above := forall_insert (half.above b listedB) fun c other => half.above c (still other)
          below := forall_insert (by rwa [ending]) fun c other => half.below c (still other) }
      · exact {
          base := rfl
          live := rfl
          regions := rfl
          size := by
            intro a _ other
            refine update_of_ne ?_ _ _
            rintro rfl
            exact other (List.mem_map_of_mem listedB)
          tally := by
            intro x
            have same : b.1 + unit * b.2 = e.1 := touch
            rw [tally_append, tally_append, tally_append, tally_cons _ r, tally_cut, same, tally_cons e r]
            ring
          grown := ⟨by simp, Nat.le_add_left _ _⟩
          subset := fun c member => (mem_insert member).imp_right (still ·)
          length := by simp }
  · rw [if_neg touch]
    refine ⟨l ++ e :: r, e, ?_, ?_⟩
    · exact {
        ring := half.ring
        freep := by
          rw [List.map_append, ← List.cons_append]
          exact List.mem_append_left _ List.getLastD_mem_cons
        zero := half.zero
        sizes := half.sizes
        real := half.real
        spaced := by
          refine half.spaced.insert ?_ half.after
          rcases List.eq_nil_or_concat l with rfl | ⟨l, b, rfl⟩
          · nofun
          · rw [List.concat_eq_append] at *
            have listedB : b ∈ l ++ [b] ++ e :: r := by simp
            rw [prior_concat, half.sizes b listedB, plus_eq (half.below b listedB)] at touch
            have fits := half.before b (by simp)
            have real := half.real b listedB
            intro a member
            rcases List.mem_append.mp member with early | here
            · exact half.spaced.split.1.before (Nat.mul_pos (by decide) real) fits a early
            · cases List.mem_singleton.mp here
              exact Nat.lt_of_le_of_ne fits touch
        above := half.above
        below := half.below }
    · exact ⟨rfl, rfl, rfl, fun _ _ _ => rfl, fun _ => rfl, ⟨by simp, le_rfl⟩, fun _ => .inr, le_rfl⟩

/-- What `free` does with a block that is in its place. -/
structure Freed (s t : Heap) (bs bs' : List Extent) (e : Extent) : Prop where
  listed : Listed t bs'
  base : t.base = s.base
  regions : t.regions = s.regions
  live : t.live = s.live.filter fun b => b.1 ≠ e.1
  size : ∀ a, a ≠ e.1 → a ∉ bs.map Prod.fst → t.size a = s.size a
  tally : ∀ x, tally unit bs' x = tally unit bs x + tally unit [e] x
  grown : ∃ b ∈ bs', e.2 ≤ b.2
  length : bs'.length ≤ bs.length + 1

theorem Placed.free {ap : Nat} (placed : Placed s l r e) (listed : Listed s (l ++ r)) (address : header ap = e.1)
    (enough : (l ++ r).length < fuel) : ∃ t bs, s.free fuel ap = some t ∧ Freed s t (l ++ r) bs e := by
  obtain ⟨e₁, r₁, same, half, up⟩ := placed.linkUp listed
  obtain ⟨bs, e₂, done, down⟩ := half.linkDown
  have base : prior (s.linkUp e.1 (prior s l)) l = prior s l := by rw [prior, up.base, prior]
  rw [base, same] at done down
  refine ⟨_, bs, by rw [Heap.free, address, placed.hunt listed enough, Option.map_some], ?_⟩
  have addresses : ∀ {a}, a ≠ e.1 → a ∉ (l ++ r).map Prod.fst → a ∉ (l ++ e :: r).map Prod.fst := by
    intro a other off member
    obtain ⟨b, listedB, rfl⟩ := List.mem_map.mp member
    rcases mem_insert listedB with rfl | listedB
    · exact other rfl
    · exact off (List.mem_map_of_mem listedB)
  exact {
    listed := ⟨done.ring, done.freep, done.zero, done.sizes, done.real, done.spaced, done.above, done.below⟩
    base := down.base.trans up.base
    regions := down.regions.trans up.regions
    live := rfl
    size := by
      intro a other off
      have away := addresses other off
      refine (down.size a (fun there => other (there.trans same)) fun member => ?_).trans (up.size a other away)
      obtain ⟨b, listedB, rfl⟩ := List.mem_map.mp member
      rcases up.subset b listedB with rfl | before
      · exact other same
      · exact away (List.mem_map_of_mem before)
    tally := by
      intro x
      rw [down.tally, up.tally, tally_append, tally_append, tally_cons e]
      ring
    grown := ⟨e₂, down.grown.1, up.grown.2.trans down.grown.2⟩
    length := by
      have first := up.length
      have second := down.length
      simp only [List.length_append, List.length_cons] at *
      omega }

end FreeList
end Xv6.Umalloc
