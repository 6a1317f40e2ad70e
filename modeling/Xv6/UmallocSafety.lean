import Xv6.UmallocProofs

/-! The whole heap: live blocks and free blocks cover what `sbrk` has returned, every byte
once, through all calls of `malloc` and `free` and all writes of the program to its own
blocks. The loops end. -/
namespace Xv6.Umalloc
open Extents Transition
open Ring (Path)
open Function (update update_of_ne update_self)

variable {s t : Heap} {bs l r : List Extent} {b e : Extent} {a p prevp : Nat} {m n fuel : Nat}

/-- The live blocks, with their headers. -/
def Heap.blocks (s : Heap) : List Extent := s.live.map fun b => (b.1, s.size b.1)

theorem Heap.mem_blocks (live : (a, n) ∈ s.live) : (a, s.size a) ∈ s.blocks := List.mem_map_of_mem live

section Heap

structure Good (s : Heap) (bs : List Extent) : Prop where
  listed : Listed s bs
  tiles : ∀ x, tally unit bs x + tally unit s.blocks x = tally unit s.regions x
  ordered : s.regions.Pairwise fun a b => stop unit b ≤ a.1
  low : ∀ r ∈ s.regions, s.base + unit ≤ r.1
  high : ∀ r ∈ s.regions, stop unit r < 2 ^ 32
  room : ∀ b ∈ s.live, b.2 + unit ≤ unit * s.size b.1

theorem has_first (real : 0 < e.2) : has unit e.1 e = true := by
  rw [has_iff]
  unfold stop unit
  omega

theorem has_last (real : 0 < e.2) : has unit (stop unit e - 1) e = true := by
  rw [has_iff]
  unfold stop unit
  omega

theorem mem_widen {c : Extent} (other : c ∈ l ++ r) : c ∈ l ++ b :: r :=
  List.mem_append.mpr ((List.mem_append.mp other).imp_right (List.mem_cons_of_mem b))

theorem tally_mem {x : Nat} (member : e ∈ bs) (covers : has unit x e = true) : 0 < tally unit bs x :=
  tally_pos.mpr ⟨e, member, covers⟩

namespace Good

theorem once (good : Good s bs) (x : Nat) : tally unit bs x + tally unit s.blocks x ≤ 1 := by
  rw [good.tiles]
  exact tally_le_one good.ordered

theorem real (good : Good s bs) (member : e ∈ s.blocks) : 0 < e.2 := by
  obtain ⟨b, live, rfl⟩ := List.mem_map.mp member
  have room := good.room b live
  unfold unit at room
  dsimp only
  omega

theorem region_top (good : Good s bs) : ∀ g ∈ s.regions, stop unit g ≤ s.top := by
  intro g member
  have ordered := good.ordered
  unfold Heap.top
  cases regions : s.regions with
  | nil =>
    rw [regions] at member
    exact nomatch member
  | cons h rest =>
    rw [regions] at member ordered
    rcases List.mem_cons.mp member with rfl | older
    · exact le_rfl
    · exact ((List.pairwise_cons.mp ordered).1 g older).trans (Nat.le_add_right _ _)

theorem base_top (good : Good s bs) : s.base + unit ≤ s.top := by
  have low := good.low
  unfold Heap.top
  cases regions : s.regions with
  | nil => exact le_rfl
  | cons h rest =>
    rw [regions] at low
    exact (low h List.mem_cons_self).trans (Nat.le_add_right _ _)

/-- Whatever is covered lies in a region. -/
theorem inside (good : Good s bs) (real : 0 < e.2) (covered : e ∈ bs ∨ e ∈ s.blocks) :
    s.base + unit ≤ e.1 ∧ stop unit e ≤ s.top ∧ stop unit e < 2 ^ 32 := by
  have region : ∀ x, has unit x e = true → ∃ g ∈ s.regions, has unit x g = true := by
    intro x covers
    rw [← tally_pos, ← good.tiles]
    rcases covered with free | live
    · exact Nat.add_pos_left (tally_mem free covers) _
    · exact Nat.add_pos_right _ (tally_mem live covers)
  have size : 0 < unit * e.2 := Nat.mul_pos (by decide) real
  obtain ⟨g, member, first⟩ := region _ (has_first real)
  obtain ⟨g', member', last⟩ := region _ (has_last real)
  have low := good.low g member
  have high := good.high g' member'
  have below := good.region_top g' member'
  rw [has_iff] at first last
  unfold stop at *
  omega

/-- A free block and a live one share no byte. -/
theorem apart (good : Good s bs) {c : Extent} {x : Nat} (free : b ∈ bs) (live : c ∈ s.blocks)
    (first : has unit x b = true) (second : has unit x c = true) : False := by
  have one := good.once x
  have left := tally_mem free first
  have right := tally_mem live second
  omega

/-- The headers of live blocks are not in the list. -/
theorem live_not_free (good : Good s bs) (live : e ∈ s.blocks) : e.1 ∉ bs.map Prod.fst := by
  intro member
  obtain ⟨b, free, same⟩ := List.mem_map.mp member
  have first := has_first (good.listed.real b free)
  rw [same] at first
  exact good.apart free live first (has_first (good.real live))

end Good

/-- One live block and the others. -/
theorem blocks_split {l₁ l₂ : List (Nat × Nat)} (split : s.live = l₁ ++ (a, n) :: l₂) (x : Nat) :
    tally unit s.blocks x = tally unit ((l₁ ++ l₂).map fun b => (b.1, s.size b.1)) x +
      tally unit [(a, s.size a)] x := by
  rw [Heap.blocks, split, List.map_append, List.map_append, List.map_cons, tally_append, tally_append, tally_cons]
  ring

theorem blocks_congr (live : t.live = s.live) (sizes : ∀ b ∈ s.live, t.size b.1 = s.size b.1) :
    t.blocks = s.blocks := by
  unfold Heap.blocks
  rw [live]
  exact List.map_congr_left fun b member => by rw [sizes b member]

namespace Good

/-- Two live blocks have two headers. -/
theorem live_once (good : Good s bs) {l₁ l₂ : List (Nat × Nat)} (split : s.live = l₁ ++ (a, n) :: l₂) :
    ∀ c ∈ l₁ ++ l₂, c.1 ≠ a := by
  intro c member same
  have live : (a, n) ∈ s.live := by simp [split]
  have one := good.once a
  have first : has unit a (a, s.size a) = true := has_first (good.real (Heap.mem_blocks live))
  have total := blocks_split split a
  have other : 0 < tally unit ((l₁ ++ l₂).map fun b => (b.1, s.size b.1)) a := by
    refine tally_mem (List.mem_map_of_mem member) ?_
    rw [same]
    exact first
  rw [tally_one, if_pos first] at total
  omega

theorem free {ap : Nat} (good : Good s bs) (address : header ap = a) (live : (a, n) ∈ s.live) (enough : bs.length < fuel) :
    ∃ t bs', s.free fuel ap = some t ∧ Good t bs' ∧ t.base = s.base := by
  obtain ⟨l₁, l₂, split⟩ := List.append_of_mem live
  have here := Heap.mem_blocks live
  have real := good.real here
  have others := good.live_once split
  have alone : ∀ x, tally unit ((a, s.size a) :: bs) x ≤ 1 := by
    intro x
    have one := good.once x
    rw [blocks_split split] at one
    rw [tally_cons]
    omega
  obtain ⟨l, r, rfl, before, after⟩ := good.listed.spaced.place
    (fun b member => Nat.mul_pos (by decide) (good.listed.real b member)) (Nat.mul_pos (by decide) real) alone
  obtain ⟨above, _, below⟩ := good.inside real (.inr here)
  have placed : Placed s l r (a, s.size a) := ⟨real, rfl, above, below, before, after⟩
  obtain ⟨t, bs', result, freed⟩ := placed.free good.listed address enough
  have rest : t.live = l₁ ++ l₂ := by
    rw [freed.live, split, List.filter_append, List.filter_cons_of_neg (by simp), ← List.filter_append]
    exact List.filter_eq_self.mpr fun c member => decide_eq_true (others c member)
  have among : ∀ b ∈ l₁ ++ l₂, b ∈ s.live := fun b member => split ▸ mem_widen member
  have sizes : ∀ b ∈ l₁ ++ l₂, t.size b.1 = s.size b.1 := by
    intro b member
    have listed := good.live_not_free (e := (b.1, s.size b.1)) (Heap.mem_blocks (among b member))
    exact freed.size b.1 (others b member) listed
  have blocks : t.blocks = (l₁ ++ l₂).map fun b => (b.1, s.size b.1) := by
    unfold Heap.blocks
    rw [rest]
    exact List.map_congr_left fun b member => by rw [sizes b member]
  refine ⟨t, bs', result, ?_, freed.base⟩
  exact {
    listed := freed.listed
    tiles := by
      intro x
      rw [freed.tally, blocks, freed.regions, ← good.tiles, blocks_split split]
      ring
    ordered := freed.regions ▸ good.ordered
    low := by
      rw [freed.regions, freed.base]
      exact good.low
    high := freed.regions ▸ good.high
    room := by
      intro b member
      rw [rest] at member
      rw [sizes b member]
      exact good.room b (among b member) }

/-- The block at the end of the heap is put behind all others. -/
theorem morecore {nbytes g : Nat} (good : Good s bs) (fresh : s.Fresh nbytes g) (enough : bs.length < fuel) :
    ∃ t bs', s.morecore fuel (Heap.nunits nbytes) g = some t ∧ Good t bs' ∧ t.base = s.base ∧ t.live = s.live ∧
      (∃ b ∈ bs', Heap.nunits nbytes ≤ b.2) ∧ bs'.length ≤ bs.length + 1 := by
  obtain ⟨beyond, fits⟩ := fresh
  obtain ⟨u, request, large⟩ : ∃ u, (if Heap.nunits nbytes < 4096 then 4096 else Heap.nunits nbytes) = u ∧
      u = max (Heap.nunits nbytes) 4096 := by
    refine ⟨_, rfl, ?_⟩
    split_ifs <;> omega
  rw [← large] at fits
  have positive : 0 < u := by omega
  have top := good.base_top
  have under : ∀ c ∈ bs, stop unit c ≤ g := fun c member =>
    (good.inside (good.listed.real c member) (.inl member)).2.1.trans beyond
  have off : ∀ c : Extent, 0 < c.2 → stop unit c ≤ g → c.1 ≠ g := by
    intro c real ends
    unfold stop unit at ends
    omega
  have liveOff : ∀ b ∈ s.live, b.1 ≠ g := by
    intro b member
    have here := Heap.mem_blocks member
    have real := good.real here
    exact off (b.1, s.size b.1) real ((good.inside real (.inr here)).2.1.trans beyond)
  have notBase : s.base ≠ g := by
    unfold unit at top
    omega
  have old := good.listed
  have listed : Listed { s with size := update s.size g u, regions := (g, u) :: s.regions } (bs ++ []) := by
    rw [List.append_nil]
    exact {
      ring := old.ring
      freep := old.freep
      zero := (update_of_ne notBase _ _).trans old.zero
      sizes := fun c member =>
        (update_of_ne (off c (old.real c member) (under c member)) _ _).trans (old.sizes c member)
      real := old.real
      spaced := old.spaced
      above := old.above
      below := old.below }
  have placed : Placed { s with size := update s.size g u, regions := (g, u) :: s.regions } bs [] (g, u) :=
    ⟨positive, update_self .., top.trans beyond, fits, under, nofun⟩
  have address : header (plus g 1) = g := by
    unfold header plus unit at *
    omega
  have length : (bs ++ []).length < fuel := by rwa [List.append_nil]
  obtain ⟨t, bs', result, freed⟩ := placed.free listed address length
  rw [List.append_nil] at freed
  have rest : t.live = s.live := by
    rw [freed.live]
    exact List.filter_eq_self.mpr fun b member => decide_eq_true (liveOff b member)
  have sizes : ∀ b ∈ s.live, t.size b.1 = s.size b.1 := by
    intro b member
    have free := good.live_not_free (e := (b.1, s.size b.1)) (List.mem_map_of_mem member)
    exact (freed.size b.1 (liveOff b member) free).trans (update_of_ne (liveOff b member) _ _)
  have regions : t.regions = (g, u) :: s.regions := freed.regions
  have highest : ∀ h ∈ s.regions, stop unit h ≤ g := fun h member => (good.region_top h member).trans beyond
  refine ⟨t, bs', ?_, ?_, freed.base, rest, ?_, freed.length⟩
  · unfold Heap.morecore
    rw [request]
    exact result
  · exact {
      listed := freed.listed
      tiles := by
        intro x
        rw [freed.tally, blocks_congr rest sizes, regions, tally_cons _ s.regions, ← good.tiles]
        ring
      ordered := by
        rw [regions]
        exact List.pairwise_cons.mpr ⟨highest, good.ordered⟩
      low := by
        rw [regions, freed.base]
        exact List.forall_mem_cons.mpr ⟨top.trans beyond, good.low⟩
      high := by
        rw [regions]
        exact List.forall_mem_cons.mpr ⟨fits, good.high⟩
      room := by
        intro b member
        rw [rest] at member
        rw [sizes b member]
        exact good.room b member }
  · obtain ⟨b, member, enough⟩ := freed.grown
    refine ⟨b, member, le_trans ?_ enough⟩
    dsimp only
    omega

/-- The header of a block that is returned is the one the caller will give back. -/
theorem header_plus (low : unit ≤ a) (fits : a + unit < 2 ^ 32) : header (plus a 1) = a ∧ plus a 1 ≠ 0 := by
  unfold header plus unit at *
  omega

/-- A block of just the right size is taken out of the list. -/
theorem unlink (good : Good s (l ++ b :: r)) (room : n + unit ≤ unit * b.2)
    (inside : prevp ∈ s.base :: (l ++ b :: r).map Prod.fst) (leads : s.ptr prevp = b.1) :
    Good { s with ptr := update s.ptr prevp (s.ptr b.1), freep := prevp, live := (b.1, n) :: s.live }
      (l ++ r) := by
  have old := good.listed
  have member : b ∈ l ++ b :: r := by simp
  have sizeB := old.sizes b member
  have above := old.above b member
  have once := old.once
  have ring := old.ring
  rw [List.map_append] at ring once inside
  have away : b.1 ≠ s.base := by
    unfold unit at above
    omega
  have pred := ring.before once away inside leads
  have skipped := ring.skip once
  exact {
    listed := {
      ring := by
        rw [List.map_append]
        change Path (update s.ptr prevp (s.ptr b.1)) _ _ _
        rw [pred]
        exact skipped
      freep := by
        change prevp ∈ _
        rw [pred, List.map_append, ← List.cons_append]
        exact List.mem_append_left _ List.getLastD_mem_cons
      zero := old.zero
      sizes := fun c other => old.sizes c (mem_widen other)
      real := fun c other => old.real c (mem_widen other)
      spaced := old.spaced.remove
      above := fun c other => old.above c (mem_widen other)
      below := fun c other => old.below c (mem_widen other) }
    tiles := by
      intro x
      change _ + tally unit ((b.1, s.size b.1) :: s.blocks) x = tally unit s.regions x
      rw [← good.tiles, sizeB, tally_append, tally_append, tally_cons b r, tally_cons b s.blocks]
      ring
    ordered := good.ordered
    low := good.low
    high := good.high
    room := by
      refine List.forall_mem_cons.mpr ⟨?_, good.room⟩
      dsimp only
      rw [sizeB]
      exact room }

/-- Where the tail of a free block starts there is no header. -/
theorem tail_new (good : Good s (l ++ b :: r)) (positive : 0 < m) (less : m < b.2) :
    (∀ c ∈ l ++ r, c.1 ≠ b.1 ∧ c.1 ≠ b.1 + unit * (b.2 - m)) ∧
      ∀ c ∈ s.live, c.1 ≠ b.1 ∧ c.1 ≠ b.1 + unit * (b.2 - m) := by
  have member : b ∈ l ++ b :: r := by simp
  constructor
  · intro c other
    obtain ⟨_, later, across⟩ := List.pairwise_append.mp good.listed.spaced
    rcases List.mem_append.mp other with early | late
    · have gap := across c early b List.mem_cons_self
      unfold stop unit at *
      omega
    · have gap := (List.pairwise_cons.mp later).1 c late
      unfold stop unit at *
      omega
  · intro c live
    have here := Heap.mem_blocks live
    have first := has_first (good.real here)
    have inB : has unit (b.1 + unit * (b.2 - m)) b = true := by
      rw [has_iff]
      unfold stop unit
      omega
    constructor
    · intro same
      exact good.live_not_free here (same ▸ List.mem_map_of_mem member)
    · intro same
      dsimp only at first
      rw [same] at first
      exact good.apart member here inB (same ▸ first)

/-- The tail of a larger block is cut off. -/
theorem cut (good : Good s (l ++ b :: r)) (positive : 0 < m) (less : m < b.2) (room : n + unit ≤ unit * m)
    (inside : prevp ∈ s.base :: (l ++ b :: r).map Prod.fst) :
    Good { s with
      size := update (update s.size b.1 (b.2 - m)) (b.1 + unit * (b.2 - m)) m
      freep := prevp
      live := (b.1 + unit * (b.2 - m), n) :: s.live } (l ++ (b.1, b.2 - m) :: r) := by
  have old := good.listed
  have member : b ∈ l ++ b :: r := by simp
  have above := old.above b member
  obtain ⟨others, lives⟩ := good.tail_new positive less
  have sizes : ∀ c : Nat × Nat, c.1 ≠ b.1 ∧ c.1 ≠ b.1 + unit * (b.2 - m) →
      update (update s.size b.1 (b.2 - m)) (b.1 + unit * (b.2 - m)) m c.1 = s.size c.1 := by
    intro c off
    rw [update_of_ne off.2, update_of_ne off.1]
  have start : b.1 ≠ b.1 + unit * (b.2 - m) := by
    unfold unit
    omega
  have base : s.base ≠ b.1 ∧ s.base ≠ b.1 + unit * (b.2 - m) := by
    unfold unit at *
    omega
  have addresses : (l ++ (b.1, b.2 - m) :: r).map Prod.fst = (l ++ b :: r).map Prod.fst := by simp
  have shorter : stop unit (b.1, b.2 - m) < stop unit b := by
    unfold stop unit
    dsimp only
    omega
  exact {
    listed := {
      ring := addresses ▸ old.ring
      freep := addresses ▸ inside
      zero := (sizes (s.base, 0) base).trans old.zero
      sizes := by
        intro c member
        rcases mem_insert member with rfl | other
        · exact (update_of_ne start _ _).trans (update_self ..)
        · exact (sizes c (others c other)).trans (old.sizes c (mem_widen other))
      real := by
        intro c member
        rcases mem_insert member with rfl | other
        · exact Nat.sub_pos_of_lt less
        · exact old.real c (mem_widen other)
      spaced := by
        obtain ⟨_, later, across⟩ := List.pairwise_append.mp old.spaced
        apply Extents.Spaced.insert old.spaced.remove
        · exact fun c early => across c early b List.mem_cons_self
        · exact fun c late => shorter.trans ((List.pairwise_cons.mp later).1 c late)
      above := by
        intro c member
        rcases mem_insert member with rfl | other
        · exact above
        · exact old.above c (mem_widen other)
      below := by
        intro c member
        rcases mem_insert member with rfl | other
        · exact shorter.trans (old.below b ‹_›)
        · exact old.below c (mem_widen other) }
    tiles := by
      intro x
      have kept : (s.live.map fun c => (c.1, update (update s.size b.1 (b.2 - m))
          (b.1 + unit * (b.2 - m)) m c.1)) = s.blocks :=
        List.map_congr_left fun c live => by rw [sizes c (lives c live)]
      have parts := tally_cut (w := unit) (x := x) b.1 (b.2 - m) m
      rw [Nat.sub_add_cancel less.le] at parts
      unfold Heap.blocks
      rw [List.map_cons, kept]
      dsimp only
      rw [update_self, ← good.tiles, tally_append, tally_append, tally_cons b r, tally_cons _ r,
        tally_cons _ s.blocks, show tally unit [b] x = _ from parts]
      ring
    ordered := good.ordered
    low := good.low
    high := good.high
    room := by
      refine List.forall_mem_cons.mpr ⟨?_, fun c live => ?_⟩
      · dsimp only
        rw [update_self]
        exact room
      · dsimp only
        rw [sizes c (lives c live)]
        exact good.room c live }

/-- `malloc` takes a block out of the list, or the tail of one. -/
theorem carve (good : Good s bs) (member : b ∈ bs) (fits : m ≤ b.2) (positive : 0 < m) (room : n + unit ≤ unit * m)
    (inside : prevp ∈ s.base :: bs.map Prod.fst) (leads : s.ptr prevp = b.1) :
    ∃ bs', Good { (s.carve prevp b.1 m).2 with live := ((s.carve prevp b.1 m).1, n) :: s.live } bs' ∧
      unit ≤ (s.carve prevp b.1 m).1 ∧ (s.carve prevp b.1 m).1 + unit < 2 ^ 32 := by
  have sizeB := good.listed.sizes b member
  have real := good.listed.real b member
  have above := good.listed.above b member
  have below := good.listed.below b member
  obtain ⟨l, r, rfl⟩ := List.append_of_mem member
  unfold Heap.carve
  by_cases whole : s.size b.1 = m
  · rw [if_pos whole]
    rw [sizeB] at whole
    refine ⟨l ++ r, good.unlink (whole ▸ room) inside leads, ?_, ?_⟩
    · dsimp only
      omega
    · unfold stop unit at *
      dsimp only
      omega
  · rw [if_neg whole]
    rw [sizeB] at whole
    have less : m < b.2 := Nat.lt_of_le_of_ne fits (Ne.symm whole)
    have tail : plus b.1 (s.size b.1 - m) = b.1 + unit * (b.2 - m) := by
      rw [sizeB]
      apply Nat.mod_eq_of_lt
      unfold stop unit at *
      omega
    dsimp only
    rw [tail, sizeB]
    refine ⟨_, good.cut positive less room inside, ?_, ?_⟩
    · omega
    · unfold stop unit at *
      omega

end Good
end Heap
end Xv6.Umalloc
