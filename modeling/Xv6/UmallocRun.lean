import Xv6.UmallocSafety

/-! The loop of `malloc`, and the heap through every sequence of calls. -/
namespace Xv6.Umalloc
open Extents Transition
open Ring (Path)
open Function (update update_of_ne update_self)

variable {s t : Heap} {bs : List Extent} {b : Extent} {a p prevp : Nat} {m n nbytes fuel : Nat} {answer : Option Nat}

section Turns
variable {k k' : Nat}

theorem Heap.free_more {ap : Nat} (result : s.free k ap = some t) (more : k ≤ k') : s.free k' ap = some t := by
  unfold Heap.free at *
  obtain ⟨p, found, rfl⟩ := Option.map_eq_some_iff.mp result
  exact Option.map_eq_some_iff.mpr ⟨p, Ring.hunt_more found more, rfl⟩

theorem Heap.search_more {ap : Nat} (result : s.search k m answer prevp p = some (ap, t)) (more : k ≤ k') :
    s.search k' m answer prevp p = some (ap, t) := by
  induction k generalizing s answer prevp p k' with
  | zero => exact nomatch result
  | succ k ih =>
    obtain ⟨k', rfl⟩ := Nat.exists_eq_add_of_le' (Nat.one_le_of_lt more)
    have more := Nat.le_of_succ_le_succ more
    unfold Heap.search at result ⊢
    by_cases fits : s.size p ≥ m
    · rwa [if_pos fits] at result ⊢
    · rw [if_neg fits] at result ⊢
      by_cases wrapped : p = s.freep
      · rw [if_pos wrapped] at result ⊢
        cases answer with
        | none => exact result
        | some r =>
          dsimp only at result ⊢
          cases grown : s.morecore k m r with
          | none =>
            rw [grown] at result
            exact nomatch result
          | some u =>
            rw [grown] at result
            rw [show s.morecore k' m r = some u from free_more grown more]
            exact ih result more
      · rw [if_neg wrapped] at result ⊢
        exact ih result more

theorem Heap.malloc_more {ap : Nat} (result : s.malloc k nbytes answer = some (ap, t)) (more : k ≤ k') :
    s.malloc k' nbytes answer = some (ap, t) := by
  unfold Heap.malloc at *
  obtain ⟨⟨bp, u⟩, found, same⟩ := Option.map_eq_some_iff.mp result
  exact Option.map_eq_some_iff.mpr ⟨(bp, u), search_more found more, same⟩

end Turns

section Search

/-- The loop of `malloc` along the list: it takes the first block that is large enough, or
it comes to `freep`. -/
theorem Heap.search_path {ys : List Nat} (path : Path s.ptr prevp ys s.freep) (away : s.freep ∉ ys)
    (enough : ys.length < fuel) :
    (∃ pr ∈ prevp :: ys, m ≤ s.size (s.ptr pr) ∧ s.search fuel m answer prevp (s.ptr prevp) =
      some (plus (s.carve pr (s.ptr pr) m).1 1, (s.carve pr (s.ptr pr) m).2)) ∨
    (∀ x ∈ s.freep :: ys, s.size x < m) ∧ ∃ pr k, fuel = ys.length + 1 + k ∧
      s.search fuel m answer prevp (s.ptr prevp) = s.search (k + 1) m answer pr s.freep := by
  obtain ⟨k, rfl⟩ := Nat.exists_eq_add_of_lt enough
  induction ys generalizing prevp with
  | nil =>
    have ends : s.ptr prevp = s.freep := path
    by_cases fits : m ≤ s.size (s.ptr prevp)
    · exact .inl ⟨prevp, List.mem_cons_self, fits, if_pos fits⟩
    · rw [ends] at fits ⊢
      refine .inr ⟨?_, prevp, k, Nat.add_right_comm .., ?_⟩
      · exact List.forall_mem_singleton.mpr (Nat.lt_of_not_le fits)
      · rw [List.length_nil, Nat.zero_add]
  | cons y ys ih =>
    obtain ⟨first, rest⟩ := path
    obtain ⟨other, away⟩ := not_or.mp (mt List.mem_cons.mpr away)
    by_cases fits : m ≤ s.size (s.ptr prevp)
    · exact .inl ⟨prevp, List.mem_cons_self, fits, if_pos fits⟩
    · rw [first] at fits ⊢
      have on : s.search ((y :: ys).length + k + 1) m answer prevp y =
          s.search (ys.length + k + 1) m answer y (s.ptr y) := by
        rw [List.length_cons, Nat.add_right_comm ys.length 1 k]
        conv_lhs => unfold Heap.search
        rw [if_neg fits, if_neg (Ne.symm other)]
      rw [on]
      rcases ih rest away (by omega) with ⟨pr, member, found⟩ | ⟨small, pr, j, length, at_⟩
      · exact .inl ⟨pr, List.mem_cons_of_mem _ member, found⟩
      · refine .inr ⟨fun x member => ?_, pr, j, ?_, at_⟩
        · rcases List.mem_cons.mp member with rfl | member
          · exact small _ List.mem_cons_self
          · rcases List.mem_cons.mp member with rfl | member
            · exact Nat.lt_of_not_le fits
            · exact small x (List.mem_cons_of_mem _ member)
        · rw [List.length_cons]
          omega

/-- At `freep`, when `sbrk` fails. -/
theorem Heap.search_none {k : Nat} (small : s.size s.freep < m) : s.search (k + 1) m none prevp s.freep = some (0, s) := by
  rw [Heap.search, if_neg (Nat.not_le_of_lt small), if_pos rfl]

/-- At `freep`, when there is more memory: the list is searched again. -/
theorem Heap.search_grown {k g : Nat} (small : s.size s.freep < m) (grown : s.morecore k m g = some t) :
    s.search (k + 1) m (some g) prevp s.freep = t.search k m none t.freep (t.ptr t.freep) := by
  rw [Heap.search, if_neg (Nat.not_le_of_lt small), if_pos rfl, grown]

/-- The heap when `malloc` returns `ap`. -/
def Heap.served (t : Heap) (n ap : Nat) : Heap :=
  if ap = 0 then t else { t with live := (header ap, n) :: t.live }

theorem Heap.nunits_room (small : n ≤ 2 ^ 30) : 0 < Heap.nunits n ∧ n + unit ≤ unit * Heap.nunits n := by
  unfold Heap.nunits unit
  omega

/-- What a call of `malloc` leaves: a heap that is in order, with the block that was
asked for. It returns nothing only if `failed`. -/
def Serves (base n : Nat) (failed : Prop) (result : Option (Nat × Heap)) : Prop :=
  ∃ ap t bs, result = some (ap, t) ∧ t.base = base ∧ Good (t.served n ap) bs ∧ (ap = 0 → failed)

theorem Serves.mono {base : Nat} {failed failed' : Prop} {result : Option (Nat × Heap)}
    (serves : Serves base n failed result) (weaker : failed → failed') : Serves base n failed' result := by
  obtain ⟨ap, t, bs, returned, same, good, nothing⟩ := serves
  exact ⟨ap, t, bs, returned, same, good, weaker ∘ nothing⟩

namespace Good

theorem fit (good : Good s bs) (positive : 0 < m) (room : n + unit ≤ unit * m)
    (inside : prevp ∈ s.base :: bs.map Prod.fst) (fits : m ≤ s.size (s.ptr prevp)) :
    Serves s.base n False (some (plus (s.carve prevp (s.ptr prevp) m).1 1, (s.carve prevp (s.ptr prevp) m).2)) := by
  have away : s.ptr prevp ≠ s.base := by
    intro back
    rw [back, good.listed.zero] at fits
    omega
  obtain ⟨b, member, leads⟩ := List.mem_map.mp (good.listed.ring.onward inside away)
  rw [← leads, good.listed.sizes b member] at fits
  rw [← leads]
  obtain ⟨bs', kept, low, high⟩ := good.carve member fits positive room inside leads.symm
  obtain ⟨back, some_⟩ := header_plus low high
  have live : (s.carve prevp b.1 m).2.live = s.live ∧ (s.carve prevp b.1 m).2.base = s.base := by
    unfold Heap.carve
    split <;> exact ⟨rfl, rfl⟩
  refine ⟨_, _, bs', rfl, live.2, ?_, fun none => absurd none some_⟩
  unfold Heap.served
  rwa [if_neg some_, back, live.1]

/-- Once around the list. -/
theorem around (good : Good s bs) (positive : 0 < m) (room : n + unit ≤ unit * m) (enough : bs.length < fuel) :
    Serves s.base n False (s.search fuel m answer s.freep (s.ptr s.freep)) ∨
      (∀ b ∈ bs, b.2 < m) ∧ s.size s.freep < m ∧ ∃ pr k, fuel = bs.length + 1 + k ∧
        s.search fuel m answer s.freep (s.ptr s.freep) = s.search (k + 1) m answer pr s.freep := by
  obtain ⟨ys, around, perm⟩ := good.listed.ring.around good.listed.freep
  have length : ys.length = bs.length := by
    have := perm.length_eq
    simpa using this
  have away := (List.nodup_cons.mp (perm.nodup_iff.mpr good.listed.once)).1
  rcases Heap.search_path around away (length ▸ enough) with ⟨pr, member, fits, found⟩ | ⟨small, pr, k, turns, at_⟩
  · left
    rw [found]
    exact good.fit positive room (perm.mem_iff.mp member) fits
  · refine .inr ⟨fun b member => ?_, small _ List.mem_cons_self, pr, k, length ▸ turns, at_⟩
    rw [← good.listed.sizes b member]
    exact small b.1 (perm.mem_iff.mpr (List.mem_cons_of_mem _ (List.mem_map_of_mem member)))

/-- When nothing is large enough, what `sbrk` returns is, and `sbrk` is not asked again. -/
theorem search (good : Good s bs) (small : nbytes ≤ 2 ^ 30) (fresh : ∀ r, answer = some r → s.Fresh nbytes r) :
    ∃ k, Serves s.base nbytes (answer = none) (s.search k (Heap.nunits nbytes) answer s.freep (s.ptr s.freep)) := by
  obtain ⟨positive, room⟩ := Heap.nunits_room small
  refine ⟨bs.length + 1 + (bs.length + 2), ?_⟩
  have enough : bs.length < bs.length + 1 + (bs.length + 2) := by omega
  rcases good.around positive room enough with found | ⟨_, wrapped, pr, k, turns, at_⟩
  · exact found.mono False.elim
  · obtain rfl : k = bs.length + 2 := by omega
    rw [at_]
    cases answer with
    | none => exact ⟨0, s, bs, Heap.search_none wrapped, rfl, good, fun _ => rfl⟩
    | some r =>
      obtain ⟨t, bs', grown, kept, base, live, ⟨b, member, large⟩, length⟩ :=
        good.morecore (fresh r rfl) (show bs.length < bs.length + 2 by omega)
      rw [Heap.search_grown wrapped grown]
      have enough : bs'.length < bs.length + 2 := by omega
      rcases kept.around positive room enough with found | ⟨small, _⟩
      · rw [base] at found
        exact found.mono False.elim
      · exact absurd (small b member) (Nat.not_lt_of_le large)

end Good
end Search

section Runs

/-- Before the first call there is no list. -/
def Intact (s : Heap) : Prop := s.freep = 0 ∧ s.live = [] ∧ s.regions = [] ∨ ∃ bs, Good s bs

theorem Good.freep_pos (good : Good s bs) (base : 0 < s.base) : s.freep ≠ 0 := by
  have low : s.base ≤ s.freep := by
    rcases List.mem_cons.mp good.listed.freep with same | inside
    · exact same.ge
    · exact ((List.pairwise_cons.mp good.listed.sorted).1 s.freep inside).le
  omega

theorem Heap.init_fresh {g : Nat} (fresh : s.Fresh nbytes g) : s.init.Fresh nbytes g := by
  unfold Heap.init
  split <;> exact fresh

theorem Heap.init_base : s.init.base = s.base := by
  unfold Heap.init
  split <;> rfl

namespace Intact

theorem init (intact : Intact s) (base : 0 < s.base) : ∃ bs, Good s.init bs := by
  rcases intact with ⟨first, live, regions⟩ | ⟨bs, good⟩
  · refine ⟨[], ?_⟩
    unfold Heap.init
    rw [if_pos first]
    exact {
      listed := {
        ring := update_self ..
        freep := List.mem_cons_self
        zero := update_self ..
        sizes := nofun
        real := nofun
        spaced := .nil
        above := nofun
        below := nofun }
      tiles := by
        intro x
        simp [Heap.blocks, live, regions, tally]
      ordered := by simp [regions]
      low := by simp [regions]
      high := by simp [regions]
      room := by simp [live] }
  · refine ⟨bs, ?_⟩
    unfold Heap.init
    rwa [if_neg (good.freep_pos base)]

/-- `malloc` returns, and leaves the heap in order. -/
theorem malloc (intact : Intact s) (base : 0 < s.base) (small : nbytes ≤ 2 ^ 30)
    (fresh : ∀ g, answer = some g → s.Fresh nbytes g) :
    ∃ k ap t, (∀ fuel ≥ k, s.malloc fuel nbytes answer = some (ap, t)) ∧ Intact t ∧ t.base = s.base ∧
      (ap = 0 → answer = none) := by
  obtain ⟨bs, good⟩ := intact.init base
  obtain ⟨k, ap, t, bs', result, same, served, nothing⟩ :=
    good.search small fun g asked => Heap.init_fresh (fresh g asked)
  refine ⟨k, ap, t.served nbytes ap, fun fuel more => Heap.malloc_more ?_ more, .inr ⟨bs', served⟩, ?_, nothing⟩
  · exact Option.map_eq_some_iff.mpr ⟨(ap, t), result, rfl⟩
  · rw [← Heap.init_base (s := s), ← same]
    unfold Heap.served
    split <;> rfl

theorem free {ap : Nat} (intact : Intact s) (live : (header ap, n) ∈ s.live) :
    ∃ k t, (∀ fuel ≥ k, s.free fuel ap = some t) ∧ Intact t ∧ t.base = s.base := by
  rcases intact with ⟨_, none, _⟩ | ⟨bs, good⟩
  · rw [none] at live
    exact nomatch live
  · obtain ⟨t, bs', result, kept, base⟩ := good.free rfl live (Nat.lt_succ_self bs.length)
    exact ⟨_, t, fun fuel more => Heap.free_more result more, .inr ⟨bs', kept⟩, base⟩

end Intact

/-- No header is strictly inside a live block. -/
theorem Good.no_header {x : Nat} (good : Good s bs) (live : (a, n) ∈ s.live) (after : a < x)
    (before : x < a + unit * s.size a) :
    x ∉ s.base :: bs.map Prod.fst ∧ ∀ c ∈ s.live, c.1 ≠ x := by
  have here := Heap.mem_blocks live
  have covers : has unit x (a, s.size a) = true := has_iff.mpr ⟨after.le, before⟩
  constructor
  · intro member
    rcases List.mem_cons.mp member with rfl | free
    · have low := (good.inside (good.real here) (.inr here)).1
      dsimp only at low
      omega
    · obtain ⟨c, listed, rfl⟩ := List.mem_map.mp free
      exact good.apart listed here (has_first (good.listed.real c listed)) covers
  · rintro c member rfl
    obtain ⟨l₁, l₂, split⟩ := List.append_of_mem live
    have other : c ∈ l₁ ++ l₂ := by
      rw [split, List.mem_append, List.mem_cons] at member
      rcases member with early | rfl | late
      · exact List.mem_append_left _ early
      · exact absurd after (lt_irrefl _)
      · exact List.mem_append_right _ late
    have second : 0 < tally unit ((l₁ ++ l₂).map fun b => (b.1, s.size b.1)) c.1 :=
      tally_mem (List.mem_map_of_mem other) (has_first (good.real (Heap.mem_blocks member)))
    have one := good.once c.1
    rw [blocks_split split, tally_one, if_pos covers] at one
    omega

/-- What the program writes to its own blocks is not part of the list. -/
theorem Good.write {x ptr size : Nat} (good : Good s bs) (live : (a, n) ∈ s.live) (after : a < x)
    (before : x < a + unit * s.size a) :
    Good { s with ptr := update s.ptr x ptr, size := update s.size x size } bs := by
  obtain ⟨free, lives⟩ := good.no_header live after before
  have old := good.listed
  have other : ∀ y ∈ s.base :: bs.map Prod.fst, y ≠ x := fun y member same => free (same ▸ member)
  have blocks : Heap.blocks { s with ptr := update s.ptr x ptr, size := update s.size x size } =
      s.blocks :=
    blocks_congr rfl fun c member => update_of_ne (lives c member) _ _
  exact {
    listed := {
      ring := old.ring.congr fun y member => update_of_ne (other y member) _ _
      freep := old.freep
      zero := (update_of_ne (other _ List.mem_cons_self) _ _).trans old.zero
      sizes := fun c member =>
        (update_of_ne (other _ (List.mem_cons_of_mem _ (List.mem_map_of_mem member))) _ _).trans
          (old.sizes c member)
      real := old.real
      spaced := old.spaced
      above := old.above
      below := old.below }
    tiles := by
      intro x
      rw [blocks]
      exact good.tiles x
    ordered := good.ordered
    low := good.low
    high := good.high
    room := by
      intro c member
      dsimp only
      rw [update_of_ne (lives c member)]
      exact good.room c member }

theorem Intact.step {e : Event} (intact : Intact s) (base : 0 < s.base) (step : s.Step e t) :
    Intact t ∧ t.base = s.base := by
  cases e with
  | malloc nbytes answer =>
    obtain ⟨small, fresh, fuel, ap, result⟩ := step
    obtain ⟨k, ap', t', always, kept, same, _⟩ := intact.malloc base small fresh
    have more := Heap.malloc_more result (Nat.le_max_left fuel k)
    rw [always _ (Nat.le_max_right fuel k)] at more
    cases more
    exact ⟨kept, same⟩
  | free ap =>
    obtain ⟨⟨n, live⟩, fuel, result⟩ := step
    obtain ⟨k, t', always, kept, same⟩ := intact.free live
    have more := Heap.free_more result (Nat.le_max_left fuel k)
    rw [always _ (Nat.le_max_right fuel k)] at more
    cases more
    exact ⟨kept, same⟩
  | write b x ptr size =>
    obtain ⟨⟨n, live⟩, after, before, rfl⟩ := step
    rcases intact with ⟨_, none, _⟩ | ⟨bs, good⟩
    · rw [none] at live
      exact nomatch live
    · exact ⟨.inr ⟨bs, good.write live after before⟩, rfl⟩

theorem intact_run {base : Nat} {ptr size : Nat → Nat} {es : List Event} (low : 0 < base)
    (run : Run Heap.Step (Heap.start base ptr size) es s) : Intact s ∧ s.base = base := by
  refine run.kept (P := fun s => Intact s ∧ s.base = base) ?_ ⟨.inl ⟨rfl, rfl, rfl⟩, rfl⟩
  rintro s e t step ⟨intact, same⟩
  obtain ⟨kept, still⟩ := intact.step (same ▸ low) step
  exact ⟨kept, still.trans same⟩

/-- The heap is in order: `free` are the blocks of the list after the base, from the lowest
to the highest. -/
structure Ordered (s : Heap) (free : List Extent) : Prop where
  unused : s.freep = 0 → free = []
  circular : s.freep ≠ 0 → Path s.ptr s.base (free.map Prod.fst) s.base ∧ s.freep ∈ s.base :: free.map Prod.fst ∧
    s.size s.base = 0
  ascending : (s.base :: free.map Prod.fst).Pairwise (· < ·)
  sizes : ∀ b ∈ free, s.size b.1 = b.2 ∧ 0 < b.2
  apart : free.Pairwise fun b c => stop unit b < c.1
  disjoint : (free ++ s.blocks).Pairwise fun b c => ∀ x, ¬ (has unit x b = true ∧ has unit x c = true)
  covers : ∀ x, (∃ b ∈ free ++ s.blocks, has unit x b = true) ↔ ∃ g ∈ s.regions, has unit x g = true
  room : ∀ b ∈ s.live, b.2 + unit ≤ unit * s.size b.1

theorem Intact.ordered (intact : Intact s) (base : 0 < s.base) : ∃ free, Ordered s free := by
  rcases intact with ⟨first, live, regions⟩ | ⟨bs, good⟩
  · refine ⟨[], fun _ => rfl, fun later => absurd first later, List.pairwise_singleton _ _, nofun, .nil, ?_, ?_, ?_⟩
    · simp [Heap.blocks, live]
    · simp [Heap.blocks, live, regions]
    · simp [live]
  · have total : ∀ x, tally unit (bs ++ s.blocks) x = tally unit s.regions x := fun x =>
      (tally_append bs s.blocks).trans (good.tiles x)
    exact ⟨bs, {
      unused := fun first => absurd first (good.freep_pos base)
      circular := fun _ => ⟨good.listed.ring, good.listed.freep, good.listed.zero⟩
      ascending := good.listed.sorted
      sizes := fun b member => ⟨good.listed.sizes b member, good.listed.real b member⟩
      apart := good.listed.spaced
      disjoint := apart_of_tally fun x => (total x).trans_le (tally_le_one good.ordered)
      covers := fun x => by rw [← tally_pos, ← tally_pos, total]
      room := good.room }⟩

/-- The heap stays in order through every sequence of calls, and the loops of the next call
of `malloc` or `free` end. Nothing is returned only if `sbrk` fails. -/
theorem heap_integrity {base : Nat} {ptr size : Nat → Nat} {es : List Event} (low : 0 < base)
    (run : Run Heap.Step (Heap.start base ptr size) es s) :
    (∃ free, Ordered s free) ∧
    (∀ n answer, n ≤ 2 ^ 30 → (∀ g, answer = some g → s.Fresh n g) →
      ∃ k ap t, (∀ fuel ≥ k, s.malloc fuel n answer = some (ap, t)) ∧ (ap = 0 → answer = none)) ∧
    (∀ ap n, (header ap, n) ∈ s.live → ∃ k t, ∀ fuel ≥ k, s.free fuel ap = some t) := by
  obtain ⟨intact, rfl⟩ := intact_run low run
  refine ⟨intact.ordered low, ?_, ?_⟩
  · intro n answer small fresh
    obtain ⟨k, ap, t, always, _, _, nothing⟩ := intact.malloc low small fresh
    exact ⟨k, ap, t, always, nothing⟩
  · intro ap n live
    obtain ⟨k, t, always, _⟩ := intact.free live
    exact ⟨k, t, always⟩

section Witness

/-- The calls, with a bound on the turns of the loops. -/
def Heap.next (s : Heap) : Event → Option Heap
  | .malloc nbytes answer =>
    if nbytes ≤ 2 ^ 30 ∧ answer.all (fun g => s.Fresh nbytes g) then
      (s.malloc 16 nbytes answer).map Prod.snd
    else none
  | .free ap => if s.live.any (fun b => b.1 = header ap) then s.free 16 ap else none
  | .write b a ptr size =>
    if s.live.any (fun c => c.1 = b) ∧ b < a ∧ a < b + unit * s.size b then
      some { s with ptr := update s.ptr a ptr, size := update s.size a size }
    else none

theorem Heap.next_sound (s : Heap) (e : Event) (t : Heap) (result : s.next e = some t) : s.Step e t := by
  have found : ∀ {b : Nat}, (s.live.any fun c => c.1 = b) = true → ∃ n, (b, n) ∈ s.live := by
    intro b any
    obtain ⟨⟨_, n⟩, member, same⟩ := List.any_eq_true.mp any
    cases of_decide_eq_true same
    exact ⟨n, member⟩
  cases e with
  | malloc nbytes answer =>
    obtain ⟨⟨small, fresh⟩, returned⟩ := Option.ite_none_right_eq_some.mp result
    obtain ⟨⟨ap, u⟩, returns, rfl⟩ := Option.map_eq_some_iff.mp returned
    refine ⟨small, ?_, 16, ap, returns⟩
    rintro g rfl
    exact of_decide_eq_true fresh
  | free ap =>
    obtain ⟨live, returned⟩ := Option.ite_none_right_eq_some.mp result
    exact ⟨found live, 16, returned⟩
  | write b a ptr size =>
    obtain ⟨⟨live, after, before⟩, returned⟩ := Option.ite_none_right_eq_some.mp result
    exact ⟨found live, after, before, (Option.some.inj returned).symm⟩

/-- Two blocks are cut off the end of the first region, the program writes to the second,
and the first is given back: there are then two free blocks with a live one between them. -/
def twoBlocks : List Event := [.malloc 10 (some 4096), .malloc 20 none, .write 36808 36816 0 7, .free 36848]

theorem two_blocks_integrity : ∃ s, Run Heap.Step (Heap.start 1024 (fun _ => 5) fun _ => 5) twoBlocks s ∧
    s.live = [(36808, 20)] ∧ s.freep = 4096 ∧ s.ptr 4096 = 36840 ∧ (∃ free, Ordered s free) ∧
    ∃ k t, ∀ fuel ≥ k, s.free fuel 36816 = some t := by
  obtain ⟨s, run, ends⟩ := Run.of_any Heap.next_sound
    (q := fun s => decide (s.live = [(36808, 20)] ∧ s.freep = 4096 ∧ s.ptr 4096 = 36840))
    (show (twoBlocks.foldlM Heap.next (Heap.start 1024 (fun _ => 5) fun _ => 5)).any _ = true by decide +kernel)
  obtain ⟨live, freep, link⟩ := of_decide_eq_true ends
  obtain ⟨ordered, _, frees⟩ := heap_integrity (by decide) run
  refine ⟨s, run, live, freep, link, ordered, frees 36816 20 ?_⟩
  rw [live]
  exact List.mem_cons_self

end Witness
end Runs
end Xv6.Umalloc
