import Xv6.EntryWrites
import Xv6.ClockTables

/-! The scan of `getpgtable` against the pages it is to list. The loop finds the next page
below the last one, writes its entry and goes on with whatever page table and clock the
write leaves. -/
namespace Xv6
open PteBit Control Fields

/-- The test of the loop: an entry is written for the page. -/
def Proc.lists (p : Proc) (wsetOnly : Int) (v : Nat) : Bool :=
  (p.pgdir.flat v).usable && (wsetOnly = 0 || (inQ p (v * 4096)).isSome)

/-- From the page below `bound` on, the entries of the pages `vs` are written one after the
other, from entry `i` on: each is the next page that is listed once the entry before it has
been written. -/
inductive Listing (entries : Nat) (wsetOnly : Int) : St → Nat → Nat → List Nat → St → Prop where
  | done (s : St) (i bound : Nat) : Listing entries wsetOnly s i bound [] s
  | page {s t u : St} {i bound v : Nat} {vs : List Nat} : v < bound →
      s.proc.lists wsetOnly v = true →
      (∀ w, v < w → w < bound → s.proc.lists wsetOnly w = false) →
      (writeEntry (entries + 8 * i) (v * 4096)).run s = .ok () t →
      Listing entries wsetOnly t (i + 1) v vs u → Listing entries wsetOnly s i bound (v :: vs) u

theorem Listing.widen {entries i bound : Nat} {wsetOnly : Int} {s u : St} {vs : List Nat}
    (listing : Listing entries wsetOnly s i bound vs u)
    (skipped : s.proc.lists wsetOnly bound = false) :
    Listing entries wsetOnly s i (bound + 1) vs u := by
  cases listing with
  | done => exact .done _ _ _
  | page below listed between wrote rest =>
    refine .page (by omega) listed (fun w above below' => ?_) wrote rest
    by_cases last : w = bound
    · rw [last]
      exact skipped
    · exact between w above (by omega)

section Round
variable {entries fuel i v : Nat} {num wsetOnly : Int} {s : St}

theorem vpn_page (low : v < 2 ^ 20) : vpn (v * 4096) = v := by
  simp only [vpn, PGSIZE]
  omega

/-- The page the scan looks at after page `v`. -/
def pageBelow (v : Nat) : Nat := (v + 2 ^ 20 - 1) % 2 ^ 20

theorem next_page (low : v < 2 ^ 20) : uint (v * 4096 + 2 ^ 32 - PGSIZE) = pageBelow v * 4096 := by
  simp only [uint, PGSIZE, pageBelow]
  omega

variable {Q : Nat × List Nat → St → Prop} {E : Stop → St → Prop}

/-- A round that writes no entry. -/
theorem sat_round_skips (low : v < 2 ^ 20) (table : (walkpgdir s.proc.pgdir (v * 4096)).isSome)
    (skipped : s.proc.lists wsetOnly v = false) :
    Sat (getpgtableLoop entries num wsetOnly (fuel + 1) (v * 4096) i) s Q E ↔
      Sat (getpgtableLoop entries num wsetOnly fuel (pageBelow v * 4096) i) s
        (fun r t => Q (r.1, v * 4096 :: r.2) t) E := by
  obtain ⟨pte, walk⟩ := Option.isSome_iff_exists.mp table
  have entry := PgDir.flat_of_walk walk
  rw [vpn_page low] at entry
  rw [Proc.lists, entry] at skipped
  rw [getpgtableLoop, sat_bind, sat_get, sat_bind, sat_derefPte, walk]
  dsimp only
  rw [next_page low]
  by_cases closed : pte.has PTE_U = false ∨ pte.mapped = false
  · rw [if_pos closed, sat_bind]
    rfl
  · have usable : pte.usable = true := by
      rw [not_or, Bool.not_eq_false, Bool.not_eq_false] at closed
      exact Pte.usable_iff.mpr ⟨closed.2, closed.1⟩
    have away : wsetOnly ≠ 0 ∧ inQ s.proc (v * 4096) = none := by
      simpa [usable] using skipped
    rw [if_neg closed, if_pos away, sat_bind]
    rfl

/-- A round that writes an entry. -/
theorem sat_round_lists (low : v < 2 ^ 20) (listed : s.proc.lists wsetOnly v = true) :
    Sat (getpgtableLoop entries num wsetOnly (fuel + 1) (v * 4096) i) s Q E ↔
      Sat (writeEntry (entries + 8 * i) (v * 4096)) s (fun _ t =>
        if v = 0 ∨ ((i + 1 : Nat) : Int) = num then Q (i + 1, [v * 4096]) t
        else Sat (getpgtableLoop entries num wsetOnly fuel (pageBelow v * 4096) (i + 1)) t
          (fun r u => Q (r.1, v * 4096 :: r.2) u) E) E := by
  rw [Proc.lists, Bool.and_eq_true] at listed
  obtain ⟨mapped, user⟩ := Pte.usable_iff.mp listed.1
  have walk : walkpgdir s.proc.pgdir (v * 4096) = some (s.proc.pgdir.flat v) := by
    rw [← vpn_page low] at mapped
    rw [PgDir.walk_of_mapped mapped, vpn_page low]
  rw [getpgtableLoop, sat_bind, sat_get, sat_bind, sat_derefPte, walk]
  dsimp only
  rw [next_page low, if_neg (by simp [mapped, user]), if_neg, sat_bind]
  · have zero : v * 4096 = 0 ↔ v = 0 := by omega
    simp only [zero]
    refine iff_of_eq (congrArg (fun Q => Sat _ s Q E) (funext fun _ => funext fun t => ?_))
    split
    · rfl
    · rw [sat_bind]
      rfl
  · rintro ⟨wset, away⟩
    simpa [wset, away] using listed.2

/-- A round that follows a null pointer. -/
theorem sat_round_missing (missing : walkpgdir s.proc.pgdir (v * 4096) = none) :
    Sat (getpgtableLoop entries num wsetOnly (fuel + 1) (v * 4096) i) s Q E ↔ E .nullPte s := by
  rw [getpgtableLoop, sat_bind, sat_get, sat_bind, sat_derefPte, missing]

end Round

theorem pageBelow_lt (v : Nat) : pageBelow v < 2 ^ 20 := Nat.mod_lt _ (by decide)

section Scan
variable {entries i v : Nat} {num wsetOnly : Int} {s u : St}

/-- A scan that returns, and has looked up no address from `top` on, has listed pages from
its start downwards. It ends at page 0 or when it has `num` entries. -/
theorem loop_lists {top : Nat} (user : top ≤ 2 ^ 19) (fuel : Nat) (low : v < 2 ^ 20) :
    Sat (getpgtableLoop entries num wsetOnly fuel (v * 4096) i) s (fun r u => v * 4096 ∈ r.2 ∧
      ((∀ a ∈ r.2, a < top * 4096) → ∃ vs, Listing entries wsetOnly s i (v + 1) vs u ∧
        r.1 = i + vs.length ∧ (vs.getLast? = some 0 ∨ vs ≠ [] ∧ (r.1 : Int) = num)))
      (fun _ _ => True) := by
  induction fuel generalizing v i s with
  | zero => trivial
  | succ fuel ih =>
    cases walk : walkpgdir s.proc.pgdir (v * 4096) with
    | none => exact (sat_round_missing walk).mpr trivial
    | some pte =>
      cases listed : s.proc.lists wsetOnly v with
      | false =>
        rw [sat_round_skips low (by rw [walk]; rfl) listed]
        refine (ih (pageBelow_lt v)).imp ?_
        rintro r u ⟨member, rest⟩
        refine ⟨List.mem_cons_self, fun bounded => ?_⟩
        have below : pageBelow v * 4096 < top * 4096 := bounded _ (List.mem_cons_of_mem _ member)
        have page : pageBelow v + 1 = v := by
          simp only [pageBelow] at below ⊢
          omega
        obtain ⟨vs, listing, count, stop⟩ := rest fun a seen => bounded a (List.mem_cons_of_mem _ seen)
        rw [page] at listing
        exact ⟨vs, listing.widen listed, count, stop⟩
      | true =>
        rw [sat_round_lists low listed]
        refine (sat_self _ s).mono (fun _ t wrote => ?_) (fun _ _ _ => trivial)
        have none : ∀ w, v < w → w < v + 1 → s.proc.lists wsetOnly w = false := fun w _ _ => by omega
        split
        · rename_i stop
          refine ⟨List.mem_singleton_self _, fun _ => ⟨[v], ?_, rfl, ?_⟩⟩
          · exact .page (by omega) listed none wrote (.done _ _ _)
          · obtain rfl | full := stop
            · exact Or.inl rfl
            · exact Or.inr ⟨List.cons_ne_nil _ _, full⟩
        · refine (ih (pageBelow_lt v)).imp ?_
          rintro r u ⟨member, rest⟩
          refine ⟨List.mem_cons_self, fun bounded => ?_⟩
          have below : pageBelow v * 4096 < top * 4096 := bounded _ (List.mem_cons_of_mem _ member)
          have page : pageBelow v + 1 = v := by
            simp only [pageBelow] at below ⊢
            omega
          obtain ⟨vs, listing, count, stop⟩ :=
            rest fun a seen => bounded a (List.mem_cons_of_mem _ seen)
          rw [page] at listing
          refine ⟨v :: vs, .page (by omega) listed none wrote listing, ?_, ?_⟩
          · rw [count, List.length_cons]
            omega
          · obtain last | ⟨_, full⟩ := stop
            · refine Or.inl ?_
              rw [List.getLast?_cons, last]
              rfl
            · exact Or.inr ⟨List.cons_ne_nil _ _, full⟩

/-- The scan passes over the pages it does not list. -/
theorem loop_passes {fuel w : Nat} (d : Nat) (low : w + d < 2 ^ 20) {P : Nat → St → Prop}
    {E : Stop → St → Prop}
    (tables : ∀ x ≤ w + d, (walkpgdir s.proc.pgdir (x * 4096)).isSome)
    (skipped : ∀ x, w < x → x ≤ w + d → s.proc.lists wsetOnly x = false)
    (rest : Sat (getpgtableLoop entries num wsetOnly fuel (w * 4096) i) s
      (fun r t => P r.1 t ∧ ∀ a ∈ r.2, ∃ x ≤ w, a = x * 4096) E) :
    Sat (getpgtableLoop entries num wsetOnly (fuel + d) ((w + d) * 4096) i) s
      (fun r t => P r.1 t ∧ ∀ a ∈ r.2, ∃ x ≤ w + d, a = x * 4096) E := by
  induction d with
  | zero => exact rest
  | succ d ih =>
    have page : pageBelow (w + (d + 1)) = w + d := by
      simp only [pageBelow]
      omega
    rw [← Nat.add_assoc fuel,
      sat_round_skips low (tables _ le_rfl) (skipped _ (by omega) le_rfl), page]
    refine (ih (by omega) (fun x below => tables x (by omega))
      (fun x above below => skipped x above (by omega))).imp ?_
    rintro r t ⟨done, seen⟩
    refine ⟨done, fun a member => ?_⟩
    obtain rfl | member := List.mem_cons.mp member
    · exact ⟨_, le_rfl, rfl⟩
    · obtain ⟨x, below, is⟩ := seen a member
      exact ⟨x, by omega, is⟩

/-- Pages that can be listed one after the other are listed by a scan that ends at the
last of them. -/
theorem loop_of_listing {vs : List Nat} {bound : Nat} (sound : s.Sound)
    (listing : Listing entries wsetOnly s i bound vs u) (low : bound ≤ 2 ^ 20)
    (fits : entries + 8 * (i + vs.length) ≤ 2 ^ 31)
    (tables : ∀ x < bound, (walkpgdir s.proc.pgdir (x * 4096)).isSome)
    (last : vs.getLast? = some 0 ∨ vs ≠ [] ∧ ((i + vs.length : Nat) : Int) = num)
    (before : ∀ j, 0 < j → j < vs.length → ((i + j : Nat) : Int) ≠ num) :
    ∃ fuel, Sat (getpgtableLoop entries num wsetOnly fuel ((bound - 1) * 4096) i) s
      (fun r t => (r.1 = i + vs.length ∧ t = u) ∧ ∀ a ∈ r.2, ∃ x ≤ bound - 1, a = x * 4096)
      (fun _ _ => False) := by
  induction listing with
  | done =>
    obtain last | ⟨some, _⟩ := last
    · cases last
    · exact absurd rfl some
  | @page s t u i bound v vs below listed between wrote rest ih =>
    rw [List.length_cons] at fits
    obtain ⟨vals, written, _⟩ := (writeEntry_written sound (by omega) (v * 4096)).of_ok wrote
    have here : ∃ fuel, Sat (getpgtableLoop entries num wsetOnly fuel (v * 4096) i) s
        (fun r t => (r.1 = i + (v :: vs).length ∧ t = u) ∧ ∀ a ∈ r.2, ∃ x ≤ v, a = x * 4096)
        (fun _ _ => False) := by
      by_cases stop : v = 0 ∨ ((i + 1 : Nat) : Int) = num
      · have none : vs = [] := by
          cases rest with
          | done => rfl
          | page lower =>
            obtain zero | full := stop
            · omega
            · exact absurd full (before 1 (by omega) (by simp))
        subst none
        cases rest
        refine ⟨1, (sat_round_lists (by omega) listed).mpr ?_⟩
        unfold Sat
        rw [wrote]
        dsimp only
        rw [if_pos stop]
        refine ⟨⟨rfl, rfl⟩, fun a member => ⟨v, le_rfl, List.mem_singleton.mp member⟩⟩
      · rw [not_or] at stop
        have some : vs ≠ [] := by
          rintro rfl
          obtain last | ⟨_, full⟩ := last
          · exact stop.1 (Option.some.inj last)
          · exact stop.2 full
        have last' : vs.getLast? = Option.some 0 ∨
            vs ≠ [] ∧ ((i + 1 + vs.length : Nat) : Int) = num := by
          obtain last | ⟨_, full⟩ := last
          · refine Or.inl ?_
            rwa [List.getLast?_cons_of_ne_nil some] at last
          · refine Or.inr ⟨some, ?_⟩
            rw [← full, List.length_cons]
            omega
        have tables' : ∀ x < v, (walkpgdir t.proc.pgdir (x * 4096)).isSome := fun x small =>
          (written.touches.dir.widens fun _ => True).walk (tables x (by omega))
        have before' : ∀ j, 0 < j → j < vs.length → ((i + 1 + j : Nat) : Int) ≠ num := by
          intro j positive small
          have apart := before (j + 1) (by omega) (by rw [List.length_cons]; omega)
          rwa [show i + 1 + j = i + (j + 1) by omega]
        obtain ⟨fuel, rest⟩ := ih (written.touches.sound sound) (by omega) (by omega) tables' last'
          before'
        have page : pageBelow v = v - 1 := by
          simp only [pageBelow]
          omega
        refine ⟨fuel + 1, (sat_round_lists (by omega) listed).mpr ?_⟩
        unfold Sat
        rw [wrote]
        dsimp only
        rw [if_neg (not_or.mpr stop), page]
        refine rest.imp ?_
        rintro r t ⟨⟨count, is⟩, seen⟩
        refine ⟨⟨by rw [count, List.length_cons]; omega, is⟩, fun a member => ?_⟩
        obtain here | member := List.mem_cons.mp member
        · exact ⟨v, le_rfl, here⟩
        · obtain ⟨x, small, is⟩ := seen a member
          exact ⟨x, by omega, is⟩
    obtain ⟨fuel, here⟩ := here
    obtain ⟨d, is⟩ : ∃ d, bound - 1 = v + d := ⟨bound - 1 - v, by omega⟩
    rw [is]
    exact ⟨_, loop_passes (P := fun n t => n = i + (v :: vs).length ∧ t = u) d (by omega)
      (fun x small => tables x (by omega)) (fun x above small => between x above (by omega)) here⟩

end Scan

section Contents
variable {entries i bound : Nat} {wsetOnly : Int} {s t u : St} {vs : List Nat}

/-- The entry names page `v`. -/
def St.names (s : St) (entry v : Nat) : Prop :=
  s.member entry .pdx = pdx (v * 4096) ∧ s.member entry .ptx = ptx (v * 4096)

theorem names_inj {entry v w : Nat} (left : s.names entry v) (right : s.names entry w)
    (low : v < 2 ^ 20) (low' : w < 2 ^ 20) : v = w := by
  have table := left.1.symm.trans right.1
  have page := left.2.symm.trans right.2
  simp only [pdx, ptx] at table page
  omega

theorem member_congr {entry : Nat} {m : PtEntry}
    (same : ∀ k < 8, t.peek (entry + k) = s.peek (entry + k)) : t.member entry m = s.member entry m := by
  have wide := m.word_le
  have byte : ∀ k < 4, t.peek (entry + 4 * m.word + k) = s.peek (entry + 4 * m.word + k) := by
    intro k below
    rw [Nat.add_assoc]
    exact same _ (by omega)
  have zero := byte 0 (by omega)
  rw [Nat.add_zero] at zero
  rw [St.member, St.member, St.word, St.word, zero, byte 1 (by omega), byte 2 (by omega),
    byte 3 (by omega)]

/-- The pages that have been listed are named by their entries. -/
theorem Listing.names (sound : s.Sound) (listing : Listing entries wsetOnly s i bound vs u)
    (fits : entries + 8 * (i + vs.length) ≤ 2 ^ 31) :
    (∀ a < entries + 8 * i, s.backs a → u.peek a = s.peek a) ∧
    ∀ j (inside : j < vs.length), u.names (entries + 8 * (i + j)) (vs.get ⟨j, inside⟩) := by
  induction listing with
  | done => exact ⟨fun _ _ _ => rfl, fun j inside => absurd inside (Nat.not_lt_zero j)⟩
  | @page s t u i bound v vs below listed between wrote rest ih =>
    rw [List.length_cons] at fits
    obtain ⟨vals, written, hd, ht, _, backed⟩ :=
      (writeEntry_written sound (by omega) (v * 4096)).of_ok wrote
    have same : ∀ a, s.backs a → t.backs a := fun a backs => by
      rwa [St.backs, written.touches.dir.mapped]
    obtain ⟨early, names⟩ := ih (written.touches.sound sound) (by omega)
    refine ⟨fun a small backs => ?_, fun j inside => ?_⟩
    · rw [early a (by omega) (same a backs)]
      exact written.outside a (by omega) (by omega) backs
    · cases j with
      | zero =>
        have kept : ∀ m, u.member (entries + 8 * i) m = t.member (entries + 8 * i) m := fun m =>
          member_congr fun k below => early _ (by omega) (same _ (backed k below))
        have word : ∀ m : PtEntry, ∀ k < 4, s.backs (entries + 8 * i + 4 * m.word + k) := by
          intro m k below
          have wide := m.word_le
          rw [Nat.add_assoc]
          exact backed _ (by omega)
        constructor
        · rw [Nat.add_zero, kept, written.member _ (word _), hd]
          exact Nat.mod_eq_of_lt (pdx_lt _)
        · rw [Nat.add_zero, kept, written.member _ (word _), ht]
          exact Nat.mod_eq_of_lt (Nat.mod_lt _ (by decide))
      | succ j =>
        have later := names j (by rw [List.length_cons] at inside; omega)
        rw [show i + 1 + j = i + (j + 1) by omega] at later
        exact later

end Contents

/-- The pages below `n` with a property, from the highest down. -/
def pagesDown (f : Nat → Bool) (n : Nat) : List Nat := ((List.range n).filter f).reverse

section Pages
variable {f g : Nat → Bool} {n v : Nat}

theorem pagesDown_succ : pagesDown f (n + 1) =
    if f n = true then n :: pagesDown f n else pagesDown f n := by
  rw [pagesDown, List.range_succ, List.filter_append, List.reverse_append, pagesDown]
  by_cases listed : f n = true
  · rw [if_pos listed, List.filter_cons_of_pos listed]
    rfl
  · rw [if_neg listed, List.filter_cons_of_neg listed]
    rfl

theorem mem_pagesDown : v ∈ pagesDown f n ↔ v < n ∧ f v = true := by
  rw [pagesDown, List.mem_reverse, List.mem_filter, List.mem_range]

theorem pagesDown_congr (same : ∀ v < n, f v = g v) : pagesDown f n = pagesDown g n := by
  rw [pagesDown, pagesDown, List.filter_congr fun v member => same v (List.mem_range.mp member)]

/-- Page 0 comes last. -/
theorem pagesDown_last (member : 0 ∈ pagesDown f n) : (pagesDown f n).getLast? = some 0 := by
  induction n with
  | zero => cases member
  | succ n ih =>
    rw [pagesDown_succ] at member ⊢
    split at member
    · rename_i listed
      rw [if_pos listed]
      by_cases first : n = 0
      · subst first
        rfl
      · have rest : 0 ∈ pagesDown f n := (List.mem_cons.mp member).resolve_left (Ne.symm first)
        rw [List.getLast?_cons_of_ne_nil (List.ne_nil_of_mem rest)]
        exact ih rest
    · rename_i skipped
      rw [if_neg skipped]
      exact ih member

end Pages

section Present
variable {entries i bound : Nat} {wsetOnly : Int} {s t : St}

theorem Marks.lists {A : Nat → Prop} (marks : Marks s t A) (v : Nat) :
    t.proc.lists wsetOnly v = s.proc.lists wsetOnly v := by
  have search : inQ t.proc (v * 4096) = inQ s.proc (v * 4096) := by
    rw [inQ, inQ, marks.clock, marks.head]
  rw [Proc.lists, Proc.lists, search, Pte.usable, Pte.usable, Pte.mapped, Pte.mapped,
    marks.has v (by decide), marks.has v (by decide), marks.has v (by decide)]

/-- The marks of the writes to one entry and of those to the entries after it. -/
theorem Marks.pteAfter {a n v : Nat} (marks : Marks s t (pagesOf a 8)) :
    t.pteAfter (a + 8) n v = s.pteAfter a (8 + n) v := by
  have pages : pagesOf a (8 + n) v ↔ pagesOf a 8 v ∨ pagesOf (a + 8) n v := by
    constructor
    · rintro ⟨k, below, page⟩
      by_cases low : k < 8
      · exact Or.inl ⟨k, low, page⟩
      · exact Or.inr ⟨k - 8, by omega, by rw [page]; congr 1; omega⟩
    · rintro (⟨k, below, page⟩ | ⟨k, below, page⟩)
      · exact ⟨k, by omega, page⟩
      · exact ⟨8 + k, by omega, by rw [page, Nat.add_assoc]⟩
  rw [St.pteAfter, St.pteAfter]
  by_cases later : pagesOf (a + 8) n v
  · rw [if_pos later, if_pos (pages.mpr (Or.inr later))]
    by_cases first : pagesOf a 8 v
    · rw [marks.marked v first, Pte.set_of_has (by simp)]
    · rw [marks.kept v first]
  · rw [if_neg later]
    by_cases first : pagesOf a 8 v
    · rw [if_pos (pages.mpr (Or.inl first)), marks.marked v first]
    · rw [if_neg (fun either => (pages.mp either).elim first later), marks.kept v first]

/-- The entries of the pages `vs` have been written from entry `i` on, to a buffer that is
present. -/
structure Filled (entries : Nat) (s u : St) (i : Nat) (vs : List Nat) : Prop where
  touches : Touches s u
  outside : ∀ a < 2 ^ 31, a < entries + 8 * i ∨ entries + 8 * (i + vs.length) ≤ a → s.backs a →
    u.peek a = s.peek a
  member : ∀ j (inside : j < vs.length) (m : PtEntry), u.member (entries + 8 * (i + j)) m =
    (entryValues (vs.get ⟨j, inside⟩ * 4096)
      (s.pteAfter (entries + 8 * i) (8 * (j + 1)) (vs.get ⟨j, inside⟩)) m).elim
      (s.member (entries + 8 * (i + j)) m) fun x => x % 2 ^ m.field.width

theorem Filled.nil (entries : Nat) (s : St) (i : Nat) : Filled entries s s i [] :=
  ⟨(Recrypt.refl s).toTouches, fun _ _ _ _ => rfl, fun j inside => absurd inside (Nat.not_lt_zero j)⟩

theorem Filled.cons {v : Nat} {vs : List Nat} {u : St}
    (present : ∀ b < 8 * (vs.length + 1), s.holds (entries + 8 * i + b))
    (fits : entries + 8 * (i + (vs.length + 1)) ≤ 2 ^ 31) (low : v < 2 ^ 20)
    (written : Written s t (entries + 8 * i)
      (entryValues (v * 4096) (s.pteAfter (entries + 8 * i) 8 (vpn (v * 4096)))))
    (marks : Marks s t (pagesOf (entries + 8 * i) 8)) (rest : Filled entries t u (i + 1) vs) :
    Filled entries s u i (v :: vs) := by
  have same : ∀ a, s.backs a → t.backs a := fun a backs => by
    rwa [St.backs, written.touches.dir.mapped]
  have backed : ∀ b < 8 * (vs.length + 1), s.backs (entries + 8 * i + b) := fun b below =>
    Pte.mapped_of_present (present b below)
  refine ⟨written.touches.trans rest.touches, fun a below apart backs => ?_, fun j inside m => ?_⟩
  · rw [List.length_cons] at apart
    rw [rest.outside a below (by omega) (same a backs)]
    exact written.outside a below (by omega) backs
  · rw [List.length_cons] at inside
    cases j with
    | zero =>
      have kept : u.member (entries + 8 * i) m = t.member (entries + 8 * i) m :=
        member_congr fun k small => rest.outside _ (by omega) (by omega) (same _ (backed k (by omega)))
      have word : ∀ k < 4, s.backs (entries + 8 * i + 4 * m.word + k) := by
        intro k small
        have wide := m.word_le
        rw [Nat.add_assoc]
        exact backed _ (by omega)
      rw [Nat.add_zero, kept, written.member m word, vpn_page low]
      rfl
    | succ j =>
      have old : t.member (entries + 8 * (i + (j + 1))) m = s.member (entries + 8 * (i + (j + 1))) m := by
        refine member_congr fun k small => written.outside _ (by omega) (by omega) ?_
        have place := backed (8 * (j + 1) + k) (by omega)
        rwa [show entries + 8 * i + (8 * (j + 1) + k) = entries + 8 * (i + (j + 1)) + k by omega]
          at place
      have later := rest.member j (by omega) m
      rw [show i + 1 + j = i + (j + 1) by omega, old,
        show entries + 8 * (i + 1) = entries + 8 * i + 8 by omega, marks.pteAfter,
        show 8 + 8 * (j + 1) = 8 * (j + 1 + 1) by omega] at later
      exact later

/-- A buffer that is present takes the entries of all the pages. -/
theorem listing_present (sound : s.Sound) (low : bound ≤ 2 ^ 20) (n : Nat)
    (fits : entries + 8 * (i + ((pagesDown (s.proc.lists wsetOnly) bound).take n).length) ≤ 2 ^ 31)
    (present : ∀ b < 8 * ((pagesDown (s.proc.lists wsetOnly) bound).take n).length,
      s.holds (entries + 8 * i + b)) :
    ∃ u, Listing entries wsetOnly s i bound ((pagesDown (s.proc.lists wsetOnly) bound).take n) u ∧
      Filled entries s u i ((pagesDown (s.proc.lists wsetOnly) bound).take n) := by
  induction bound generalizing s i n with
  | zero =>
    have none : (pagesDown (s.proc.lists wsetOnly) 0).take n = [] := List.take_nil
    rw [none]
    exact ⟨s, .done _ _ _, .nil _ _ _⟩
  | succ bound ih =>
    cases listed : s.proc.lists wsetOnly bound with
    | false =>
      rw [pagesDown_succ, listed, if_neg (by decide)] at fits present ⊢
      obtain ⟨u, listing, filled⟩ := ih sound (by omega) n fits present
      exact ⟨u, listing.widen listed, filled⟩
    | true =>
      rw [pagesDown_succ, listed, if_pos rfl] at fits present ⊢
      cases n with
      | zero => exact ⟨s, .done _ _ _, .nil _ _ _⟩
      | succ n =>
        rw [List.take_succ_cons, List.length_cons] at fits present
        rw [List.take_succ_cons]
        obtain ⟨mapped, _⟩ := Pte.usable_iff.mp (Bool.and_eq_true _ _ ▸ listed).1
        rw [← vpn_page (v := bound) (by omega)] at mapped
        obtain ⟨_, t, wrote, written, marks⟩ := (writeEntry_present (entries + 8 * i)
          (bound * 4096) sound (by omega) (fun k below => present k (by omega))
          (by rw [PgDir.walk_of_mapped mapped]; rfl)).returns
        have same : pagesDown (t.proc.lists wsetOnly) bound = pagesDown (s.proc.lists wsetOnly) bound :=
          pagesDown_congr fun v _ => marks.lists v
        have present' : ∀ b < 8 * ((pagesDown (t.proc.lists wsetOnly) bound).take n).length,
            t.holds (entries + 8 * (i + 1) + b) := by
          intro b below
          rw [same] at below
          rw [St.holds, marks.has _ (by decide),
            show entries + 8 * (i + 1) + b = entries + 8 * i + (8 + b) by omega]
          exact present _ (by omega)
        obtain ⟨u, listing, filled⟩ := ih (written.touches.sound sound) (by omega) n
          (by rw [same]; omega) present'
        rw [same] at listing filled
        refine ⟨u, .page (by omega) listed (fun w above below => by omega) wrote listing, ?_⟩
        exact filled.cons present fits (by omega) written marks

end Present

section Result
variable {entries : Nat} {num : Int} {s : St}

/-- The pages below the size. -/
abbrev Proc.pageCount (p : Proc) : Nat := pgRoundUp p.sz / PGSIZE

theorem pageCount_lt {p : Proc} {v : Nat} (size : p.sz ≤ KERNBASE) :
    v < p.pageCount ↔ v * 4096 < p.sz := by
  rw [Proc.pageCount, ← below_pgRoundUp size]
  simp only [pgRoundUp, PGSIZE]
  omega

theorem pageCount_le {p : Proc} (size : p.sz ≤ KERNBASE) : p.pageCount ≤ 2 ^ 19 := by
  simp only [Proc.pageCount, pgRoundUp, PGSIZE, uint, KERNBASE] at *
  omega

theorem scanStart_page {sz : Nat} (size : sz ≤ KERNBASE) :
    scanStart sz = pageBelow (pgRoundUp sz / PGSIZE) * 4096 := by
  simp only [scanStart, pageBelow, pgRoundUp, pgRoundDown, PGSIZE, uint, KERNBASE] at *
  split <;> omega

theorem sat_getpgtable {fuel : Nat} {wsetOnly : Int} (flag : wsetOnly = 0 ∨ wsetOnly = 1)
    (size : s.proc.sz ≤ KERNBASE) {Q : Int × List Nat → St → Prop} {E : Stop → St → Prop} :
    Sat (getpgtable fuel entries num wsetOnly) s Q E ↔
      Sat (getpgtableLoop entries num wsetOnly fuel (pageBelow s.proc.pageCount * 4096) 0) s
        (fun r t => Q (r.1, r.2) t) E := by
  rw [getpgtable, if_neg (by omega), sat_bind, sat_get, scanStart_page size, sat_bind]
  rfl

theorem getpgtableLoop_counts {wsetOnly : Int} (fuel uva i : Nat) :
    Sat (getpgtableLoop entries num wsetOnly fuel uva i) s (fun r _ => i < r.1)
      (fun _ _ => True) := by
  induction fuel generalizing uva i s with
  | zero => trivial
  | succ fuel ih =>
    rw [getpgtableLoop, sat_bind, sat_get]
    refine .seq (sat_self _ s) (fun pte t _ => ?_) (fun _ _ _ => trivial)
    dsimp only
    split
    · rw [sat_bind]
      exact ih _ i
    · split
      · rw [sat_bind]
        exact ih _ i
      · refine .seq (sat_self _ t) (fun _ u _ => ?_) (fun _ _ _ => trivial)
        split
        · exact Nat.lt_succ_self i
        · exact .bind (ih _ (i + 1)) fun r v more => show i < r.1 by omega

/-- A scan that writes at most `n` entries to a buffer that is present leaves their member
`user` alone. It ends with `num` entries or at page 0. -/
theorem loop_bounded {wsetOnly : Int} {n : Nat} (fuel : Nat) {v i : Nat} (low : v < 2 ^ 20)
    (sound : s.Sound) (fits : ∀ b < 8 * n, entries + b < 2 ^ 31)
    (present : ∀ b < 8 * n, s.holds (entries + b)) :
    Sat (getpgtableLoop entries num wsetOnly fuel (v * 4096) i) s (fun r t => i < r.1 ∧ (r.1 ≤ n →
      ((r.1 : Int) = num ∨ s.proc.lists wsetOnly 0 = true) ∧
      ∀ j < n, t.member (entries + 8 * j) .user = s.member (entries + 8 * j) .user))
      (fun _ _ => True) := by
  induction fuel generalizing v i s with
  | zero => trivial
  | succ fuel ih =>
    cases walk : walkpgdir s.proc.pgdir (v * 4096) with
    | none => exact (sat_round_missing walk).mpr trivial
    | some pte =>
      cases listed : s.proc.lists wsetOnly v with
      | false =>
        rw [sat_round_skips low (by rw [walk]; rfl) listed]
        exact ih (pageBelow_lt v) sound present
      | true =>
        rw [sat_round_lists low listed]
        by_cases room : i < n
        · have top := fits (8 * i + 7) (by omega)
          have wrote := writeEntry_present (entries + 8 * i) (v * 4096) sound (by omega)
            (fun k below => by rw [Nat.add_assoc]; exact present _ (by omega)) (by rw [walk]; rfl)
          refine wrote.mono ?_ (fun _ _ stop => stop.elim)
          rintro _ t ⟨written, marks⟩
          have kept : ∀ j < n, t.member (entries + 8 * j) .user = s.member (entries + 8 * j) .user := by
            intro j below
            have backed : ∀ k < 8, s.backs (entries + 8 * j + k) := by
              intro k small
              rw [Nat.add_assoc]
              exact Pte.mapped_of_present (present _ (by omega))
            by_cases here : j = i
            · subst here
              refine written.member .user fun k small => ?_
              rw [Nat.add_assoc]
              exact backed _ (by simp only [PtEntry.word]; omega)
            · refine member_congr fun k small => written.outside _ ?_ (by omega) (backed k small)
              rw [Nat.add_assoc]
              exact fits _ (by omega)
          split
          · rename_i stop
            refine ⟨by omega, fun _ => ⟨?_, kept⟩⟩
            obtain rfl | full := stop
            · exact Or.inr listed
            · exact Or.inl full
          · refine (ih (pageBelow_lt v) (written.touches.sound sound) fun b below => ?_).imp ?_
            · rw [St.holds, marks.has _ (by decide)]
              exact present b below
            · rintro r u ⟨more, rest⟩
              refine ⟨by omega, fun few => ?_⟩
              obtain ⟨ends, same⟩ := rest few
              rw [marks.lists] at ends
              exact ⟨ends, fun j below => (same j below).trans (kept j below)⟩
        · refine (sat_self _ s).mono (fun _ t _ => ?_) (fun _ _ _ => trivial)
          split
          · exact ⟨Nat.lt_succ_self i, fun few => by omega⟩
          · exact (getpgtableLoop_counts fuel _ (i + 1)).imp
              (fun r u more => ⟨by omega, fun few => by omega⟩)

/-- `getpgtable` returns when the pages it lists end with page 0 or are `num`, and it has
then looked up addresses below the size only. -/
theorem getpgtable_of_listing {wsetOnly : Int} (flag : wsetOnly = 0 ∨ wsetOnly = 1)
    (sound : s.Sound) {vs : List Nat} {u : St}
    (tables : ∀ x < s.proc.pageCount, (walkpgdir s.proc.pgdir (x * 4096)).isSome)
    (listing : Listing entries wsetOnly s 0 s.proc.pageCount vs u)
    (fits : entries + 8 * vs.length ≤ 2 ^ 31)
    (last : vs.getLast? = some 0 ∨ vs ≠ [] ∧ (vs.length : Int) = num)
    (most : (vs.length : Int) ≤ num) :
    ∃ fuel seen, (getpgtable fuel entries num wsetOnly).run s = .ok ((vs.length : Int), seen) u ∧
      ∀ a ∈ seen, a < s.proc.sz := by
  have size : s.proc.sz ≤ KERNBASE := sound.size
  have few := pageCount_le (p := s.proc) size
  have some : 0 < s.proc.pageCount := by
    cases listing with
    | done =>
      obtain last | ⟨some, _⟩ := last
      · cases last
      · exact absurd rfl some
    | page below => omega
  have start : pageBelow s.proc.pageCount = s.proc.pageCount - 1 := by
    generalize s.proc.pageCount = n at some few
    simp only [pageBelow]
    omega
  have last : vs.getLast? = Option.some 0 ∨ vs ≠ [] ∧ ((0 + vs.length : Nat) : Int) = num := by
    rwa [Nat.zero_add]
  obtain ⟨fuel, scan⟩ := loop_of_listing sound listing (by omega) (by rwa [Nat.zero_add]) tables
    last (fun j _ below => by omega)
  rw [← start] at scan
  have returns : Sat (getpgtable fuel entries num wsetOnly) s (fun r t =>
      r.1 = (vs.length : Int) ∧ t = u ∧ ∀ a ∈ r.2, a < s.proc.sz) (fun _ _ => False) := by
    refine (sat_getpgtable flag size).mpr (scan.imp ?_)
    rintro r t ⟨⟨count, is⟩, seen⟩
    refine ⟨by rw [count, Nat.zero_add], is, fun a member => ?_⟩
    obtain ⟨x, below, rfl⟩ := seen a member
    exact (pageCount_lt size).mp (by omega)
  obtain ⟨⟨r, seen⟩, t, run, rfl, rfl, below⟩ := returns.returns
  exact ⟨fuel, seen, run, below⟩

end Result

/-- The values of the members, as the entry `pte` of the page at `uva` has them. -/
def pageMembers (uva : Nat) (pte : Pte) : PtEntry → Nat
  | .pdx => pdx uva
  | .ptx => ptx uva
  | .ppage => pte.ppn
  | .present => (pte.has PTE_P).toNat
  | .writable => (pte.has PTE_W).toNat
  | .user => (pte.has PTE_U).toNat
  | .encrypted => (pte.has PTE_E).toNat
  | .ref => (pte.has PTE_A).toNat

/-- The user pages of a process below the size, from the highest down. -/
def Proc.userPages (p : Proc) : List Nat := pagesDown (fun v => (p.pgdir.flat v).usable) p.pageCount

/-- `getpgtable(entries, num, 0)` returns the number of user pages, or `num` if there are more,
and each entry shows the page-table entry of its page, as it is when that entry is written. -/
def FaithfulTable (s : St) (entries : Nat) (num : Int) : Prop :=
  ∃ fuel seen t, (getpgtable fuel entries num 0).run s =
      .ok (min num (s.proc.userPages.length : Int), seen) t ∧
    ∀ j (inside : j < s.proc.userPages.length), (j : Int) < num → ∀ m : PtEntry,
      t.member (entries + 8 * j) m = pageMembers (s.proc.userPages.get ⟨j, inside⟩ * 4096)
        (s.pteAfter entries (8 * (j + 1)) (s.proc.userPages.get ⟨j, inside⟩)) m

section Faithful
variable {entries : Nat} {num : Int} {s : St}

theorem userPages_eq (p : Proc) : p.userPages = pagesDown (p.lists 0) p.pageCount :=
  pagesDown_congr fun v _ => by simp [Proc.lists]

theorem pteAfter_has (a n v : Nat) {f : PteBit} (other : f ≠ PTE_A) :
    (s.pteAfter a n v).has f = (s.proc.pgdir.flat v).has f := by
  rw [St.pteAfter]
  split
  · simp [Ne.symm other]
  · rfl

theorem pteAfter_ppn (a n v : Nat) : (s.pteAfter a n v).ppn = (s.proc.pgdir.flat v).ppn := by
  rw [St.pteAfter]
  split
  · rw [Pte.set_ppn]
  · rfl

/-- The values that are written are those of the page table, cut to nothing. -/
theorem entryValues_member {uva : Nat} {pte : Pte} (small : pte.ppn < 2 ^ 20) {m : PtEntry}
    (set : m ≠ .user) (old : Nat) :
    (entryValues uva pte m).elim old (fun x => x % 2 ^ m.field.width) = pageMembers uva pte m := by
  have bit : ∀ b : Bool, b.toNat % 2 ^ 1 = b.toNat := by decide
  cases m with
  | pdx => exact Nat.mod_eq_of_lt (pdx_lt uva)
  | ptx => exact Nat.mod_eq_of_lt (Nat.mod_lt _ (by decide))
  | ppage => exact Nat.mod_eq_of_lt small
  | user => exact absurd rfl set
  | _ => exact bit _

theorem faithful_iff (sound : s.Sound)
    (range : ∀ v < 2 ^ 19, (s.proc.pgdir.flat v).mapped = true → (s.proc.pgdir.flat v).ppn < 2 ^ 20)
    (tables : ∀ x < s.proc.pageCount, (walkpgdir s.proc.pgdir (x * 4096)).isSome)
    (positive : 0 < num)
    (low : ∀ b < 8 * min num.toNat s.proc.userPages.length, entries + b < 2 ^ 31)
    (present : ∀ b < 8 * min num.toNat s.proc.userPages.length, s.holds (entries + b)) :
    FaithfulTable s entries num ↔
      (num ≤ s.proc.userPages.length ∨ 0 ∈ s.proc.userPages) ∧
      ∀ j < min num.toNat s.proc.userPages.length, s.member (entries + 8 * j) .user = 1 := by
  have size : s.proc.sz ≤ KERNBASE := sound.size
  have count := pageCount_le (p := s.proc) size
  have usable : ∀ {v}, v ∈ s.proc.userPages → (s.proc.pgdir.flat v).usable = true := fun member =>
    (mem_pagesDown.mp member).2
  constructor
  · rintro ⟨fuel, seen, t, run, faithful⟩
    have bounded : Sat (getpgtableLoop entries num 0 fuel (pageBelow s.proc.pageCount * 4096) 0) s
        _ _ := loop_bounded fuel (pageBelow_lt s.proc.pageCount) sound low present
    have scanned : Sat (getpgtable fuel entries num 0) s (fun r t => ∀ c : Nat, r.1 = c → 0 < c ∧
        (c ≤ min num.toNat s.proc.userPages.length →
          ((c : Int) = num ∨ s.proc.lists 0 0 = true) ∧
          ∀ j < min num.toNat s.proc.userPages.length,
            t.member (entries + 8 * j) .user = s.member (entries + 8 * j) .user))
        (fun _ _ => True) := by
      refine (sat_getpgtable (Or.inl rfl) size).mpr (bounded.imp ?_)
      rintro r t ⟨some, rest⟩ c is
      obtain rfl : r.1 = c := by simpa using is
      exact ⟨some, rest⟩
    obtain ⟨some, rest⟩ := scanned.of_ok run (min num.toNat s.proc.userPages.length)
      (by dsimp only; omega)
    obtain ⟨ends, kept⟩ := rest le_rfl
    refine ⟨?_, fun j inside => ?_⟩
    · obtain full | zero := ends
      · exact Or.inl (by omega)
      · refine Or.inr (mem_pagesDown.mpr ⟨?_, ?_⟩)
        · by_contra none
          have empty : s.proc.userPages = [] := by
            rw [Proc.userPages, show s.proc.pageCount = 0 by omega]
            rfl
          rw [empty, List.length_nil] at some
          omega
        · simpa [Proc.lists] using zero
    · have shown := faithful j (by omega) (by omega) .user
      rw [kept j inside] at shown
      rw [shown, pageMembers, pteAfter_has _ _ _ (by decide),
        (Pte.usable_iff.mp (usable (List.get_mem _ _))).2]
      rfl
  · rintro ⟨ends, users⟩
    obtain ⟨vs, is⟩ : ∃ vs, vs = s.proc.userPages.take num.toNat := ⟨_, rfl⟩
    have length : vs.length = min num.toNat s.proc.userPages.length := by
      rw [is, List.length_take]
    have some : vs ≠ [] := by
      intro none
      rw [none, List.length_nil] at length
      obtain enough | zero := ends
      · omega
      · have := List.length_pos_of_mem zero
        omega
    have positive' := List.length_pos_iff.mpr some
    have top := low (8 * vs.length - 1) (by omega)
    have listed : _ → _ → ∃ u, Listing entries 0 s 0 s.proc.pageCount _ u ∧ Filled entries s u 0 _ :=
      listing_present sound (by omega) num.toNat
    rw [← userPages_eq, ← is, Nat.zero_add, Nat.mul_zero, Nat.add_zero] at listed
    obtain ⟨u, listing, filled⟩ := listed (by omega) (by rwa [length])
    have last : vs.getLast? = Option.some 0 ∨ vs ≠ [] ∧ (vs.length : Int) = num := by
      by_cases enough : num ≤ s.proc.userPages.length
      · exact Or.inr ⟨some, by omega⟩
      · refine Or.inl ?_
        rw [is, List.take_of_length_le (by omega)]
        exact pagesDown_last (ends.resolve_left enough)
    obtain ⟨fuel, seen, run, _⟩ := getpgtable_of_listing (Or.inl rfl) sound tables listing
      (by omega) last (by omega)
    refine ⟨fuel, seen, u, ?_, fun j inside few m => ?_⟩
    · rw [run, length]
      congr 2
      omega
    · have here : j < vs.length := by omega
      have page : vs.get ⟨j, here⟩ = s.proc.userPages.get ⟨j, inside⟩ := by
        simp only [is, List.get_eq_getElem, List.getElem_take]
      have value := filled.member j here m
      rw [page, Nat.zero_add, Nat.mul_zero, Nat.add_zero] at value
      have open_ := Pte.usable_iff.mp (usable (List.get_mem s.proc.userPages ⟨j, inside⟩))
      have below := (mem_pagesDown.mp (List.get_mem s.proc.userPages ⟨j, inside⟩)).1
      rw [value]
      by_cases user : m = .user
      · rw [user, pageMembers, pteAfter_has _ _ _ (by decide), open_.2]
        exact users j (by omega)
      · refine entryValues_member ?_ user _
        rw [pteAfter_ppn]
        exact range _ (by omega) open_.1

theorem Sys.Owned.page_range {pool lost : Multiset Nat} {sys : Sys} {i v : Nat}
    (owned : sys.Owned pool lost) (hi : i < NPROC) (used : (sys.slots i).state ≠ .UNUSED)
    (half : v < 2 ^ 19) (mapped : ((sys.slots i).proc.pgdir.flat v).mapped = true) :
    ((sys.slots i).proc.pgdir.flat v).ppn < 2 ^ 20 := by
  have pooled : ((sys.slots i).proc.pgdir.flat v).ppn ∈ pool := by
    rw [← owned.account]
    refine Multiset.mem_of_le ?_ (PgDir.mem_frames half mapped)
    exact le_trans (Sys.Owned.dir_le i hi used) (le_trans (Multiset.le_add_left _ _)
      (le_trans (Multiset.le_add_right _ _) (Multiset.le_add_right _ _)))
  have low := owned.range _ pooled
  simp only [PHYSTOP, PGSIZE] at low
  omega

theorem tables_of_mapped (size : s.proc.sz ≤ KERNBASE)
    (mapped : ∀ v, v * 4096 < pgRoundUp s.proc.sz → (s.proc.pgdir.flat v).mapped = true) :
    ∀ x < s.proc.pageCount, (walkpgdir s.proc.pgdir (x * 4096)).isSome := by
  intro x below
  have count := pageCount_le (p := s.proc) size
  have there := mapped x (by
    simp only [Proc.pageCount, PGSIZE] at below
    omega)
  rw [← vpn_page (v := x) (by omega)] at there
  rw [PgDir.walk_of_mapped there]
  rfl

/-- `getpgtable` shows the page table faithfully exactly when it finds `num` pages or page 0
is one it lists, and the buffer says of every page in it that it belongs to the user. -/
theorem getpgtable_faithful_iff {pool lost : Multiset Nat} {sys : Sys} {i : Nat}
    (owned : sys.Owned pool lost) (hi : i < NPROC) (used : (sys.slots i).state ≠ .UNUSED)
    (mapped : ∀ v, v * 4096 < pgRoundUp (sys.slots i).proc.sz →
      ((sys.slots i).proc.pgdir.flat v).mapped = true) (positive : 0 < num)
    (buffer : ∀ b < 8 * min num.toNat (sys.slots i).proc.userPages.length,
      entries + b < KERNBASE ∧
      ((sys.slots i).proc.pgdir.flat (vpn (entries + b))).has PTE_P = true) :
    FaithfulTable (sys.view i) entries num ↔
      (num ≤ (sys.slots i).proc.userPages.length ∨ 0 ∈ (sys.slots i).proc.userPages) ∧
      ∀ j < min num.toNat (sys.slots i).proc.userPages.length,
        (sys.view i).member (entries + 8 * j) .user = 1 := by
  have sound := owned.view hi used
  exact faithful_iff sound (fun v half there => owned.page_range hi used half there)
    (tables_of_mapped sound.size mapped) positive (fun b below => (buffer b below).1)
    fun b below => (buffer b below).2

end Faithful

/-- Two pages that are present; user code may use the second, and the first if `low`. -/
def tablePages (low : Bool) : Nat → Pte := fun v =>
  if v = 0 then (if low then userPte 1010 else (userPte 1010).clear PTE_U)
  else if v = 1 then userPte 1011 else .zero

theorem tablePages_small (low : Bool) : Small (tablePages low) 2 := by
  have cases : ∀ v < 2, v = 0 ∨ v = 1 := fun v below => by omega
  refine ⟨by omega, fun v below => ?_, fun v below => ?_, fun v above => ?_⟩
  · obtain rfl | rfl := cases v below <;> cases low <;> decide
  · obtain rfl | rfl := cases v below
    · cases low
      · exact Or.inr ⟨by decide, by decide⟩
      · exact userPte_tidy 1010
    · exact userPte_tidy 1011
  · rw [tablePages, if_neg (by omega), if_neg (by omega)]

/-- A process with these pages, all of whose bytes are `c`. -/
def tableSys (low : Bool) (c : UInt8) : Sys :=
  Sys.solo ⟨smallImage, fun _ _ => c, List.range' 2000 10⟩
    ⟨8192, .single 1001 1002 (tablePages low), fun _ => 0, 0, fun _ => false, [], 0, 0⟩ 1003

theorem tableSys_owned (low : Bool) (c : UInt8) :
    (tableSys low c).Owned (soloPool (tableSys low c).phys ((tableSys low c).slots 0).proc 1003) 0 :=
  (tablePages_small low).owned rfl rfl (by omega) (show 8192 ≤ KERNBASE by decide)

theorem tableSys_mapped (low : Bool) (c : UInt8) (v : Nat)
    (below : v * 4096 < pgRoundUp ((tableSys low c).slots 0).proc.sz) :
    (((tableSys low c).slots 0).proc.pgdir.flat v).mapped = true := by
  have small : v < 2 := by
    change v * 4096 < pgRoundUp 8192 at below
    simp only [pgRoundUp, PGSIZE, uint] at below
    omega
  change ((PgDir.single 1001 1002 (tablePages low)).flat v).mapped = true
  rw [PgDir.single_flat, if_pos (by omega)]
  exact ((tablePages_small low).mapped v small).1

/-- The buffer happens to hold ones. -/
theorem table_of_ones : FaithfulTable ((tableSys true 0xFF).view 0) 0x1000 2 := by
  have pages : ((tableSys true 0xFF).slots 0).proc.userPages = [1, 0] := by decide +kernel
  refine (getpgtable_faithful_iff (tableSys_owned true 0xFF) (by decide) (by decide)
    (tableSys_mapped true 0xFF) (by decide) ?_).mpr ?_
  · rw [pages]
    decide +kernel
  · rw [pages]
    decide +kernel

theorem tableSys_faithful {low : Bool} {c : UInt8} {num : Int} (positive : 0 < num)
    (present : ∀ b < 8 * min num.toNat ((tableSys low c).view 0).proc.userPages.length,
      0x1000 + b < 2 ^ 31 ∧ ((tableSys low c).view 0).holds (0x1000 + b))
    (faithful : FaithfulTable ((tableSys low c).view 0) 0x1000 num) :
    (num ≤ ((tableSys low c).view 0).proc.userPages.length ∨
      0 ∈ ((tableSys low c).view 0).proc.userPages) ∧
    ∀ j < min num.toNat ((tableSys low c).view 0).proc.userPages.length,
      ((tableSys low c).view 0).member (0x1000 + 8 * j) .user = 1 := by
  have owned := tableSys_owned low c
  have here : 0 < NPROC := by decide
  have used : ((tableSys low c).slots 0).state ≠ .UNUSED := show ProcState.RUNNING ≠ .UNUSED by decide
  have sound := owned.view here used
  exact (faithful_iff sound (fun v half there => owned.page_range here used half there)
    (tables_of_mapped sound.size (tableSys_mapped low c)) positive (fun b below => (present b below).1)
    fun b below => (present b below).2).mp faithful

/-- The buffer holds zeros: the entry of page 1 says that the page does not belong to the
user. And where page 0 is no user page, a call for two entries goes on below address 0 and
follows a null pointer. -/
theorem table_not_faithful :
    (∃ seen t, (getpgtable 1 0x1000 1 0).run ((tableSys true 0).view 0) = .ok (1, seen) t ∧
      t.names 0x1000 1 ∧ t.member 0x1000 .user = 0 ∧ (t.proc.pgdir.flat 1).has PTE_U = true) ∧
    ¬ FaithfulTable ((tableSys true 0).view 0) 0x1000 1 ∧
    (∃ t, (getpgtable 3 0x1000 2 0).run ((tableSys false 0xFF).view 0) = .error .nullPte t) ∧
    ¬ FaithfulTable ((tableSys false 0xFF).view 0) 0x1000 2 := by
  refine ⟨?_, fun faithful => ?_, ?_, fun faithful => ?_⟩
  · have result : value (getpgtable 1 0x1000 1 0) ((tableSys true 0).view 0) = some (1, [0x1000]) := by
      decide +kernel
    have shown : (final (getpgtable 1 0x1000 1 0) ((tableSys true 0).view 0)).names 0x1000 1 := by
      rw [St.names]
      decide +kernel
    have user : (final (getpgtable 1 0x1000 1 0) ((tableSys true 0).view 0)).member 0x1000 .user = 0 := by
      decide +kernel
    have open_ : ((final (getpgtable 1 0x1000 1 0) ((tableSys true 0).view 0)).proc.pgdir.flat 1).has
        PTE_U = true := by
      decide +kernel
    generalize (tableSys true 0).view 0 = s at result shown user open_ ⊢
    exact ⟨_, _, run_of_value result, shown, user, open_⟩
  · have user := (tableSys_faithful (by decide) (by decide +kernel) faithful).2 0 (by decide +kernel)
    exact absurd user (by decide +kernel)
  · have stops : stopped (getpgtable 3 0x1000 2 0) ((tableSys false 0xFF).view 0) = some .nullPte := by
      decide +kernel
    generalize (tableSys false 0xFF).view 0 = s at stops ⊢
    exact ⟨_, run_of_stopped stops⟩
  · have ends := (tableSys_faithful (by decide) (by decide +kernel) faithful).1
    exact absurd ends (by decide +kernel)

end Xv6
