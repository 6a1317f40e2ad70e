import Xv6.PageListing

/-! The working set as `getpgtable` lists it. The scan tests for address 0 only after it has
written an entry, so it passes below page 0 unless it has found `num` pages or page 0 is
itself recorded; and a slot of the clock that is empty looks like one that records page 0. -/
namespace Xv6
open PteBit Control

/-- Every page below the size has its page table. -/
def Proc.Backed (p : Proc) : Prop := ∀ v, v * 4096 < p.sz → (walkpgdir p.pgdir (v * 4096)).isSome

namespace Proc.Backed
variable {p q : Proc}

theorem widens (backed : p.Backed) (dir : p.pgdir.Widens q.pgdir fun _ => True) (sz : q.sz ≤ p.sz) :
    q.Backed :=
  fun v below => dir.walk (backed v (by omega))

theorem of_mapped (size : p.sz ≤ KERNBASE)
    (mapped : ∀ v, v * 4096 < p.sz → (p.pgdir.flat v).mapped = true) : p.Backed := by
  intro v below
  have page : vpn (v * 4096) = v := vpn_page (by simp only [KERNBASE] at size; omega)
  have there := mapped v below
  rw [← page] at there
  rw [PgDir.walk_of_mapped there]
  rfl

end Proc.Backed

theorem Resize.backed {s t : St} {n r : Int} (resize : Resize s n r t) (sound : s.Sound)
    (dir : s.proc.pgdir.Widens t.proc.pgdir fun _ => True) (backed : s.proc.Backed) :
    t.proc.Backed := by
  have size : s.proc.sz ≤ 2 ^ 31 := sound.size
  cases resize with
  | @grow m d u _ user grown swept =>
    have marks : Remarks d u.proc.pgdir := (swept.recrypt (grown.sound user sound)).dir
    intro v below
    by_cases old : v * 4096 < s.proc.sz
    · exact dir.walk (backed v old)
    · change v * 4096 < s.proc.sz + n.toNat at below
      change (walkpgdir u.proc.pgdir (v * 4096)).isSome
      have round : pgRoundUp s.proc.sz ≤ v * 4096 := by
        simp only [pgRoundUp, PGSIZE, uint]
        omega
      obtain ⟨_, f, _, new, _⟩ := grown.fresh v round (by
        simp only [addedPages]
        omega)
      have mapped : (u.proc.pgdir.flat v).mapped = true := by
        rw [marks.mapped, new]
        exact userPte_mapped f
      simp only [KERNBASE] at user
      rw [← vpn_page (v := v) (by omega)] at mapped
      rw [PgDir.walk_of_mapped mapped]
      rfl
  | short => exact backed.widens dir le_rfl
  | @shrink m d newsz _ value _ _ =>
    refine backed.widens dir ?_
    change newsz ≤ s.proc.sz
    omega
  | drop => exact backed.widens dir le_rfl
  | stay => exact backed.widens dir le_rfl
  | none => exact backed

section Run
variable {pool lost : Multiset Nat} {s t : Sys} {i : Nat}

theorem Outcome.backed {call : Call} {r : Option Int} (outcome : Outcome i s call r t)
    (owned : s.Owned pool lost) (hi : i < NPROC) (live : (s.slots i).state.live = true)
    (grows : ∀ n, call = .growproc n →
      (s.slots i).proc.pgdir.Widens (t.slots i).proc.pgdir fun _ => True)
    (each : s.Each Proc.Backed) : t.Each Proc.Backed := by
  have sound := owned.view hi (live_used live)
  have mine : (s.view i).proc.Backed := each i hi live
  have touched : ∀ {st : St}, Touches (s.view i) st → (s.put i st).Each Proc.Backed :=
    fun touches => each.put (mine.widens (touches.dir.widens _) touches.sz.le)
  cases outcome with
  | load run => exact touched ((load_spec sound true _).of_ok run).1.toTouches
  | store run => exact touched ((store_spec sound true _ _ (Or.inl rfl)).of_ok run).toTouches
  | mencrypt => exact touched (Recrypt.mencrypted sound _ _).toTouches
  | @growproc n r st resize =>
    have proc : ((s.put i st).slots i).proc = st.proc := congrArg St.proc (s.view_put i st)
    have widens := grows n rfl
    rw [proc] at widens
    exact each.put (resize.backed sound widens mine)
  | exec done =>
    obtain ⟨_, w⟩ | ⟨_, settles, _, _, _, _, loaded⟩ := done
    · exact each.put (mine.widens (w.dir.widens _) w.sz.le)
    · have shaped := loaded.shaped settles.dir
      refine each.put (.of_mapped settles.size fun v below => ?_)
      have size := settles.size
      simp only [KERNBASE] at size
      exact (shaped.mapped v (by omega)).mpr below
  | unforked failed => exact each.unforked failed
  | forked _ forked =>
    refine each.forked forked fun d space => .of_mapped sound.size fun v below => ?_
    obtain ⟨mapped, f, _, copy, _⟩ := space.pages v below
    change (d.flat v).mapped = true
    rw [copy]
    exact mapped
  | waited => exact each
  | reaped _ reaped => exact each.reaped reaped
  | piped piped =>
    obtain ⟨u, st, files, touches, _, rfl⟩ := piped
    have view : (u.view i).proc = (s.view i).proc := files.proc i
    rw [← view] at mine
    exact (each.fileStep files).put (mine.widens (touches.dir.widens _) touches.sz.le)
  | closed step => exact each.fileStep step
  | ended files _ _ exited => exact each.ended files exited

theorem step_backed (pool : Multiset Nat) :
    Transition.Keeps Step fun s => (∃ lost, s.Owned pool lost) ∧ s.Each Proc.Backed := by
  rintro s e t step ⟨⟨lost, owned⟩, each⟩
  refine ⟨step_owned pool s e t step ⟨lost, owned⟩,
    (step.outcome owned).backed owned step.1 step.2.1 (fun n is => ?_) each⟩
  have run := step.2.2
  rw [is] at run
  exact (perform_widens (owned.dirs _ step.1 (live_used step.2.1)).2 n).of_ok run

end Run

/-- The user pages recorded in the clock, from the highest down. A slot that holds 0 is
empty or records page 0: `zero` says whether it counts as a record of page 0. -/
def Proc.recordedPages (p : Proc) (zero : Bool) : List Nat :=
  pagesDown (fun v => (decide (v ≠ 0) || zero) && ((p.pgdir.flat v).usable &&
    (List.range CLOCKSIZE).any fun k => p.clock k = v * 4096)) p.pageCount

/-- `getpgtable(entries, num, 1)` returns, it has looked up addresses below the size only,
and it has listed the recorded pages, or the first `num` of them. -/
def ExactListing (s : St) (entries : Nat) (num : Int) (zero : Bool) : Prop :=
  ∃ fuel seen t, (getpgtable fuel entries num 1).run s =
      .ok (min num ((s.proc.recordedPages zero).length : Int), seen) t ∧
    (∀ a ∈ seen, a < s.proc.sz) ∧
    ∀ j (inside : j < (s.proc.recordedPages zero).length), (j : Int) < num →
      t.names (entries + 8 * j) ((s.proc.recordedPages zero).get ⟨j, inside⟩)

/-- The writes to the buffer leave the pages that are still to be listed in the clock, and
record none that is not. -/
def SteadyBuffer (s : St) (entries : Nat) (num : Int) (zero : Bool) : Prop :=
  ∃ u, Listing entries 1 s 0 s.proc.pageCount ((s.proc.recordedPages zero).take num.toNat) u

theorem lists_recorded (p : Proc) (v : Nat) : p.lists 1 v = ((p.pgdir.flat v).usable &&
    (List.range CLOCKSIZE).any fun k => p.clock k = v * 4096) := by
  have search : (inQ p (v * 4096)).isSome =
      (List.range CLOCKSIZE).any fun k => p.clock k = v * 4096 := by
    rw [Bool.eq_iff_iff, List.any_eq_true]
    constructor
    · intro found
      obtain ⟨k, found⟩ := Option.isSome_iff_exists.mp found
      obtain ⟨hk, slot⟩ := inQ_some found
      exact ⟨k, List.mem_range.mpr hk, decide_eq_true slot⟩
    · rintro ⟨k, hk, slot⟩
      by_contra absent
      exact inQ_none (Option.not_isSome_iff_eq_none.mp absent) (List.mem_range.mp hk)
        (of_decide_eq_true slot)
  rw [Proc.lists, search]
  rfl

section Pages
variable {f : Nat → Bool} {n v : Nat}

/-- The first page of a list, and the pages behind it. -/
theorem pagesDown_eq_cons {vs : List Nat} : pagesDown f n = v :: vs ↔
    v < n ∧ f v = true ∧ (∀ w, v < w → w < n → f w = false) ∧ pagesDown f v = vs := by
  induction n with
  | zero =>
    refine iff_of_false ?_ (fun all => absurd all.1 (Nat.not_lt_zero v))
    rintro ⟨⟩
  | succ n ih =>
    rw [pagesDown_succ]
    split
    · rename_i listed
      rw [List.cons.injEq]
      constructor
      · rintro ⟨rfl, rfl⟩
        exact ⟨Nat.lt_succ_self n, listed, fun w above below => by omega, rfl⟩
      · rintro ⟨below, _, between, rest⟩
        obtain rfl : n = v := by
          by_contra other
          rw [between n (by omega) (Nat.lt_succ_self n)] at listed
          cases listed
        exact ⟨rfl, rest⟩
    · rename_i skipped
      rw [ih]
      constructor
      · rintro ⟨below, listed, between, rest⟩
        refine ⟨by omega, listed, fun w above below' => ?_, rest⟩
        by_cases last : w = n
        · rw [last]
          exact Bool.eq_false_iff.mpr skipped
        · exact between w above (by omega)
      · rintro ⟨below, listed, between, rest⟩
        refine ⟨?_, listed, fun w above below' => between w above (by omega), rest⟩
        by_contra last
        obtain rfl : v = n := by omega
        exact skipped listed

/-- Page 0 comes last, so to leave it out cuts the list at its end. -/
theorem pagesDown_cut (f : Nat → Bool) (zero : Bool) (n : Nat) :
    pagesDown (fun v => (decide (v ≠ 0) || zero) && f v) n <+: pagesDown f n := by
  induction n with
  | zero => exact List.prefix_rfl
  | succ n ih =>
    rw [pagesDown_succ, pagesDown_succ]
    by_cases first : n = 0
    · subst first
      cases zero with
      | true => exact List.prefix_rfl
      | false => exact List.nil_prefix
    · have same : ((decide (n ≠ 0) || zero) && f n) = f n := by simp [first]
      rw [same]
      split
      · exact List.prefix_cons_inj n |>.mpr ih
      · exact ih

end Pages

theorem recordedPages_cut (p : Proc) (zero : Bool) :
    p.recordedPages zero <+: pagesDown (p.lists 1) p.pageCount := by
  have same : p.recordedPages zero =
      pagesDown (fun v => (decide (v ≠ 0) || zero) && p.lists 1 v) p.pageCount :=
    pagesDown_congr fun v _ => by rw [lists_recorded]
  rw [same]
  exact pagesDown_cut _ zero _

theorem Listing.members_lt {entries i bound : Nat} {wsetOnly : Int} {s u : St} {vs : List Nat}
    (listing : Listing entries wsetOnly s i bound vs u) : ∀ v ∈ vs, v < bound := by
  induction listing with
  | done => exact fun v member => absurd member List.not_mem_nil
  | page below _ _ _ _ ih =>
    intro v member
    obtain rfl | later := List.mem_cons.mp member
    · exact below
    · exact (ih v later).trans below

section Exact
variable {entries : Nat} {num : Int} {zero : Bool} {s : St}

/-- A call that returns and has looked up addresses below the size only has listed pages
one after the other, as many as it says. It ends at page 0 or with `num` pages. -/
theorem listing_of_run {fuel : Nat} {r : Int} {seen : List Nat} {t : St} (sound : s.Sound)
    (run : (getpgtable fuel entries num 1).run s = .ok (r, seen) t)
    (bounded : ∀ a ∈ seen, a < s.proc.sz) :
    ∃ vs, Listing entries 1 s 0 s.proc.pageCount vs t ∧ r = vs.length ∧
      (vs.getLast? = some 0 ∨ r = num) := by
  have size : s.proc.sz ≤ KERNBASE := sound.size
  have count := pageCount_le (p := s.proc) size
  have top : s.proc.sz ≤ s.proc.pageCount * 4096 := by
    by_contra above
    have := (pageCount_lt (v := s.proc.pageCount) size).mpr (by omega)
    omega
  have scan : Sat (getpgtableLoop entries num 1 fuel (pageBelow s.proc.pageCount * 4096) 0) s _ _ :=
    loop_lists count fuel (pageBelow_lt s.proc.pageCount)
  have listed : Sat (getpgtable fuel entries num 1) s (fun r t => (∀ a ∈ r.2, a < s.proc.sz) →
      ∃ vs, Listing entries 1 s 0 s.proc.pageCount vs t ∧ r.1 = vs.length ∧
        (vs.getLast? = some 0 ∨ r.1 = num)) (fun _ _ => True) := by
    refine (sat_getpgtable (Or.inr rfl) size).mpr (scan.imp ?_)
    rintro r t ⟨start, rest⟩ bounded
    obtain ⟨vs, listing, length, last⟩ := rest fun a member => (bounded a member).trans_le top
    have first : pageBelow s.proc.pageCount < s.proc.pageCount :=
      (pageCount_lt size).mpr (bounded _ start)
    have page : pageBelow s.proc.pageCount + 1 = s.proc.pageCount := by
      generalize s.proc.pageCount = n at first count
      simp only [pageBelow] at first ⊢
      omega
    rw [page] at listing
    refine ⟨vs, listing, by rw [length, Nat.zero_add], ?_⟩
    exact last.imp_right fun full => full.2
  exact listed.of_ok run bounded

theorem ExactListing.listing (exactly : ExactListing s entries num zero) (sound : s.Sound)
    (positive : 0 < num)
    (fits : entries + 8 * min num.toNat (s.proc.recordedPages zero).length ≤ KERNBASE) :
    (num ≤ (s.proc.recordedPages zero).length ∨ 0 ∈ s.proc.recordedPages zero) ∧
      SteadyBuffer s entries num zero := by
  obtain ⟨fuel, seen, t, run, bounded, names⟩ := exactly
  obtain ⟨vs, listing, length, last⟩ := listing_of_run sound run bounded
  have count := pageCount_le (p := s.proc) sound.size
  have recorded : ∀ v ∈ s.proc.recordedPages zero, v < 2 ^ 19 := fun v member =>
    (mem_pagesDown.mp member).1.trans_le count
  have shown := (listing.names sound (by simp only [KERNBASE] at fits; omega)).2
  -- The entries name the pages that were listed and, by assumption, the recorded ones.
  have same : vs = (s.proc.recordedPages zero).take num.toNat := by
    refine List.ext_get (by rw [List.length_take]; omega) fun j left right => ?_
    rw [List.length_take] at right
    have named := names j (by omega) (by omega)
    have listed := shown j left
    rw [Nat.zero_add] at listed
    have page := names_inj listed named
      ((listing.members_lt _ (List.get_mem _ _)).trans_le (by omega))
      ((recorded _ (List.get_mem _ _)).trans (by decide))
    rw [page]
    simp only [List.get_eq_getElem, List.getElem_take]
  rw [same] at listing last
  refine ⟨?_, t, listing⟩
  obtain zero | full := last
  · exact Or.inr (List.mem_of_mem_take (List.mem_of_getLast? zero))
  · exact Or.inl (by omega)

theorem SteadyBuffer.exact (steady : SteadyBuffer s entries num zero) (sound : s.Sound)
    (backed : s.proc.Backed) (positive : 0 < num)
    (fits : entries + 8 * min num.toNat (s.proc.recordedPages zero).length ≤ KERNBASE)
    (ends : num ≤ (s.proc.recordedPages zero).length ∨ 0 ∈ s.proc.recordedPages zero) :
    ExactListing s entries num zero := by
  obtain ⟨u, listing⟩ := steady
  obtain ⟨vs, is⟩ : ∃ vs, vs = (s.proc.recordedPages zero).take num.toNat := ⟨_, rfl⟩
  rw [← is] at listing
  have length : vs.length = min num.toNat (s.proc.recordedPages zero).length := by
    rw [is, List.length_take]
  have last : vs.getLast? = some 0 ∨ vs ≠ [] ∧ (vs.length : Int) = num := by
    by_cases enough : num ≤ (s.proc.recordedPages zero).length
    · refine Or.inr ⟨List.length_pos_iff.mp ?_, ?_⟩ <;> omega
    · refine Or.inl ?_
      rw [is, List.take_of_length_le (by omega)]
      exact pagesDown_last (ends.resolve_left enough)
  simp only [KERNBASE] at fits
  obtain ⟨fuel, seen, run, below⟩ := getpgtable_of_listing (Or.inr rfl) sound
    (fun x inside => backed x ((pageCount_lt sound.size).mp inside)) listing (by omega) last (by omega)
  refine ⟨fuel, seen, u, ?_, below, fun j inside few => ?_⟩
  · rw [run, length]
    congr 2
    omega
  · have named := (listing.names sound (by omega)).2 j (by omega)
    rw [Nat.zero_add] at named
    have page : vs.get ⟨j, by omega⟩ = (s.proc.recordedPages zero).get ⟨j, inside⟩ := by
      simp only [is, List.get_eq_getElem, List.getElem_take]
    rwa [page] at named

/-- Writes to a buffer that is present change no slot of the clock. -/
theorem steady_of_present (sound : s.Sound)
    (fits : entries + 8 * min num.toNat (s.proc.recordedPages zero).length ≤ KERNBASE)
    (present : ∀ b < 8 * min num.toNat (s.proc.recordedPages zero).length, s.holds (entries + b)) :
    SteadyBuffer s entries num zero := by
  have count := pageCount_le (p := s.proc) sound.size
  obtain ⟨n, is⟩ : ∃ n, n = min num.toNat (s.proc.recordedPages zero).length := ⟨_, rfl⟩
  have cut : (s.proc.recordedPages zero).take num.toNat =
      (pagesDown (s.proc.lists 1) s.proc.pageCount).take n := by
    rw [is, ← List.take_take,
      ← List.prefix_iff_eq_take.mp (recordedPages_cut s.proc zero)]
  have length : ((pagesDown (s.proc.lists 1) s.proc.pageCount).take n).length = n := by
    rw [← cut, List.length_take, is]
  simp only [KERNBASE] at fits
  have listed : _ → _ → ∃ u, Listing entries 1 s 0 s.proc.pageCount _ u ∧ Filled entries s u 0 _ :=
    listing_present sound (count.trans (by decide)) n
  rw [length, Nat.zero_add, Nat.mul_zero, Nat.add_zero, ← cut] at listed
  obtain ⟨u, listing, _⟩ := listed (by omega) (by rwa [is])
  exact ⟨u, listing⟩

end Exact

section Fault
variable {s t : St} {a : Nat}

/-- A page fault at `a` is served. -/
def St.Serves (s : St) (a : Nat) : Prop :=
  s.proc.pgdir.flat (vpn a) ≠ .zero ∧ s.Opens a ∧ ¬ s.Stuck a

theorem access_unserved (absent : ¬ s.holds a) (unserved : ¬ s.Serves a) :
    Sat (access false a) s (fun _ _ => False) (fun _ _ => True) := by
  refine (access_spec false s a).mono ?_ (fun _ _ _ => trivial)
  rintro f t (⟨resident, _⟩ | ⟨_, filled, opens, free, _⟩)
  · exact absent (resident_present.mp resident)
  · exact unserved ⟨filled, opens, free⟩

/-- After a page fault that is served, the access is one to the page it has brought in. -/
theorem access_served (absent : ¬ s.holds a) (serves : s.Serves a) :
    (access false a).run s = (access false a).run (s.served a) := by
  obtain ⟨filled, opens, free⟩ := serves
  have here : (s.served a).holds a := (served_present filled _).mpr (Or.inl rfl)
  have before : Sat (access false a) s (fun f t => t = (s.served a).touched a ∧
      f = ((s.served a).proc.pgdir.flat (vpn a)).ppn) (fun _ _ => False) := by
    refine (access_spec false s a).mono ?_ ?_
    · rintro f t (⟨resident, _⟩ | ⟨_, _, _, _, rfl, rfl⟩)
      · exact absurd (resident_present.mp resident) absent
      · exact ⟨rfl, rfl⟩
    · rintro e t ⟨_, ⟨_, stuck⟩ | ⟨_, ⟨empty, _⟩ | ⟨_, shut, _⟩⟩⟩
      · exact free stuck
      · exact filled empty
      · exact shut opens
  have after : Sat (access false a) (s.served a) (fun f t => t = (s.served a).touched a ∧
      f = ((s.served a).proc.pgdir.flat (vpn a)).ppn) (fun _ _ => False) := by
    have resident := Option.isSome_iff_ne_none.mp (resident_present.mpr here)
    refine (access_spec false (s.served a) a).mono ?_ (fun e t stop => resident stop.1)
    rintro f t (⟨_, rfl, rfl⟩ | ⟨fault, _⟩)
    · exact ⟨rfl, rfl⟩
    · exact absurd fault resident
  obtain ⟨_, _, run, rfl, rfl⟩ := before.returns
  obtain ⟨_, _, run', rfl, rfl⟩ := after.returns
  rw [run, run']

/-- The first thing that the write of an entry does is to read its first byte. -/
theorem writeEntry_served {entry : Nat} (word : entry < 2 ^ 32) (absent : ¬ s.holds entry)
    (serves : s.Serves entry) (uva : Nat) :
    (writeEntry entry uva).run s = (writeEntry entry uva).run (s.served entry) := by
  have at_ : uint (entry + 4 * PtEntry.pdx.word) = entry := Nat.mod_eq_of_lt word
  have first : (load false (uint (entry + 4 * PtEntry.pdx.word))).run s =
      (load false (uint (entry + 4 * PtEntry.pdx.word))).run (s.served entry) := by
    rw [at_]
    exact run_bind_congr (access_served absent serves) _
  exact run_bind_congr (run_bind_congr (run_bind_congr first _) _) _

theorem writeEntry_unserved {entry : Nat} (word : entry < 2 ^ 32) (absent : ¬ s.holds entry)
    (unserved : ¬ s.Serves entry) (uva : Nat) :
    Sat (writeEntry entry uva) s (fun _ _ => False) (fun _ _ => True) := by
  have at_ : uint (entry + 4 * PtEntry.pdx.word) = entry := Nat.mod_eq_of_lt word
  have first : Sat (load false (uint (entry + 4 * PtEntry.pdx.word))) s (fun _ _ => False)
      (fun _ _ => True) := by
    rw [at_]
    exact .seq (access_unserved absent unserved) (fun _ _ => False.elim) (fun _ _ _ => trivial)
  have word : Sat (loadWord (entry + 4 * PtEntry.pdx.word)) s (fun _ _ => False) (fun _ _ => True) :=
    .seq first (fun _ _ => False.elim) (fun _ _ _ => trivial)
  exact .seq (.seq word (fun _ _ => False.elim) (fun _ _ _ => trivial)) (fun _ _ => False.elim)
    (fun _ _ _ => trivial)

end Fault

section Buffer
variable {s t u : St} {entries i bound : Nat} {wsetOnly : Int} {vs : List Nat}

/-- What is listed into a buffer that is present. -/
theorem Listing.pages (listing : Listing entries wsetOnly s i bound vs u) (sound : s.Sound)
    (low : bound ≤ 2 ^ 20) (fits : entries + 8 * (i + vs.length) ≤ 2 ^ 31)
    (present : ∀ b < 8 * vs.length, s.holds (entries + 8 * i + b)) :
    (pagesDown (s.proc.lists wsetOnly) bound).take vs.length = vs := by
  induction listing with
  | done => exact List.take_zero
  | @page s t u i bound v vs below listed between wrote rest ih =>
    rw [List.length_cons] at fits present ⊢
    obtain ⟨mapped, _⟩ := Pte.usable_iff.mp (Bool.and_eq_true _ _ ▸ listed).1
    rw [← vpn_page (v := v) (by omega)] at mapped
    obtain ⟨written, marks⟩ := (writeEntry_present (entries + 8 * i) (v * 4096) sound (by omega)
      (fun k inside => present k (by omega)) (by rw [PgDir.walk_of_mapped mapped]; rfl)).of_ok wrote
    have same : pagesDown (t.proc.lists wsetOnly) v = pagesDown (s.proc.lists wsetOnly) v :=
      pagesDown_congr fun w _ => marks.lists w
    have rest := ih (written.touches.sound sound) (by omega) (by omega) fun b inside => by
      rw [St.holds, marks.has _ (by decide),
        show entries + 8 * (i + 1) + b = entries + 8 * i + (8 + b) by omega]
      exact present _ (by omega)
    rw [same] at rest
    rw [pagesDown_eq_cons.mpr ⟨below, listed, between, rfl⟩, List.take_succ_cons, rest]

/-- Every page of the buffer but its first is present, and stays so when the first is brought in. -/
def St.RestStays (s : St) (entries size : Nat) : Prop :=
  ∀ b < size, vpn (entries + b) ≠ vpn entries →
    s.holds (entries + b) ∧ (s.holds entries ∨ s.expels entries ≠ some (vpn (entries + b)))

/-- The first page of the buffer is present; or its page fault is served, and the clock that the
fault leaves has the same pages below the first of `pages` as there are in `pages`. -/
def St.FirstStays (s : St) (entries : Nat) : List Nat → Prop
  | [] => True
  | v :: vs => s.holds entries ∨
      s.Serves entries ∧ (pagesDown ((s.served entries).proc.lists 1) v).take vs.length = vs

theorem St.RestStays.present {size : Nat} (stays : s.RestStays entries size)
    (here : s.holds entries) : ∀ b < size, s.holds (entries + b) := by
  intro b inside
  by_cases same : vpn (entries + b) = vpn entries
  · rwa [St.holds, same]
  · exact (stays b inside same).1

theorem St.RestStays.served {size : Nat} (stays : s.RestStays entries size)
    (absent : ¬ s.holds entries) (filled : s.proc.pgdir.flat (vpn entries) ≠ .zero) :
    ∀ b < size, (s.served entries).holds (entries + b) := by
  intro b inside
  rw [St.holds, served_present filled]
  by_cases same : vpn (entries + b) = vpn entries
  · exact Or.inl same
  · obtain ⟨present, kept⟩ := stays b inside same
    exact Or.inr ⟨present, kept.resolve_left absent⟩

/-- When only the first page of the buffer can fault, whether the writes leave the record alone
is told by the pages before the call. -/
theorem steady_iff {num : Int} {zero : Bool} (sound : s.Sound)
    (fits : entries + 8 * ((s.proc.recordedPages zero).take num.toNat).length ≤ KERNBASE)
    (stays : s.RestStays entries (8 * ((s.proc.recordedPages zero).take num.toNat).length)) :
    SteadyBuffer s entries num zero ↔
      s.FirstStays entries ((s.proc.recordedPages zero).take num.toNat) := by
  have count := pageCount_le (p := s.proc) sound.size
  have cut : (s.proc.recordedPages zero).take num.toNat <+:
      pagesDown (s.proc.lists 1) s.proc.pageCount :=
    (List.take_prefix _ _).trans (recordedPages_cut s.proc zero)
  simp only [KERNBASE] at fits
  cases pages : (s.proc.recordedPages zero).take num.toNat with
  | nil =>
    refine iff_of_true ⟨s, ?_⟩ trivial
    rw [pages]
    exact .done _ _ _
  | cons v vs =>
    rw [pages] at cut fits stays
    obtain ⟨rest, whole⟩ := cut
    obtain ⟨below, listed, between, _⟩ := pagesDown_eq_cons.mp whole.symm
    rw [List.length_cons] at fits stays
    by_cases here : s.holds entries
    · refine iff_of_true (steady_of_present sound ?_ ?_) (Or.inl here)
      · rw [← List.length_take, pages, List.length_cons]
        exact fits
      · rw [← List.length_take, pages, List.length_cons]
        exact stays.present here
    have fault : s.proc.resident false entries = none :=
      Option.not_isSome_iff_eq_none.mp fun found => here (resident_present.mp found)
    -- The write of the first entry takes the page fault and is then one to a buffer that is present.
    have entry : entries + 8 * 0 < 2 ^ 32 := by omega
    rw [St.FirstStays, or_iff_right here, SteadyBuffer, pages]
    by_cases serves : s.Serves entries
    · have wrote := writeEntry_served entry here serves (v * 4096)
      have recrypt : Recrypt s (s.served entries) := .served sound fault serves.1
        serves.2.1
      have present := stays.served here serves.1
      obtain ⟨mapped, _⟩ := Pte.usable_iff.mp (Bool.and_eq_true _ _ ▸ listed).1
      rw [← vpn_page (v := v) (by omega), ← recrypt.dir.mapped] at mapped
      obtain ⟨_, t, run, written, marks⟩ := (writeEntry_present (entries + 8 * 0) (v * 4096)
        (recrypt.sound sound) (by omega) (fun k inside => present k (by omega))
        (by rw [PgDir.walk_of_mapped mapped]; rfl)).returns
      have same : pagesDown (t.proc.lists 1) v = pagesDown ((s.served entries).proc.lists 1) v :=
        pagesDown_congr fun w _ => marks.lists w
      have sound' := written.touches.sound (recrypt.sound sound)
      have present' : ∀ b < 8 * vs.length, t.holds (entries + 8 * (0 + 1) + b) := by
        intro b inside
        rw [St.holds, marks.has _ (by decide), show entries + 8 * (0 + 1) + b = entries + (8 + b) by omega]
        exact present _ (by omega)
      rw [and_iff_right serves, ← same]
      constructor
      · rintro ⟨u, _ | ⟨_, _, _, wrote', rest⟩⟩
        cases (wrote'.symm.trans wrote).trans run
        exact rest.pages sound' (by omega) (by omega) present'
      · intro kept
        have listed' : _ → _ → ∃ u, Listing entries 1 t (0 + 1) v _ u ∧ Filled entries t u (0 + 1) _ :=
          listing_present sound' (by omega) vs.length
        rw [kept] at listed'
        obtain ⟨u, listing, _⟩ := listed' (by omega) present'
        exact ⟨u, .page below listed between (wrote.trans run) listing⟩
    · refine iff_of_false ?_ fun both => serves both.1
      rintro ⟨u, _ | ⟨_, _, _, wrote, _⟩⟩
      exact (writeEntry_unserved entry here serves (v * 4096)).of_ok wrote

end Buffer

/-- In every reachable state, a working set is listed exactly into a buffer that is present
if and only if `num` pages are recorded or page 0 is. Into a buffer that is not, the page
faults on it must in addition leave the record of the pages still to be listed alone: when no
page of the buffer but the first can fault, the pages and the clock before the call tell. -/
theorem wset_exact_iff {pool lost : Multiset Nat} {s₀ s : Sys} {es : List Event} {i entries : Nat}
    {num : Int} (owned : s₀.Owned pool lost) (start : s₀.Each Proc.Backed)
    (run : Transition.Run Step s₀ es s) (hi : i < NPROC) (live : (s.slots i).state.live = true)
    (positive : 0 < num) (zero : Bool)
    (fits : entries + 8 * min num.toNat ((s.slots i).proc.recordedPages zero).length ≤ KERNBASE) :
    ((∀ b < 8 * min num.toNat ((s.slots i).proc.recordedPages zero).length,
        (s.view i).holds (entries + b)) →
      (ExactListing (s.view i) entries num zero ↔
        num ≤ ((s.slots i).proc.recordedPages zero).length ∨
          0 ∈ (s.slots i).proc.recordedPages zero)) ∧
    ((s.view i).RestStays entries (8 * (((s.slots i).proc.recordedPages zero).take num.toNat).length) →
      (ExactListing (s.view i) entries num zero ↔
        (num ≤ ((s.slots i).proc.recordedPages zero).length ∨
          0 ∈ (s.slots i).proc.recordedPages zero) ∧
        (s.view i).FirstStays entries (((s.slots i).proc.recordedPages zero).take num.toNat))) ∧
    (ExactListing (s.view i) entries num zero ↔
      (num ≤ ((s.slots i).proc.recordedPages zero).length ∨
        0 ∈ (s.slots i).proc.recordedPages zero) ∧
      SteadyBuffer (s.view i) entries num zero) := by
  obtain ⟨⟨_, owned⟩, each⟩ := run.kept (step_backed pool) ⟨⟨lost, owned⟩, start⟩
  have sound := owned.view hi (live_used live)
  have backed : (s.view i).proc.Backed := each i hi live
  change entries + 8 * min num.toNat ((s.view i).proc.recordedPages zero).length ≤ KERNBASE at fits
  have exactly : ExactListing (s.view i) entries num zero ↔
      (num ≤ ((s.view i).proc.recordedPages zero).length ∨ 0 ∈ (s.view i).proc.recordedPages zero) ∧
        SteadyBuffer (s.view i) entries num zero := by
    constructor
    · exact fun exactly => exactly.listing sound positive fits
    · exact fun both => both.2.exact sound backed positive fits both.1
  refine ⟨fun present => ?_, fun stays => ?_, exactly⟩
  · rw [exactly]
    exact and_iff_left (steady_of_present sound fits present)
  · rw [exactly]
    exact and_congr_right fun _ => steady_iff sound (by rwa [List.length_take]) stays

theorem Small.backed {ptes : Nat → Pte} {n : Nat} (small : Small ptes n) {p : Proc}
    (dir : p.pgdir = .single 1001 1002 ptes) (size : p.sz = n * 4096) : p.Backed := by
  have bound := small.bound
  refine .of_mapped (by simp only [KERNBASE]; omega) fun v below => ?_
  rw [dir, PgDir.single_flat, if_pos (by omega)]
  exact (small.mapped v (by omega)).1

theorem elevenPageSys_backed : elevenPageSys.Each Proc.Backed :=
  fun _ _ _ => elevenPages_small.backed rfl rfl

theorem filled_pages (zero : Bool) {s : St} (is : s = (afterAll fillCalls elevenPageSys).view 0) :
    s.proc.recordedPages zero = [8, 7, 6, 5, 4, 3, 2, 1] := by
  rw [is]
  cases zero <;> decide +kernel

/-- Pages 1 to 8 are recorded. A call for eight of them is exact. -/
theorem full_clock_listed :
    ExactListing ((afterAll fillCalls elevenPageSys).view 0) 0x1000 8 true := by
  have start := elevenPages_small.owned (m := elevenPageSys.phys)
    (p := (elevenPageSys.slots 0).proc) rfl rfl (by omega) (by decide)
  have run := fillCalls_run.of_restrict
  have live : ((afterAll fillCalls elevenPageSys).slots 0).state.live = true := by decide +kernel
  have pages := filled_pages true rfl
  have present : ∀ b < 64, ((afterAll fillCalls elevenPageSys).view 0).holds (0x1000 + b) := by
    decide +kernel
  generalize afterAll fillCalls elevenPageSys = s at run live pages present ⊢
  change (s.slots 0).proc.recordedPages true = _ at pages
  have fits : 0x1000 + 8 * min (8 : Int).toNat ((s.slots 0).proc.recordedPages true).length ≤
      KERNBASE := by
    rw [pages]
    decide
  have listed := (wset_exact_iff start elevenPageSys_backed run (by decide) live (by decide) true
    fits).1 (by rw [pages]; exact present)
  exact listed.mpr (Or.inl (by rw [pages]; decide))

/-- Asked for nine pages, `getpgtable` finds the eight and goes on below address 0: it looks
up an address in the kernel's half and follows a null pointer. -/
theorem full_clock_overrun :
    (∃ t, (getpgtable 12 0x1000 9 1).run ((afterAll fillCalls elevenPageSys).view 0) =
      .error .nullPte t) ∧
    ∀ zero, ¬ ExactListing ((afterAll fillCalls elevenPageSys).view 0) 0x1000 9 zero := by
  have stops : stopped (getpgtable 12 0x1000 9 1) ((afterAll fillCalls elevenPageSys).view 0) =
      some .nullPte := by
    decide +kernel
  have start := elevenPages_small.owned (m := elevenPageSys.phys)
    (p := (elevenPageSys.slots 0).proc) rfl rfl (by omega) (by decide)
  have run := fillCalls_run.of_restrict
  have live : ((afterAll fillCalls elevenPageSys).slots 0).state.live = true := by decide +kernel
  have pages := fun zero => filled_pages zero rfl
  generalize afterAll fillCalls elevenPageSys = s at run live pages stops ⊢
  obtain ⟨⟨_, owned⟩, _⟩ := run.kept (step_backed _) ⟨⟨0, start⟩, elevenPageSys_backed⟩
  have sound := owned.view (i := 0) (by decide) (live_used live)
  constructor
  · exact ⟨_, run_of_stopped stops⟩
  · intro zero exactly
    have ends := (exactly.listing sound (by decide) (by rw [pages]; decide)).1
    rw [pages] at ends
    exact absurd ends (by decide)

end Xv6
