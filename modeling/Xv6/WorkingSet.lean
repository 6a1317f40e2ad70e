import Xv6.Clock

/-! The working set of a process: the pages in the clear are to be those in the
clock, so there are at most `CLOCKSIZE` of them. Three paths let a page into the
clear that the clock does not have: page 0, whose address is the empty entry, the
new pages of a `growproc` that starts in the middle of a page, and the pages of an
image after the first. -/
namespace Xv6
open PteBit Control
open Function (update update_of_ne update_self)

/-- The pages of the process that are in the clear. -/
def Proc.decrypted (p : Proc) : Finset Nat :=
  (Finset.range (2 ^ 19)).filter fun v =>
    v * 4096 < p.sz ∧ (p.pgdir.flat v).has PTE_U = true ∧ (p.pgdir.flat v).has PTE_P = true

/-- The page is recorded in the clock. -/
def Proc.Records (p : Proc) (v : Nat) : Prop := v ≠ 0 ∧ ∃ k < CLOCKSIZE, p.clock k = v * 4096

/-- Every page in the clear is recorded. -/
structure Proc.Tracked (p : Proc) : Prop where
  head : p.head < CLOCKSIZE
  aligned : ∀ k < CLOCKSIZE, p.clock k % PGSIZE = 0
  recorded : ∀ v, v * 4096 < p.sz → (p.pgdir.flat v).has PTE_U = true →
    (p.pgdir.flat v).has PTE_P = true → p.Records v

theorem Proc.Tracked.card {p : Proc} (tracked : p.Tracked) : p.decrypted.card ≤ CLOCKSIZE := by
  have listed : p.decrypted ⊆ (Finset.range CLOCKSIZE).image fun k => p.clock k / 4096 := by
    intro v member
    obtain ⟨below, user, present⟩ := (Finset.mem_filter.mp member).2
    obtain ⟨_, k, hk, slot⟩ := tracked.recorded v below user present
    refine Finset.mem_image.mpr ⟨k, Finset.mem_range.mpr hk, ?_⟩
    rw [slot]
    exact Nat.mul_div_cancel v (by decide)
  calc p.decrypted.card
      ≤ ((Finset.range CLOCKSIZE).image fun k => p.clock k / 4096).card := Finset.card_le_card listed
    _ ≤ (Finset.range CLOCKSIZE).card := Finset.card_image_le
    _ = CLOCKSIZE := Finset.card_range CLOCKSIZE

/-- The clock is kept, and no page comes into the clear. -/
theorem Proc.Tracked.carry {p q : Proc} (tracked : p.Tracked) (clock : q.clock = p.clock)
    (head : q.head = p.head)
    (old : ∀ v, v * 4096 < q.sz → (q.pgdir.flat v).has PTE_U = true →
      (q.pgdir.flat v).has PTE_P = true → v * 4096 < p.sz ∧ (p.pgdir.flat v).has PTE_U = true ∧
        (p.pgdir.flat v).has PTE_P = true) : q.Tracked := by
  refine ⟨by rw [head]; exact tracked.head, by rw [clock]; exact tracked.aligned,
    fun v below user present => ?_⟩
  obtain ⟨below, user, present⟩ := old v below user present
  obtain ⟨nonzero, k, hk, slot⟩ := tracked.recorded v below user present
  exact ⟨nonzero, k, hk, by rw [clock, slot]⟩

section Access
variable {s : St} {user : Bool} {va : Nat}

theorem touched_tracked (tracked : s.proc.Tracked) : (s.touched va).proc.Tracked := by
  refine tracked.carry rfl rfl fun v below user present => ?_
  rw [touched_has s va v (by decide)] at user present
  exact ⟨below, user, present⟩

/-- The clock after a page fault has the page, and the pages that were in the clear
and are not expelled. -/
theorem served_records (sound : s.Sound) (tracked : s.proc.Tracked) (low : va < 2 ^ 32)
    (nonzero : vpn va ≠ 0) :
    (s.served va).proc.Records (vpn va) ∧
    ∀ v, v * 4096 < s.proc.sz → (s.proc.pgdir.flat v).has PTE_U = true →
      (s.proc.pgdir.flat v).has PTE_P = true → s.expels va ≠ some v →
      (s.served va).proc.Records v := by
  obtain ⟨_, ⟨⟨i, hi, queued⟩, same, _⟩ | ⟨k, hk, slots, which⟩⟩ :=
    recorded_clock s va tracked.head
  · have same : (s.served va).proc.clock = s.proc.clock := same
    refine ⟨⟨nonzero, i, hi, ?_⟩, fun v below user present _ => ?_⟩
    · have aligned := tracked.aligned i hi
      rw [same, queued, ← pgRoundDown_vpn low]
      rw [queued] at aligned
      simp only [pgRoundDown, PGSIZE] at aligned ⊢
      omega
    · obtain ⟨nonzero, j, hj, slot⟩ := tracked.recorded v below user present
      exact ⟨nonzero, j, hj, by rw [same, slot]⟩
  · have slots : (s.served va).proc.clock = update s.proc.clock k (pgRoundDown va) := slots
    refine ⟨⟨nonzero, k, hk, ?_⟩, fun v below user present stays => ?_⟩
    · rw [slots, update_self, pgRoundDown_vpn low]
    · obtain ⟨nonzero, j, hj, slot⟩ := tracked.recorded v below user present
      refine ⟨nonzero, j, hj, ?_⟩
      rw [slots, update_of_ne _, slot]
      rintro rfl
      obtain ⟨empty, _⟩ | ⟨rfl, _, absent, full⟩ := which
      · omega
      · -- The oldest entry is this page, so the fault expels it.
        have size : s.proc.sz ≤ 2 ^ 31 := sound.size
        have page : vpn (s.proc.clock s.proc.head) = v := by
          rw [slot]
          simp only [vpn, PGSIZE]
          omega
        have clear := (sound.dir.tidy v).clear present
        have usable := Pte.usable_iff.mpr ⟨Pte.mapped_of_present present, user⟩
        exact stays (by rw [St.expels, page, if_pos ⟨absent, full, usable, clear⟩])

theorem served_tracked (sound : s.Sound) (tracked : s.proc.Tracked) (low : va < 2 ^ 32)
    (nonzero : vpn va ≠ 0) (fault : s.proc.resident user va = none)
    (filled : s.proc.pgdir.flat (vpn va) ≠ .zero) (opens : s.Opens va) :
    (s.served va).proc.Tracked := by
  have recrypt := Recrypt.served sound fault filled opens
  obtain ⟨mine, others⟩ := served_records sound tracked low nonzero
  obtain ⟨head, same⟩ := recorded_clock s va tracked.head
  refine ⟨head, fun k hk => ?_, fun v below user present => ?_⟩
  · obtain ⟨_, same, _⟩ | ⟨j, _, slots, _⟩ := same
    · have same : (s.served va).proc.clock = s.proc.clock := same
      rw [same]
      exact tracked.aligned k hk
    · have slots : (s.served va).proc.clock = update s.proc.clock j (pgRoundDown va) := slots
      rw [slots]
      by_cases here : k = j
      · rw [here, update_self]
        exact pgRoundDown_mod va
      · rw [update_of_ne here]
        exact tracked.aligned k hk
  · rw [recrypt.sz] at below
    rw [recrypt.dir.user] at user
    obtain rfl | ⟨present, stays⟩ := (served_present filled v).mp present
    · exact mine
    · exact others v below user present stays

theorem access_tracked (sound : s.Sound) (tracked : s.proc.Tracked) (low : va < 2 ^ 32)
    (nonzero : s.proc.resident user va = none → vpn va ≠ 0) :
    Sat (access user va) s (fun _ t => t.proc.Tracked) (fun _ _ => True) := by
  refine (access_spec user s va).mono ?_ (fun _ _ _ => trivial)
  rintro f t (⟨_, rfl, _⟩ | ⟨fault, filled, opens, _, rfl, _⟩)
  · exact touched_tracked tracked
  · exact touched_tracked (served_tracked sound tracked low (nonzero fault) fault filled opens)

theorem load_tracked (sound : s.Sound) (tracked : s.proc.Tracked) (low : va < 2 ^ 32)
    (nonzero : s.proc.resident user va = none → vpn va ≠ 0) :
    Sat (load user va) s (fun _ t => t.proc.Tracked) (fun _ _ => True) := by
  rw [load, sat_bind]
  exact access_tracked sound tracked low nonzero

theorem store_tracked (sound : s.Sound) (tracked : s.proc.Tracked) (low : va < 2 ^ 32)
    (nonzero : s.proc.resident user va = none → vpn va ≠ 0) (b : UInt8) :
    Sat (store user va b) s (fun _ t => t.proc.Tracked) (fun _ _ => True) := by
  rw [store, sat_bind]
  exact access_tracked sound tracked low nonzero

end Access

theorem mencrypted_tracked {s : St} (tracked : s.proc.Tracked) (va : Nat) (len : Int) :
    (s.mencrypted va len).proc.Tracked := by
  refine tracked.carry (mencrypted_clock s va len) (mencrypted_head s va len)
    fun v below user present => ?_
  rw [mencrypted_sz] at below
  obtain same | ⟨a, _, _, flat⟩ := mencrypted_flat s va len
  · rw [same] at user present
    exact ⟨below, user, present⟩
  · rw [flat] at user present
    by_cases here : v = vpn a
    · rw [here, update_self] at present
      simp at present
    · rw [update_of_ne here] at user present
      exact ⟨below, user, present⟩

section Grow
variable {s t : St} {n r : Int}

/-- The condition on a `growproc` that lets its loop reach every new page. -/
def reachesNew (sz : Nat) (n : Int) : Prop :=
  pgRoundUp (sz + n.toNat) ≤ pgRoundDown sz + pgRoundUp n.toNat

theorem swept_new {sz v : Nat} (reaches : reachesNew sz n) (user : sz + n.toNat < KERNBASE)
    (low : sz ≤ v * 4096) (high : v * 4096 < sz + n.toNat) :
    ∃ j < sweptPages n, v = vpn (sz + j * 4096) := by
  refine ⟨v - sz / 4096, ?_, ?_⟩
  · simp only [reachesNew, pgRoundUp, pgRoundDown, sweptPages, KERNBASE, PGSIZE, uint] at *
    omega
  · simp only [vpn, KERNBASE, PGSIZE] at *
    omega

/-- After the loop of `growproc` no new page is in the clear. -/
theorem grown_clear {m : Phys} {d : PgDir} {u : St} (sound : s.Sound)
    (user : s.proc.sz + n.toNat < KERNBASE) (reaches : reachesNew s.proc.sz n)
    (grown : Grown s.phys m s.proc.pgdir d (pgRoundUp s.proc.sz)
      (addedPages s.proc.sz (s.proc.sz + n.toNat)))
    (swept : Swept (s.withDir m d) u s.proc.sz (sweptPages n)) {v : Nat}
    (high : v * 4096 < s.proc.sz + n.toNat) (present : (u.proc.pgdir.flat v).has PTE_P = true) :
    v * 4096 < s.proc.sz ∧ u.proc.pgdir.flat v = s.proc.pgdir.flat v := by
  have size : s.proc.sz ≤ 2 ^ 31 := sound.size
  have round := le_pgRoundUp size
  have after := (swept.recrypt (grown.sound user sound)).sound (grown.sound user sound)
  have clear := (after.dir.tidy v).clear present
  by_cases low : v * 4096 < s.proc.sz
  · refine ⟨low, ?_⟩
    obtain same | ⟨_, _, _, sealed⟩ := swept.changed v
    · exact same.trans (grown.same v (by omega))
    · rw [sealed] at present
      simp at present
  · exfalso
    have added : pgRoundUp s.proc.sz ≤ v * 4096 ∧ v * 4096 < pgRoundUp s.proc.sz +
        addedPages s.proc.sz (s.proc.sz + n.toNat) * 4096 := by
      simp only [pgRoundUp, addedPages, PGSIZE, uint, KERNBASE] at *
      omega
    obtain ⟨_, f, _, entry, _⟩ := grown.fresh v added.1 added.2
    have usable : ((s.withDir m d).proc.pgdir.flat v).usable = true := by
      change (d.flat v).usable = true
      rw [entry]
      simp [Pte.usable, Pte.mapped, userPte_has]
    rw [swept.sealed v (swept_new reaches user (by omega) high) usable] at clear
    cases clear

theorem Resize.tracked (resize : Resize s n r t) (sound : s.Sound) (tracked : s.proc.Tracked)
    (reaches : 0 < n → reachesNew s.proc.sz n) : t.proc.Tracked := by
  cases resize with
  | grow positive user grown swept =>
    refine tracked.carry swept.clock swept.head fun v below open_ present => ?_
    obtain ⟨low, same⟩ := grown_clear sound user (reaches positive) grown swept below present
    exact ⟨low, by rw [← same]; exact open_, by rw [← same]; exact present⟩
  | short _ ungrown =>
    refine tracked.carry rfl rfl fun v below user present => ⟨below, ?_⟩
    obtain same | ⟨zero, _⟩ := ungrown.pages v
    · exact ⟨by rw [← same]; exact user, by rw [← same]; exact present⟩
    · have present : (_ : Pte).has PTE_P = true := zero ▸ present
      simp at present
  | shrink _ value _ shrunk =>
    refine tracked.carry rfl rfl fun v below user present => ?_
    have same := shrunk.kept (Pte.mapped_of_present present)
    exact ⟨lt_of_lt_of_le below (by simp only [St.resized]; omega), by rw [← same]; exact user,
      by rw [← same]; exact present⟩
  | drop _ _ shrunk =>
    refine tracked.carry rfl rfl fun v below user present => ⟨below, ?_⟩
    have same := shrunk.kept (Pte.mapped_of_present present)
    exact ⟨by rw [← same]; exact user, by rw [← same]; exact present⟩
  | stay => exact tracked.carry rfl rfl fun v below user present => ⟨below, user, present⟩
  | none => exact tracked

end Grow

theorem Proc.Tracked.child {p : Proc} {m m' : Phys} {d : PgDir} (tracked : p.Tracked)
    (space : ChildSpace m m' p.pgdir d p.sz) : (p.child d).Tracked := by
  have slots : ∀ k < CLOCKSIZE, (p.child d).clock k = p.clock k :=
    fun k hk => forkClock_slot p.head p.clock hk
  refine ⟨tracked.head, fun k hk => by rw [slots k hk]; exact tracked.aligned k hk,
    fun v below user present => ?_⟩
  obtain ⟨_, f, _, copy, _⟩ := space.pages v below
  have flags : ∀ bit, ((p.child d).pgdir.flat v).has bit = (p.pgdir.flat v).has bit := by
    intro bit
    change (d.flat v).has bit = _
    rw [copy]
    rfl
  rw [flags] at user present
  obtain ⟨nonzero, k, hk, slot⟩ := tracked.recorded v below user present
  exact ⟨nonzero, k, hk, by rw [slots k hk, slot]⟩

/-- After an `exec` only the first page of the image and the stack are encrypted. -/
theorem Loaded.tracked {t : St} {n : Nat} (loaded : Loaded t n) (dir : t.proc.pgdir.Sound)
    (small : n ≤ 1) : t.proc.Tracked := by
  refine ⟨by rw [loaded.head]; decide, fun k _ => by rw [loaded.clock k]; rfl,
    fun v below user present => ?_⟩
  exfalso
  have clear := (dir.tidy v).clear present
  rw [loaded.sz] at below
  by_cases image : v < n
  · rw [((loaded.text v image).2).mpr (by omega)] at clear
    cases clear
  · by_cases guard : v = n
    · rw [guard, loaded.guard] at user
      cases user
    · obtain rfl : v = n + 1 := by omega
      rw [loaded.stack] at clear
      cases clear

/-- The events the working set is about: an `exec` succeeds or ends the process, and
the kernel does not write to the process by itself. -/
def Event.plainCall (e : Event) : Prop :=
  match e.call with
  | .exec _ _ _ => e.result ≠ some (-1)
  | .pipe _ => False
  | _ => True

/-- The event records what it lets into the clear: no page fault on page 0, a
`growproc` whose loop reaches every new page, and at most one page in the image that an
`exec` puts in place. -/
def Event.tracks (s : Sys) (e : Event) : Prop :=
  let st := s.view e.proc
  match e.call with
  | .load va => st.proc.resident true va.toNat = none → vpn va.toNat ≠ 0
  | .store va _ => st.proc.resident true va.toNat = none → vpn va.toNat ≠ 0
  | .growproc n => 0 < n.toInt → reachesNew st.proc.sz n.toInt
  | .exec namei path _ => e.result = some 0 → ∀ n ip, st.IsStr path.toNat n →
      namei (st.text path.toNat 0 n) = some ip → ip.imagePages ≤ 1
  | _ => True

section Run
variable {pool lost : Multiset Nat} {s t : Sys} {i : Nat}

theorem Outcome.tracked {call : Call} {r : Option Int} (outcome : Outcome i s call r t)
    (owned : s.Owned pool lost) (hi : i < NPROC) (live : (s.slots i).state.live = true)
    (plain : Event.plainCall ⟨i, call, r⟩) (tracks : Event.tracks s ⟨i, call, r⟩)
    (each : s.Each Proc.Tracked) : t.Each Proc.Tracked := by
  have sound := owned.view hi (live_used live)
  have mine : (s.view i).proc.Tracked := each i hi live
  cases outcome with
  | @load va b st run => exact each.put ((load_tracked sound mine va.isLt tracks).of_ok run)
  | @store va b st run => exact each.put ((store_tracked sound mine va.isLt tracks b).of_ok run)
  | mencrypt => exact each.put (mencrypted_tracked mine _ _)
  | growproc resize => exact each.put (resize.tracked sound mine tracks)
  | exec done =>
    obtain ⟨rfl, _⟩ | ⟨rfl, settles, n, ip, str, found, loaded⟩ := done
    · exact absurd rfl plain
    · exact each.put (loaded.tracked settles.dir (tracks rfl n ip str found))
  | unforked failed => exact each.unforked failed
  | forked _ forked => exact each.forked forked fun d space => mine.child space
  | waited => exact each
  | reaped _ reaped => exact each.reaped reaped
  | piped => exact plain.elim
  | closed step => exact each.fileStep step
  | ended files _ _ exited => exact each.ended files exited

theorem step_tracked (pool : Multiset Nat) :
    Transition.Keeps (Transition.restrict Step fun s e => e.plainCall ∧ e.tracks s) fun s =>
      (∃ lost, s.Owned pool lost) ∧ s.Each Proc.Tracked := by
  rintro s e t ⟨⟨plain, tracks⟩, step⟩ ⟨⟨lost, owned⟩, each⟩
  exact ⟨step_owned pool s e t step ⟨lost, owned⟩,
    (step.outcome owned).tracked owned step.1 step.2.1 plain tracks each⟩

/-- In every run whose events record what they let into the clear, each page of a
process in the clear is in its clock, and there are at most `CLOCKSIZE` of them. -/
theorem working_set_bounded {es : List Event} (owned : s.Owned pool lost)
    (start : s.Each Proc.Tracked)
    (run : Transition.Run (Transition.restrict Step fun s e => e.plainCall ∧ e.tracks s) s es t) :
    t.Each fun p => (∀ v, v * 4096 < p.sz → (p.pgdir.flat v).has PTE_U = true →
      (p.pgdir.flat v).has PTE_P = true → p.Records v) ∧ p.decrypted.card ≤ CLOCKSIZE := by
  obtain ⟨_, each⟩ := run.kept (step_tracked pool) ⟨⟨lost, owned⟩, start⟩
  exact fun i hi live => ⟨(each i hi live).recorded, (each i hi live).card⟩

end Run

theorem elevenPageSys_tracked : elevenPageSys.Each Proc.Tracked := by
  intro i hi live
  by_cases first : i = 0
  · subst first
    refine ⟨by decide, fun k _ => rfl, fun v below user present => ?_⟩
    change ((PgDir.single 1001 1002 elevenPages).flat v).has PTE_P = true at present
    rw [PgDir.single_flat] at present
    exfalso
    split at present
    · unfold elevenPages at present
      split at present
      · simp at present
      · simp at present
    · simp at present
  · have idle : (elevenPageSys.slots i).state = .UNUSED := by
      simp [elevenPageSys, Sys.solo, first]
    rw [idle] at live
    cases live

/-- The process uses a page and grows by a page. -/
theorem used_and_grown_bounded :
    ∃ t, Transition.Run (Transition.restrict Step fun s e => e.plainCall ∧ e.tracks s)
        elevenPageSys [⟨0, .load 0x1004, some 97⟩, ⟨0, .growproc 0x1000, some 0⟩] t ∧
      (t.slots 0).proc.decrypted.card ≤ CLOCKSIZE := by
  have owned := elevenPages_small.owned (m := elevenPageSys.phys)
    (p := (elevenPageSys.slots 0).proc) rfl rfl (by omega) (by decide)
  obtain ⟨s, is⟩ : ∃ s, s = after 0 (.load 0x1004) elevenPageSys := ⟨_, rfl⟩
  obtain ⟨t, is'⟩ : ∃ t, t = after 0 (.growproc 0x1000) s := ⟨_, rfl⟩
  have first : Step elevenPageSys ⟨0, .load 0x1004, some 97⟩ s := by
    rw [is]
    exact step_after (by decide) (by decide) (by decide +kernel)
  have second : Step s ⟨0, .growproc 0x1000, some 0⟩ t := by
    rw [is']
    exact step_after (by decide) (by rw [is]; decide +kernel) (by rw [is]; decide +kernel)
  have reaches : reachesNew (s.slots 0).proc.sz (0x1000 : BitVec 32).toInt := by
    rw [is]
    unfold reachesNew
    decide +kernel
  have live : (t.slots 0).state.live = true := by
    rw [is', is]
    decide +kernel
  have run : Transition.Run (Transition.restrict Step fun s e => e.plainCall ∧ e.tracks s)
      elevenPageSys [⟨0, .load 0x1004, some 97⟩, ⟨0, .growproc 0x1000, some 0⟩] t :=
    .next ⟨⟨trivial, fun _ => by decide⟩, first⟩
      (.next ⟨⟨trivial, fun _ => reaches⟩, second⟩ (.refl _))
  exact ⟨t, run, (working_set_bounded owned elevenPageSys_tracked run 0 (by decide) live).2⟩

/-- The process grows by half a page and then by a page: the last page is in the
clear and not in the clock. -/
theorem ragged_growth_untracked :
    elevenPageSys.Each Proc.Tracked ∧
    allReturn [.growproc 0x800, .growproc 0x1000] elevenPageSys = true ∧
    12 * 4096 < ((afterAll [.growproc 0x800, .growproc 0x1000] elevenPageSys).slots 0).proc.sz ∧
    (((afterAll [.growproc 0x800, .growproc 0x1000] elevenPageSys).slots 0).proc.pgdir.flat 12).has
      PTE_U = true ∧
    (((afterAll [.growproc 0x800, .growproc 0x1000] elevenPageSys).slots 0).proc.pgdir.flat 12).has
      PTE_P = true ∧
    ∀ k < CLOCKSIZE,
      ((afterAll [.growproc 0x800, .growproc 0x1000] elevenPageSys).slots 0).proc.clock k = 0 := by
  refine ⟨elevenPageSys_tracked, ?_⟩
  decide +kernel

end Xv6
