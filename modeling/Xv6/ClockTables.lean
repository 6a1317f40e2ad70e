import Xv6.TableGrowth
import Xv6.ForkReturns
import Xv6.GrownPages
import Xv6.Clock

/-! The page tables behind the clock. `addClock` follows the page table of its oldest
entry without a check. A table, once there, stays for the life of the address space,
so an entry of the clock has its table; but a child has tables only for the pages below
the size, and its clock is a copy of the parent's. -/
namespace Xv6
open PteBit Control
open Function (update update_idem update_of_ne update_self)

/-- Every entry of the clock is a user address that has its page table. -/
structure Proc.Tabled (p : Proc) : Prop where
  head : p.head < CLOCKSIZE
  low : ∀ k < CLOCKSIZE, p.clock k < KERNBASE
  table : ∀ k < CLOCKSIZE, p.clock k ≠ 0 → (walkpgdir p.pgdir (p.clock k)).isSome

namespace Proc.Tabled
variable {p q : Proc}

theorem carry (tabled : p.Tabled) (clock : q.clock = p.clock) (head : q.head < CLOCKSIZE)
    (widens : p.pgdir.Widens q.pgdir fun _ => True) : q.Tabled := by
  refine ⟨head, by rw [clock]; exact tabled.low, fun k hk filled => ?_⟩
  rw [clock] at filled ⊢
  exact widens.walk (tabled.table k hk filled)

end Proc.Tabled

theorem Remarks.widens {d d' : PgDir} (remarks : Remarks d d') (J : Nat → Prop) : d.Widens d' J := by
  refine .same J fun j => ?_
  have same := congrArg Option.isSome (remarks.tabs j)
  rwa [Option.isSome_map, Option.isSome_map] at same

section Access
variable {s : St} {user : Bool} {va : Nat}

theorem served_tabled (sound : s.Sound) (tabled : s.proc.Tabled) (word : va < 2 ^ 32)
    (fault : s.proc.resident user va = none) (filled : s.proc.pgdir.flat (vpn va) ≠ .zero)
    (opens : s.Opens va) : (s.served va).proc.Tabled := by
  have recrypt := Recrypt.served sound fault filled opens
  have widens := recrypt.dir.widens fun _ => True
  obtain ⟨mapped, user⟩ := Pte.usable_iff.mp (fault_usable sound filled opens)
  have half : vpn va < 2 ^ 19 := by
    by_contra kernel
    rw [sound.dir.guarded _ (by omega)] at user
    cases user
  obtain ⟨head, ⟨_, same, _⟩ | ⟨k, _, slots, _⟩⟩ := recorded_clock s va tabled.head
  · exact tabled.carry same head widens
  · have slots : (s.served va).proc.clock = update s.proc.clock k (pgRoundDown va) := slots
    refine ⟨head, fun j hj => ?_, fun j hj filled => ?_⟩
    · rw [slots]
      by_cases here : j = k
      · rw [here, update_self]
        simp only [vpn, pgRoundDown, PGSIZE, KERNBASE] at half ⊢
        omega
      · rw [update_of_ne here]
        exact tabled.low j hj
    · rw [slots] at filled ⊢
      by_cases here : j = k
      · rw [here, update_self]
        apply widens.walk
        rw [PgDir.walk_congr _ (vpn_pgRoundDown va), PgDir.walk_of_mapped mapped]
        rfl
      · rw [update_of_ne here] at filled ⊢
        exact widens.walk (tabled.table j hj filled)

theorem access_tabled (sound : s.Sound) (tabled : s.proc.Tabled) (word : va < 2 ^ 32) :
    Sat (access user va) s (fun _ t => t.proc.Tabled) (fun _ _ => True) := by
  refine (access_spec user s va).mono ?_ (fun _ _ _ => trivial)
  have touched : ∀ u : St, u.proc.Tabled → (u.touched va).proc.Tabled := fun u tabled =>
    tabled.carry rfl tabled.head (.setPte _ _ _ _)
  rintro f t (⟨_, rfl, _⟩ | ⟨fault, filled, opens, _, rfl, _⟩)
  · exact touched s tabled
  · exact touched _ (served_tabled sound tabled word fault filled opens)

theorem load_tabled (sound : s.Sound) (tabled : s.proc.Tabled) (word : va < 2 ^ 32) :
    Sat (load user va) s (fun _ t => t.proc.Tabled) (fun _ _ => True) := by
  rw [load, sat_bind]
  exact access_tabled sound tabled word

theorem store_tabled (sound : s.Sound) (tabled : s.proc.Tabled) (word : va < 2 ^ 32) (b : UInt8) :
    Sat (store user va b) s (fun _ t => t.proc.Tabled) (fun _ _ => True) := by
  rw [store, sat_bind]
  exact access_tabled sound tabled word

theorem Visits.tabled {p q : Proc} (visits : Visits p q) (tabled : p.Tabled) : q.Tabled := by
  induction visits with
  | refl => exact tabled
  | rewind _ ih => exact ih.carry rfl (Nat.zero_lt_succ _) (.refl _ _)
  | access _ sound low run ih => exact (access_tabled sound ih low).of_ok run

end Access

/-- The child gets a table for every entry of the clock: its region of 4 MB starts below
the size. -/
def Proc.Covers (p : Proc) : Prop :=
  ∀ k < CLOCKSIZE, p.clock k ≠ 0 → pdx (p.clock k) * 2 ^ 22 < p.sz

theorem Proc.Tabled.child {p : Proc} {m m' : Phys} {d : PgDir} (tabled : p.Tabled)
    (covers : p.Covers) (space : ChildSpace m m' p.pgdir d p.sz) : (p.child d).Tabled := by
  have slots : ∀ k < CLOCKSIZE, (p.child d).clock k = p.clock k :=
    fun k hk => forkClock_slot p.head p.clock hk
  refine ⟨tabled.head, fun k hk => by rw [slots k hk]; exact tabled.low k hk, fun k hk filled => ?_⟩
  rw [slots k hk] at filled ⊢
  -- The first page of the region is copied, so its table is there.
  have low : pdx (p.clock k) * 1024 * 4096 < p.sz := by
    rw [Nat.mul_assoc]
    exact covers k hk filled
  obtain ⟨mapped, f, _, copy, _⟩ := space.pages _ low
  change (walkpgdir d (p.clock k)).isSome
  have present : (d.flat (pdx (p.clock k) * 1024)).mapped = true := by
    rw [copy]
    exact mapped
  rw [walkpgdir, Option.isSome_map]
  by_contra absent
  have zero : d.flat (pdx (p.clock k) * 1024) = .zero := by
    rw [PgDir.flat, Nat.mul_div_cancel _ (by decide), Option.not_isSome_iff_eq_none.mp absent]
  rw [zero, Pte.zero_mapped] at present
  cases present

theorem Loaded.tabled {t : St} {n : Nat} (loaded : Loaded t n) : t.proc.Tabled := by
  refine ⟨by rw [loaded.head]; decide, fun k _ => by rw [loaded.clock k]; decide,
    fun k _ filled => absurd (loaded.clock k) filled⟩

/-- A `fork` gives the child the tables of its clock. -/
def Event.coversClock (s : Sys) (e : Event) : Prop :=
  match e.call with
  | .fork => (s.slots e.proc).proc.Covers
  | _ => True

section Run
variable {pool lost : Multiset Nat} {s t : Sys} {i : Nat}

theorem perform_widens (size : (s.slots i).proc.sz ≤ KERNBASE) (n : BitVec 32) :
    Sat (perform i (.growproc n)) s (fun _ t =>
      (s.slots i).proc.pgdir.Widens (t.slots i).proc.pgdir fun _ => True) (fun _ _ => True) := by
  rw [perform, sat_tryCatch, sat_bind]
  change Sat (onProc i (growproc n.toInt)) s _ _
  rw [onProc, sat_zoom]
  refine (growproc_widens (s := s.view i) (J := fun _ => True) size fun _ _ => trivial).mono
    (fun r st widens => ?_) (fun e st quiet => ?_)
  · have proc : ((s.put i st).slots i).proc = st.proc := congrArg St.proc (s.view_put i st)
    change (s.slots i).proc.pgdir.Widens ((s.put i st).slots i).proc.pgdir _
    rw [proc]
    exact widens
  · cases e with
    | exit => exact absurd rfl quiet
    | _ => trivial

theorem Outcome.tabled {call : Call} {r : Option Int} (outcome : Outcome i s call r t)
    (owned : s.Owned pool lost) (hi : i < NPROC) (live : (s.slots i).state.live = true)
    (covers : Event.coversClock s ⟨i, call, r⟩)
    (grows : ∀ n, call = .growproc n →
      (s.slots i).proc.pgdir.Widens (t.slots i).proc.pgdir fun _ => True)
    (each : s.Each Proc.Tabled) : t.Each Proc.Tabled := by
  have sound := owned.view hi (live_used live)
  have mine : (s.view i).proc.Tabled := each i hi live
  cases outcome with
  | @load va b st run => exact each.put ((load_tabled sound mine va.isLt).of_ok run)
  | @store va b st run => exact each.put ((store_tabled sound mine va.isLt b).of_ok run)
  | mencrypt =>
    refine each.put (mine.carry (mencrypted_clock _ _ _) ?_ (.same _ (mencrypted_tabs _ _ _)))
    rw [mencrypted_head]
    exact mine.head
  | @growproc n r st resize =>
    have proc : ((s.put i st).slots i).proc = st.proc := congrArg St.proc (s.view_put i st)
    have widens := grows n rfl
    rw [proc] at widens
    have clock : st.proc.clock = (s.view i).proc.clock ∧ st.proc.head = (s.view i).proc.head := by
      cases resize with
      | grow _ _ _ swept => exact ⟨swept.clock, swept.head⟩
      | _ => exact ⟨rfl, rfl⟩
    exact each.put (mine.carry clock.1 (by rw [clock.2]; exact mine.head) widens)
  | exec done =>
    obtain ⟨_, w⟩ | ⟨_, _, _, _, _, _, loaded⟩ := done
    · exact each.put (w.trail.tabled mine)
    · exact each.put loaded.tabled
  | unforked failed => exact each.unforked failed
  | forked _ forked => exact each.forked forked fun d space => mine.child covers space
  | waited => exact each
  | reaped _ reaped => exact each.reaped reaped
  | piped piped =>
    obtain ⟨u, st, files, _, visits, rfl⟩ := piped
    have view : (u.view i).proc = (s.view i).proc := files.proc i
    rw [view] at visits
    exact (each.fileStep files).put (visits.tabled mine)
  | closed step => exact each.fileStep step
  | ended files _ _ exited => exact each.ended files exited

theorem step_tabled (pool : Multiset Nat) :
    Transition.Keeps (Transition.restrict Step Event.coversClock) fun s =>
      (∃ lost, s.Owned pool lost) ∧ s.Each Proc.Tabled := by
  rintro s e t ⟨covers, step⟩ ⟨⟨lost, owned⟩, each⟩
  refine ⟨step_owned pool s e t step ⟨lost, owned⟩,
    (step.outcome owned).tabled owned step.1 step.2.1 covers (fun n is => ?_) each⟩
  have run := step.2.2
  rw [is] at run
  exact (perform_widens (owned.dirs _ step.1 (live_used step.2.1)).2 n).of_ok run

theorem forkSpace_tables (size : (s.slots i).proc.sz ≤ KERNBASE)
    (used : (s.slots i).state ≠ .UNUSED) :
    Sat (forkSpace i) s (fun r t => ∀ np, r = some np → ∀ j < 512,
      (s.slots i).proc.sz ≤ j * 2 ^ 22 → (t.slots np).proc.pgdir.tabs j = none) noExit := by
  rw [forkSpace]
  refine .bind (allocproc_spec s) fun r t taken => ?_
  cases r with
  | none => exact fun np is => by cases is
  | some np =>
    obtain ⟨_, unused, f, m, _, _, _, rfl⟩ := taken
    have ne : i ≠ np := by
      rintro rfl
      exact used unused
    dsimp only
    rw [sat_bind, sat_get]
    dsimp only
    rw [update_of_ne ne, sat_bind, sysPhys, sat_zoom]
    refine (copyuvm_tables size).imp (fun r m' tables => ?_)
    cases r with
    | none =>
      dsimp only
      rw [sat_bind, sat_get]
      refine .bind (freeStack_spec _ _) fun _ _ _ => ?_
      simp only [sat_bind, modifySlot, sat_modify, sat_pure]
      exact fun np is => by cases is
    | some d =>
      simp only [sat_bind, modifySlot, sat_modify, sat_pure]
      intro np' is
      cases is
      simp only [Sys.setSlot, update_self]
      exact tables d rfl

/-- A child has no table for a region above the size of its parent. -/
theorem fork_tables (owned : s.Owned pool lost) (hi : i < NPROC)
    (used : (s.slots i).state ≠ .UNUSED) :
    Sat (fork i) s (fun _ t => ∀ np, (s.slots np).state = .UNUSED →
      (t.slots np).state.live = true → ∀ j < 512, (s.slots i).proc.sz ≤ j * 2 ^ 22 →
        (t.slots np).proc.pgdir.tabs j = none) noExit := by
  have dead : ∀ {slot : Slot}, slot.state = .UNUSED → slot.state.live ≠ true := by
    intro slot unused
    rw [unused]
    decide
  rw [fork_eq]
  refine .seq ((forkSpace_spec owned hi used).and
    (forkSpace_tables (owned.dirs i hi used).2 used)) (fun r t made => ?_)
    (fun _ _ stop => stop.1)
  cases r with
  | none =>
    intro np unused live
    rw [← made.1.state np] at unused
    exact absurd live (dead unused)
  | some child =>
    obtain ⟨⟨_, spaced⟩, tables⟩ := made
    dsimp only
    refine .bind (dupFiles_spec (owned.files.congr spaced.files spaced.pipes) i child NOFILE) ?_
    rintro _ u ⟨step, _, _⟩
    simp only [sat_bind, modifySlot, sat_modify, sat_get, sat_pure]
    intro np unused live
    by_cases here : np = child
    · subst here
      simp only [Sys.setSlot, update_self, step.proc np]
      exact tables np rfl
    · simp only [Sys.setSlot, update_of_ne here] at live
      rw [← spaced.other np here, ← step.state np] at unused
      exact absurd live (dead unused)

/-- The slot in which a `fork` has made a process holds the child. It has no table above
the size. -/
theorem forked_child (owned : s.Owned pool lost) {r : Option Int} (step : Step s ⟨i, .fork, r⟩ t)
    {np : Nat} (unused : (s.slots np).state = .UNUSED) (born : (t.slots np).state.live = true) :
    ∃ d, (t.slots np).proc = (s.slots i).proc.child d ∧
      ChildSpace s.phys t.phys (s.slots i).proc.pgdir d (s.slots i).proc.sz ∧
      ∀ j < 512, (s.slots i).proc.sz ≤ j * 2 ^ 22 → d.tabs j = none := by
  obtain ⟨hi, live, run⟩ := step
  have performed : Sat (perform i .fork) s (fun r t => r.isSome ∧
      ∀ j < 512, (s.slots i).proc.sz ≤ j * 2 ^ 22 → (t.slots np).state.live = true →
        (t.slots np).proc.pgdir.tabs j = none) (fun _ _ => True) := by
    rw [perform, sat_tryCatch, sat_bind]
    change Sat (fork i) s _ _
    refine (fork_tables owned hi (live_used live)).mono
      (fun r t tables => ⟨rfl, fun j low above live => ?_⟩) (fun e st quiet => ?_)
    · exact tables np unused live j low above
    · cases e with
      | exit => exact absurd rfl quiet
      | _ => trivial
  obtain ⟨returned, tables⟩ := performed.of_ok run
  have outcome := (perform_outcome owned hi live .fork).of_ok run
  cases outcome with
  | unforked failed =>
    rw [failed.state np, unused] at born
    cases born
  | @forked child r t hn forked =>
    have here : np = child := by
      by_contra other
      rw [forked.state np other, unused] at born
      cases born
    subst here
    obtain ⟨d, proc, space⟩ := forked.child
    refine ⟨d, proc, space, fun j low above => ?_⟩
    have missing := tables j low above born
    rw [proc] at missing
    exact missing
  | ended => cases returned

/-- The child of a process whose clock has its tables has the tables of its own clock
exactly when the regions of the entries start below the size. -/
theorem forked_tabled_iff (owned : s.Owned pool lost) (tabled : (s.slots i).proc.Tabled)
    {r : Option Int} (step : Step s ⟨i, .fork, r⟩ t) {np : Nat}
    (unused : (s.slots np).state = .UNUSED) (born : (t.slots np).state.live = true) :
    (t.slots np).proc.Tabled ↔ (s.slots i).proc.Covers := by
  obtain ⟨d, proc, space, tables⟩ := forked_child owned step unused born
  rw [proc]
  constructor
  · intro child k hk filled
    have slot : ((s.slots i).proc.child d).clock k = (s.slots i).proc.clock k :=
      forkClock_slot _ _ hk
    have table := child.table k hk (by rw [slot]; exact filled)
    rw [slot, walkpgdir, Option.isSome_map] at table
    change (d.tabs _).isSome at table
    by_contra above
    have low : pdx ((s.slots i).proc.clock k) < 512 := by
      have low := tabled.low k hk
      simp only [KERNBASE] at low
      simp only [pdx]
      omega
    rw [tables _ low (by omega)] at table
    cases table
  · intro covers
    exact tabled.child covers space

end Run

theorem emptySlot_full {p : Proc} (full : ∀ k < CLOCKSIZE, p.clock k ≠ 0) :
    emptySlot p = none := by
  rw [emptySlot, List.find?_eq_none]
  intro i _
  simpa using full (i % CLOCKSIZE) (Nat.mod_lt _ (by decide))

/-- In every run in which a `fork` gives the child the tables of its clock, and no call reads an
entry through a null pointer, `addClock` finds the table of the entry it looks at. In any state it
misses the table exactly when the clock is full and the entry at `head` has none, and a child lacks
a table exactly when an entry of its parent's clock lies in a region of 4 MB above the size. -/
theorem eviction_tables (N : NullPte) {pool lost : Multiset Nat} {s₀ : Sys} (owned : s₀.Owned pool lost)
    (start : s₀.Each Proc.Tabled) {es : List Event} {s : Sys}
    (run : Transition.Run (Transition.restrict Step (clearly Event.coversClock)) s₀ es s) :
    (∀ i < NPROC, (s.slots i).state.live = true → ∀ va,
      (walkpgdir (s.slots i).proc.pgdir va).isSome →
        ∃ t, (@addClock .stop va).run (s.view i) = .ok () t) ∧
    (∀ (st : St) va, (walkpgdir st.proc.pgdir va).isSome →
      ((∃ t, (@addClock .stop va).run st = .error .nullPte t) ↔
        (∀ k < CLOCKSIZE, st.proc.clock k ≠ 0) ∧
          walkpgdir st.proc.pgdir (st.proc.clock st.proc.head) = none)) ∧
    ∀ i < NPROC, (s.slots i).state.live = true → ∀ r t, Step s ⟨i, .fork, r⟩ t →
      ∀ np, (s.slots np).state = .UNUSED → (t.slots np).state.live = true →
        ((t.slots np).proc.Tabled ↔ (s.slots i).proc.Covers) := by
  obtain ⟨⟨_, owned⟩, each⟩ := (run_clearly_iff.mp run).kept (step_tabled pool) ⟨⟨lost, owned⟩, start⟩
  refine ⟨fun i hi live va table => ?_, fun st va table => ?_,
    fun i hi live r t step np unused born => ?_⟩
  · have tabled := each i hi live
    cases ran : (@addClock .stop va).run (s.view i) with
    | ok r t => exact ⟨t, rfl⟩
    | error e t =>
      obtain ⟨_, none, missing⟩ := (addClock_spec table).of_error ran
      have there := tabled.table _ tabled.head (emptySlot_none none tabled.head)
      change walkpgdir (s.slots i).proc.pgdir _ = _ at missing
      rw [show (s.view i).proc = (s.slots i).proc from rfl] at missing
      rw [missing] at there
      cases there
  · constructor
    · rintro ⟨t, ran⟩
      obtain ⟨_, none, missing⟩ := (addClock_spec table).of_error ran
      exact ⟨fun k hk => emptySlot_none none hk, missing⟩
    · rintro ⟨full, missing⟩
      cases ran : (@addClock .stop va).run st with
      | ok r t =>
        have there := ((addClock_spec table).of_ok ran).2 (emptySlot_full full)
        rw [missing] at there
        cases there
      | error e t => exact ⟨t, by rw [((addClock_spec table).of_error ran).1]⟩
  · exact forked_tabled_iff owned (each i hi live) step unused born

/-- The process uses pages 1 to 8. Its clock is full, and page 9 takes the slot of the
oldest entry. -/
theorem full_clock_tabled :
    (∀ k < CLOCKSIZE, ((afterAll fillCalls elevenPageSys).slots 0).proc.clock k ≠ 0) ∧
      ∃ t, (addClock 0x9000).run ((afterAll fillCalls elevenPageSys).view 0) = .ok () t := by
  have full : ∀ k < CLOCKSIZE, ((afterAll fillCalls elevenPageSys).slots 0).proc.clock k ≠ 0 := by
    decide +kernel
  have live : ((afterAll fillCalls elevenPageSys).slots 0).state.live = true := by decide +kernel
  have table : (walkpgdir ((afterAll fillCalls elevenPageSys).slots 0).proc.pgdir 0x9000).isSome =
      true := by decide +kernel
  have start := elevenPages_small.owned (m := elevenPageSys.phys)
    (p := (elevenPageSys.slots 0).proc) rfl rfl (by omega) (by decide)
  have tabled : elevenPageSys.Each Proc.Tabled := fun i hi live =>
    ⟨Nat.zero_lt_succ _, fun k _ => (by decide : 0 < KERNBASE), fun k _ filled => absurd rfl filled⟩
  have run : Transition.Run (Transition.restrict Step Event.coversClock) elevenPageSys
      (eventsOf fillCalls elevenPageSys) (afterAll fillCalls elevenPageSys) := by
    refine run_of_allReturn (fun call member s r => ?_) (by decide +kernel)
    simp only [fillCalls, List.mem_cons, List.not_mem_nil, or_false] at member
    rcases member with rfl | rfl | rfl | rfl | rfl | rfl | rfl | rfl | rfl <;> trivial
  generalize afterAll fillCalls elevenPageSys = s at full live table run ⊢
  have tables := eviction_tables .userWord start tabled (run_clearly_iff.mpr run)
  exact ⟨full, tables.1 0 (by decide) live 0x9000 table⟩

section History
variable {s : St} {base k : Nat}

/-- Of eight zero pages from `base` on, the first `k` have been used, each for the first
time, and they fill the clock from its first slot on. No other page is present. -/
structure St.Using (s : St) (base k : Nat) : Prop where
  head : s.proc.head = k % CLOCKSIZE
  clock : ∀ j < CLOCKSIZE, s.proc.clock j = if j < k then (base + j) * 4096 else 0
  pages : ∀ j < CLOCKSIZE, (s.proc.pgdir.flat (base + j)).usable = true ∧
    s.plain (base + j) = Page.fill 0
  absent : ∀ v, ¬ (base ≤ v ∧ v < base + k) → (s.proc.pgdir.flat v).has PTE_P = false

theorem St.Using.recorded (before : s.Using base k) (positive : 0 < base) (hk : k < CLOCKSIZE) :
    s.recorded ((base + k) * 4096) = { s with
      proc := (s.proc.setClock k ((base + k) * 4096) ((k + 1) % CLOCKSIZE)).setPte
        ((base + k) * 4096) ((s.proc.pgdir.flat (vpn ((base + k) * 4096))).clear PTE_A) } := by
  have queued : inQ s.proc ((base + k) * 4096) = none := by
    rw [inQ, List.find?_eq_none]
    intro i member
    obtain ⟨j, _, rfl⟩ := List.mem_map.mp member
    rw [before.clock _ (Nat.mod_lt _ (by decide))]
    simp only [decide_eq_true_eq]
    split <;> omega
  have free : emptySlot s.proc = some (k + CLOCKSIZE) := by
    have slot : s.proc.clock ((s.proc.head + CLOCKSIZE - 0) % CLOCKSIZE) = 0 := by
      rw [before.head, Nat.mod_eq_of_lt hk, Nat.sub_zero, Nat.add_mod_right, Nat.mod_eq_of_lt hk,
        before.clock k hk, if_neg (by omega)]
    rw [emptySlot, CLOCKSIZE, List.range_succ_eq_map, List.map_cons, List.find?_cons_of_pos]
    · rw [before.head, Nat.mod_eq_of_lt hk]
      rfl
    · exact decide_eq_true slot
  have wraps : (k + CLOCKSIZE) % CLOCKSIZE = k := by
    rw [Nat.add_mod_right, Nat.mod_eq_of_lt hk]
  have next : (k + CLOCKSIZE + 1) % CLOCKSIZE = (k + 1) % CLOCKSIZE := by
    simp only [CLOCKSIZE]
    omega
  simp only [St.recorded, queued, Option.isNone_none, if_true, St.admitted, free, wraps, next]

theorem load_using (sound : s.Sound) (before : s.Using base k) (positive : 0 < base)
    (hk : k < CLOCKSIZE) (low : base + CLOCKSIZE ≤ 2 ^ 19) :
    Sat (load true ((base + k) * 4096)) s (fun _ t => t.Using base (k + 1) ∧ Recrypt s t)
      (fun _ _ => False) := by
  obtain ⟨va, is⟩ : ∃ va, va = (base + k) * 4096 := ⟨_, rfl⟩
  have page : vpn va = base + k := by
    simp only [vpn, PGSIZE, CLOCKSIZE] at *
    omega
  have recorded := before.recorded positive hk
  rw [← is] at recorded ⊢
  obtain ⟨usable, zero⟩ := before.pages k hk
  rw [← page] at usable zero
  obtain ⟨mapped, user⟩ := Pte.usable_iff.mp usable
  have away := before.absent (vpn va) (by omega)
  have coded : (s.proc.pgdir.flat (vpn va)).has PTE_E = true := by
    simpa [Pte.mapped, away] using mapped
  have marks := (Recrypt.recorded sound va).dir
  have opens : s.Opens va := by
    refine ⟨by rw [marks.user]; exact user, ?_⟩
    rw [marks.ppn, show (s.recorded va).phys = s.phys by rw [recorded],
      St.bytes_of_plain_zero coded zero]
    decide
  have free : ¬ s.Stuck va := by
    rintro ⟨_, full, _⟩
    refine emptySlot_none full hk ?_
    rw [before.clock k hk, if_neg (by omega)]
  have filled := Pte.mapped_ne_zero mapped
  have clock : ((s.served va).touched va).proc.clock = update s.proc.clock k va := by
    have slots : (s.recorded va).proc.clock = update s.proc.clock k (pgRoundDown va) :=
      congrArg (fun s => s.proc.clock) recorded
    have whole : pgRoundDown va = va := pgRoundDown_of_aligned (by omega)
    rw [whole] at slots
    exact slots
  have head : ((s.served va).touched va).proc.head = (k + 1) % CLOCKSIZE :=
    congrArg (fun s => s.proc.head) recorded
  refine ((load_spec sound true va).and (show Sat (load true va) s (fun _ t =>
    t = (s.served va).touched va) (fun _ _ => False) from ?_)).mono ?_ (fun _ _ stop => stop.2)
  · rw [load]
    refine .seq (access_spec true s va) ?_ ?_
    · rintro f t (⟨resident, _⟩ | ⟨_, _, _, _, rfl, _⟩)
      · rw [Proc.resident, PgDir.walk_of_mapped mapped] at resident
        simp [away] at resident
      · rfl
    · rintro e t ⟨_, ⟨_, stuck⟩ | ⟨_, ⟨empty, _⟩ | ⟨_, shut, _⟩⟩⟩
      · exact free stuck
      · exact filled empty
      · exact shut opens
  · rintro b t ⟨⟨recrypt, _⟩, rfl⟩
    refine ⟨⟨head, fun j hj => ?_, fun j hj => ?_, fun v outside => ?_⟩, recrypt⟩
    · rw [clock]
      by_cases here : j = k
      · rw [here, update_self, if_pos (by omega), is]
      · rw [update_of_ne here, before.clock j hj]
        by_cases earlier : j < k
        · rw [if_pos earlier, if_pos (by omega)]
        · rw [if_neg earlier, if_neg (by omega)]
    · obtain ⟨usable, zero⟩ := before.pages j hj
      obtain ⟨mapped, user⟩ := Pte.usable_iff.mp usable
      refine ⟨Pte.usable_iff.mpr ⟨?_, ?_⟩, ?_⟩
      · rw [recrypt.dir.mapped]
        exact mapped
      · rw [recrypt.dir.user]
        exact user
      · rw [recrypt.plain _ (by omega) mapped]
        exact zero
    · rw [touched_has _ _ _ (by decide)]
      by_contra present
      rw [Bool.not_eq_false, served_present filled] at present
      obtain rfl | ⟨present, _⟩ := present
      · omega
      · rw [before.absent v (by omega)] at present
        cases present

theorem step_own {s : Sys} {i : Nat} (call : Call) {α : Type} {k : K α} {f : α → Int}
    (body : call.body i = f <$> onProc i k) (hi : i < NPROC)
    (live : (s.slots i).state.live = true) {r : α} {st : St}
    (run : k.run (s.view i) = .ok r st) : Step s ⟨i, call, some (f r)⟩ (s.put i st) := by
  have done : Sat (perform i call) s (fun a t => a = some (f r) ∧ t = s.put i st)
      (fun _ _ => False) := by
    rw [perform, sat_tryCatch, sat_bind, body, sat_map, onProc, sat_zoom]
    unfold Sat
    rw [run]
    exact ⟨rfl, rfl⟩
  obtain ⟨_, _, run, rfl, rfl⟩ := done.returns
  exact ⟨hi, live, run⟩

theorem Sys.put_put (s : Sys) (i : Nat) (st st' : St) : (s.put i st).put i st' = s.put i st' := by
  simp only [Sys.put, Sys.setSlot, update_self, update_idem]

/-- One load after the other, the process uses the eight pages. -/
theorem using_run {s : Sys} {i : Nat} (hi : i < NPROC) (live : (s.slots i).state.live = true)
    (sound : (s.view i).Sound) (start : (s.view i).Using base 0) (positive : 0 < base)
    (low : base + CLOCKSIZE ≤ 2 ^ 19) (k : Nat) (hk : k ≤ CLOCKSIZE) :
    ∃ es st, Transition.Run Step s es (s.put i st) ∧ st.Using base k ∧ Recrypt (s.view i) st := by
  induction k with
  | zero =>
    refine ⟨[], s.view i, ?_, start, .refl _⟩
    rw [s.put_view]
    exact .refl s
  | succ k ih =>
    obtain ⟨es, st, run, before, recrypt⟩ := ih (by omega)
    obtain ⟨b, u, loaded, after, again⟩ :=
      (load_using (recrypt.sound sound) before positive (by omega) low).returns
    have word : (BitVec.ofNat 32 ((base + k) * 4096)).toNat = (base + k) * 4096 := by
      rw [BitVec.toNat_ofNat, Nat.mod_eq_of_lt]
      simp only [CLOCKSIZE] at *
      omega
    have step := step_own (s := s.put i st) (.load (BitVec.ofNat 32 ((base + k) * 4096)))
      (k := load true (BitVec.ofNat 32 ((base + k) * 4096)).toNat) (f := fun b => b.toNat) rfl hi
      (by rw [s.put_state]; exact live) (r := b) (by rw [s.view_put, word]; exact loaded)
    rw [s.put_put] at step
    exact ⟨_, u, run.append (.next step (.refl _)), after, recrypt.trans again⟩

end History

/-- A fault that finds the clock full and no table for its oldest entry. -/
theorem load_stuck {s : St} {va : Nat} (stuck : s.Stuck va)
    (mapped : (s.proc.pgdir.flat (vpn va)).mapped = true)
    (away : (s.proc.pgdir.flat (vpn va)).has PTE_P = false) :
    Sat (load true va) s (fun _ _ => False) (fun e _ => e = .nullPte) := by
  have walk := PgDir.walk_of_mapped mapped
  have absent : s.proc.resident true va = none := by
    rw [Proc.resident, walk]
    simp [away]
  rw [load, sat_bind, access, sat_bind, sat_get, absent]
  dsimp only
  rw [sat_bind, trapPgflt, sat_bind]
  exact (mdecrypt_spec walk (Pte.mapped_ne_zero mapped)).mono
    (fun r t done => absurd stuck done.1) (fun e _ failed => failed.1)

/-- The clock of a process is full, and its oldest entry lies in a region of 4 MB above
the size. A `fork` that has the memory it needs gives a child whose first fault makes
the kernel follow a null pointer. -/
theorem fork_stuck {pool lost : Multiset Nat} {s : Sys} {i np : Nat} (va : Nat)
    (owned : s.Owned pool lost) (hi : i < NPROC) (live : (s.slots i).state.live = true) (hn : np < NPROC)
    (unused : (s.slots np).state = .UNUSED)
    (closed : ∀ fd < NOFILE, (s.slots i).ofile fd = none)
    (mapped : ∀ v, v * 4096 < (s.slots i).proc.sz → ((s.slots i).proc.pgdir.flat v).mapped = true)
    (enough : 1026 + ((s.slots i).proc.sz + 4095) / 4096 ≤ s.phys.freelist.length)
    (full : ∀ k < CLOCKSIZE, (s.slots i).proc.clock k ≠ 0 ∧ (s.slots i).proc.clock k ≠ va)
    (head : (s.slots i).proc.head < CLOCKSIZE)
    (low : (s.slots i).proc.clock (s.slots i).proc.head < KERNBASE)
    (above : (s.slots i).proc.sz ≤ pdx ((s.slots i).proc.clock (s.slots i).proc.head) * 2 ^ 22)
    (below : vpn va * 4096 < (s.slots i).proc.sz)
    (away : ((s.slots i).proc.pgdir.flat (vpn va)).has PTE_P = false) :
    ∃ r t np, Step s ⟨i, .fork, r⟩ t ∧ np < NPROC ∧ (t.slots np).state.live = true ∧
      (t.slots np).proc.clock (t.slots np).proc.head ≠ 0 ∧
      walkpgdir (t.slots np).proc.pgdir ((t.slots np).proc.clock (t.slots np).proc.head) = none ∧
      (∃ u, (load true va).run (t.view np) = .error .nullPte u) ∧
      ∃ u, (addClock va).run (t.view np) = .error .nullPte u := by
  have used := live_used live
  have returns := fork_returns hn unused used closed (owned.dirs i hi used).2 mapped enough
  have performed : Sat (perform i .fork) s (fun _ t => ∃ np < NPROC, (s.slots np).state = .UNUSED ∧
      (t.slots np).state = .RUNNABLE) (fun _ _ => False) := by
    rw [perform, sat_tryCatch, sat_bind]
    exact returns.mono (fun _ _ done => done) (fun _ _ stop => stop.elim)
  obtain ⟨r, t, run, child, hc, fresh, runnable⟩ := performed.returns
  have step : Step s ⟨i, .fork, r⟩ t := ⟨hi, live, run⟩
  have born : (t.slots child).state.live = true := by
    rw [runnable]
    rfl
  obtain ⟨d, proc, space, tables⟩ := forked_child owned step fresh born
  have slots : ∀ k < CLOCKSIZE, ((s.slots i).proc.child d).clock k = (s.slots i).proc.clock k :=
    fun k hk => forkClock_slot _ _ hk
  have missing : walkpgdir ((s.slots i).proc.child d).pgdir
      (((s.slots i).proc.child d).clock ((s.slots i).proc.child d).head) = none := by
    have table := tables (pdx ((s.slots i).proc.clock (s.slots i).proc.head))
      (by simp only [KERNBASE] at low; simp only [pdx]; omega) above
    change walkpgdir d (((s.slots i).proc.child d).clock (s.slots i).proc.head) = none
    rw [slots _ head, walkpgdir, table]
    rfl
  have none : emptySlot ((s.slots i).proc.child d) = none :=
    emptySlot_full fun k hk => by rw [slots k hk]; exact (full k hk).1
  obtain ⟨whole, f, _, copy, _⟩ := space.pages _ below
  have present : (d.flat (vpn va)).mapped = true := by
    rw [copy]
    exact whole
  have absent : (d.flat (vpn va)).has PTE_P = false := by
    rw [copy]
    exact away
  have view : (t.view child).proc = (s.slots i).proc.child d := proc
  have walk := PgDir.walk_of_mapped present
  have table : (walkpgdir ((s.slots i).proc.child d).pgdir va).isSome := by
    rw [show ((s.slots i).proc.child d).pgdir = d from rfl, walk]
    rfl
  have stuck : inQ ((s.slots i).proc.child d) va = Option.none ∧
      emptySlot ((s.slots i).proc.child d) = Option.none ∧
      walkpgdir ((s.slots i).proc.child d).pgdir
        (((s.slots i).proc.child d).clock ((s.slots i).proc.child d).head) = Option.none := by
    refine ⟨?_, none, missing⟩
    rw [inQ, List.find?_eq_none]
    intro k member
    obtain ⟨j, _, rfl⟩ := List.mem_map.mp member
    have slot := Nat.mod_lt (((s.slots i).proc.child d).head % CLOCKSIZE + j)
      (show 0 < CLOCKSIZE by decide)
    rw [slots _ slot]
    simpa using (full _ slot).2
  refine ⟨r, t, child, step, hc, born, ?_, by rw [proc]; exact missing, ?_, ?_⟩
  · rw [proc]
    change ((s.slots i).proc.child d).clock (s.slots i).proc.head ≠ 0
    rw [slots _ head]
    exact (full _ head).1
  · have faults := load_stuck (s := t.view child) (by rw [St.Stuck, view]; exact stuck)
      (by rw [view]; exact present) (by rw [view]; exact absent)
    cases ran : (load true va).run (t.view child) with
    | ok b u => exact (faults.of_ok ran).elim
    | error e u => exact ⟨u, by rw [faults.of_error ran]⟩
  · cases ran : (addClock va).run (t.view child) with
    | ok r u =>
      have found := ((addClock_spec (by rw [view]; exact table)).of_ok ran).2 (by rw [view]; exact none)
      rw [view, missing] at found
      cases found
    | error e u =>
      exact ⟨u, by rw [((addClock_spec (by rw [view]; exact table)).of_error ran).1]⟩

/-- The process with eleven encrypted pages, on a machine with more memory. -/
def roomySys : Sys :=
  Sys.solo ⟨smallImage, fun f k => (elevenTexts f).getD k.val 0 ^^^ 0xFF, List.range' 2000 4000⟩
    ⟨45056, .single 1001 1002 elevenPages, fun _ => 0, 0, fun _ => false, [], 0, 0⟩ 1003

theorem roomySys_owned :
    roomySys.Owned (soloPool roomySys.phys (roomySys.slots 0).proc 1003) 0 :=
  elevenPages_small.owned rfl rfl (by omega) (by decide)

theorem roomySys_accepts {f : Nat} (held : f ∈ ((roomySys.view 0).phys.freelist : Multiset Nat) +
    (roomySys.view 0).proc.pgdir.frames) : (roomySys.view 0).phys.image.accepts f := by
  have pool : f ∈ soloPool roomySys.phys (roomySys.slots 0).proc 1003 := by
    rw [soloPool]
    rw [Multiset.mem_add] at held ⊢
    exact held.imp_right fun own => Multiset.mem_add.mpr (Or.inr own)
  have range := roomySys_owned.range f pool
  rw [elevenPages_small.pool rfl rfl] at pool
  simp only [Multiset.mem_coe, List.mem_append, List.mem_cons, List.mem_range'_1] at pool
  have low : 1000 ≤ f := by omega
  exact ⟨by omega, low, range⟩

theorem roomySys_tabled : roomySys.Each Proc.Tabled := by
  intro i hi live
  exact ⟨Nat.zero_lt_succ _, fun k _ => (by decide : 0 < KERNBASE),
    fun k _ filled => absurd rfl filled⟩

theorem PgDir.missing_le (d : PgDir) : d.missing ≤ 1024 := by
  have most := Finset.card_filter_le (Finset.range 1024) fun i => (d.tabs i).isNone
  rwa [Finset.card_range] at most

theorem roomySys_flat {s : St} (is : s = roomySys.view 0) (v : Nat) :
    s.proc.pgdir.flat v = if v < 11 then (userPte (1010 + v)).sealed else .zero := by
  rw [is]
  change (PgDir.single 1001 1002 elevenPages).flat v = _
  rw [PgDir.single_flat, elevenPages]
  by_cases low : v < 11
  · rw [if_pos (by omega)]
  · rw [if_neg low, ite_self]

/-- There is memory for more than a thousand pages. -/
theorem roomySys_resizes {s : St} (is : s = roomySys.view 0) (sound : s.Sound) {k : Nat}
    (some : 0 < k) (few : k ≤ 1021) {n : Int} (count : n = k * 4096) :
    ∃ t, (growproc n).run s = .ok 0 t ∧ 1900 ≤ t.phys.freelist.length ∧ Resize s n 0 t ∧
      addedPages s.proc.sz (s.proc.sz + n.toNat) = k := by
  have sz : s.proc.sz = 45056 := by rw [is]; rfl
  have pages : addedPages s.proc.sz (s.proc.sz + n.toNat) = k := by
    rw [addedPages, show pgRoundUp s.proc.sz = 45056 by rw [sz]; rfl]
    omega
  have room : Room s.phys s.proc.pgdir (1900 + addedPages s.proc.sz (s.proc.sz + n.toNat)) := by
    have free : s.phys.freelist.length = 4000 := by
      rw [is]
      exact List.length_range'
    have few := s.proc.pgdir.missing_le
    rw [Room, pages, free]
    omega
  have free : ∀ v, s.proc.sz ≤ v * 4096 → v * 4096 < s.proc.sz + n.toNat →
      (s.proc.pgdir.flat v).mapped = false := by
    intro v above _
    rw [roomySys_flat is, if_neg (by omega)]
    exact Pte.zero_mapped
  have user : s.proc.sz + n.toNat < KERNBASE := by
    simp only [KERNBASE]
    omega
  have grows := growproc_grows sound (by omega) user (by rw [sz]) room free
  obtain ⟨r, t, run, ⟨rfl, left⟩, resize⟩ :=
    ((grows.and (growproc_spec sound n (by omega) (by omega))).mono (fun _ _ done => done)
      (fun _ _ stop => stop.1)).returns
  exact ⟨t, run, left, resize, pages⟩

/-- A first call grows the process by 1021 pages, past the first 4 MB. -/
theorem roomySys_grows {s : St} (is : s = roomySys.view 0) (sound : s.Sound) {n : Int}
    (count : n = 1021 * 4096) :
    ∃ t, (growproc n).run s = .ok 0 t ∧ t.Using 1024 0 ∧ t.proc.sz = 1032 * 4096 ∧
      (∀ v < 11, (t.proc.pgdir.flat v).mapped = true) ∧ 1900 ≤ t.phys.freelist.length ∧
      Resize s n 0 t := by
  have sz : s.proc.sz = 45056 := by rw [is]; rfl
  have flat := roomySys_flat is
  have whole : pgRoundUp s.proc.sz = 45056 := by rw [sz]; rfl
  obtain ⟨t, run, left, resize, pages⟩ :=
    roomySys_resizes is sound (by omega) le_rfl (k := 1021) count
  have user : s.proc.sz + n.toNat < KERNBASE := by
    simp only [KERNBASE]
    omega
  have plain := fun v half mapped => resize.plain sound (v := v) half mapped
  have same := resize
  cases resize with
  | @grow m d u _ _ grown swept =>
    have reaches : reachesNew s.proc.sz n := by
      simp only [reachesNew, pgRoundUp, pgRoundDown, PGSIZE, uint]
      omega
    have new := grown.new_encrypted sound user reaches swept plain
    have dir : Remarks d u.proc.pgdir := (swept.recrypt (grown.sound user sound)).dir
    have old : ∀ v, ¬ (11 ≤ v ∧ v < 1032) → d.flat v = s.proc.pgdir.flat v := by
      intro v outside
      refine grown.same v fun inside => outside ?_
      rw [whole, pages] at inside
      omega
    have added : ∀ v, 11 ≤ v → v < 1032 → (s.proc.pgdir.flat v).mapped = false ∧
        (u.proc.pgdir.flat v).mapped = true := by
      intro v low high
      obtain ⟨unmapped, f, _, entry, _⟩ := grown.fresh v (by omega) (by rw [whole, pages]; omega)
      refine ⟨unmapped, ?_⟩
      rw [dir.mapped, entry]
      exact userPte_mapped f
    refine ⟨_, run, ⟨?_, ?_, ?_, ?_⟩, ?_, ?_, left, same⟩
    · change u.proc.head = _
      rw [swept.head, is]
      rfl
    · intro j _
      change u.proc.clock j = _
      rw [swept.clock, is]
      rfl
    · intro j hj
      simp only [CLOCKSIZE] at hj
      obtain ⟨unmapped, mapped⟩ := added (1024 + j) (by omega) (by omega)
      obtain ⟨_, _, open_, _⟩ := new _ unmapped mapped
      refine ⟨Pte.usable_iff.mpr ⟨mapped, open_⟩, ?_⟩
      have zero := plain (1024 + j) (by omega) mapped
      rw [unmapped, if_neg (by decide)] at zero
      exact zero
    · intro v _
      change (u.proc.pgdir.flat v).has PTE_P = false
      by_cases inside : 11 ≤ v ∧ v < 1032
      · obtain ⟨unmapped, mapped⟩ := added v inside.1 inside.2
        exact (new v unmapped mapped).2.1
      · have away : (d.flat v).has PTE_P = false := by
          rw [old v inside, flat]
          split <;> simp
        obtain kept | ⟨_, _, _, sealed⟩ := swept.changed v
        · rw [kept]
          exact away
        · rw [sealed]
          simp
    · change s.proc.sz + n.toNat = _
      omega
    · intro v low
      change (u.proc.pgdir.flat v).mapped = true
      rw [dir.mapped, old v (by omega), flat, if_pos low]
      simp [Pte.mapped]
  | shrink negative => omega
  | stay none => omega

/-- The process has used eight pages above 4 MB and given them back. -/
theorem roomySys_history :
    ∃ es st, Transition.Run Step roomySys es (roomySys.put 0 st) ∧ st.proc.head = 0 ∧
      (∀ k < CLOCKSIZE, st.proc.clock k = (1024 + k) * 4096) ∧ st.proc.sz = 45056 ∧
      (∀ v < 11, (st.proc.pgdir.flat v).mapped = true ∧ (st.proc.pgdir.flat v).has PTE_P = false) ∧
      1900 ≤ st.phys.freelist.length := by
  have live : (roomySys.slots 0).state.live = true := rfl
  have sound := roomySys_owned.view (i := 0) (by decide) (live_used live)
  obtain ⟨s₁, grew, start, size₁, mapped₁, free₁, resize₁⟩ := roomySys_grows rfl sound
    (n := (0x3FD000 : BitVec 32).toInt) (by decide)
  have step₁ := step_own (.growproc 0x3FD000) (f := id) (id_map _).symm (by decide) live grew
  have sound₁ := resize₁.sound sound
  obtain ⟨es, s₂, loads, filled, recrypt⟩ := using_run (s := roomySys.put 0 s₁) (i := 0) (by decide)
    (by rw [roomySys.put_state]; exact live) (by rw [roomySys.view_put]; exact sound₁)
    (by rw [roomySys.view_put]; exact start) (by omega) (by decide) CLOCKSIZE le_rfl
  rw [roomySys.put_put] at loads
  rw [roomySys.view_put] at recrypt
  have sound₂ := recrypt.sound sound₁
  have moves := (resize₁.moves sound).trans recrypt.moves
  have accepts : ∀ f ∈ s₂.proc.pgdir.frames, s₂.phys.image.accepts f := by
    intro f member
    have held : f ∈ (s₂.phys.freelist : Multiset Nat) + s₂.proc.pgdir.frames :=
      Multiset.mem_add.mpr (Or.inr member)
    rw [moves.sum] at held
    rw [moves.image]
    exact roomySys_accepts held
  have shrinks := growproc_shrinks (s := s₂) (n := (-0x3FD000 : BitVec 32).toInt) sound₂.size
    (by decide) (by rw [recrypt.sz, size₁]; decide) accepts
  have spec := growproc_spec sound₂ (-0x3FD000 : BitVec 32).toInt (by decide) (by decide)
  obtain ⟨r, s₃, shrank, rfl, resize⟩ :=
    ((shrinks.and spec).mono (fun _ _ done => done) (fun _ _ stop => stop.1)).returns
  have step₃ := step_own (s := roomySys.put 0 s₂) (i := 0) (.growproc (-0x3FD000)) (f := id)
    (id_map _).symm (by decide) (by rw [roomySys.put_state]; exact live)
    (by rw [roomySys.view_put]; exact shrank)
  rw [roomySys.put_put] at step₃
  refine ⟨_, s₃, .next step₁ (loads.append (.next step₃ (.refl _))), ?_⟩
  obtain ⟨n, count⟩ : ∃ n : Int, n = (-0x3FD000 : BitVec 32).toInt := ⟨_, rfl⟩
  have negative : n = -4182016 := count.trans (by decide)
  rw [← count] at resize
  have size₂ : s₂.proc.sz = 4227072 := by rw [recrypt.sz, size₁]
  cases resize with
  | @shrink m d newsz _ value _ shrunk =>
    have end_ : newsz = 45056 := by omega
    refine ⟨filled.head, fun k hk => ?_, end_, fun v low => ?_, ?_⟩
    · exact (filled.clock k hk).trans (if_pos hk)
    · have kept : d.flat v = s₂.proc.pgdir.flat v := by
        rw [shrunk.flat, if_neg]
        rintro ⟨above, _⟩
        rw [end_, show pgRoundUp 45056 = 45056 from rfl] at above
        omega
      change (d.flat v).mapped = true ∧ (d.flat v).has PTE_P = false
      rw [kept]
      exact ⟨by rw [recrypt.dir.mapped]; exact mapped₁ v low, filled.absent v (by omega)⟩
    · obtain ⟨B, freed, _⟩ := shrunk.yields
      have sum := congrArg Multiset.card freed.sum
      rw [Multiset.card_add, Multiset.card_add, Multiset.coe_card, Multiset.coe_card,
        Multiset.card_zero] at sum
      rw [← recrypt.free] at free₁
      change 1900 ≤ m.freelist.length
      omega
  | grow positive => omega
  | stay _ which => omega

/-- A process grows past 4 MB, uses eight pages there, gives the memory back and forks.
The clock of the child has no page table for its entries: the first page fault of the
child follows a null pointer. -/
theorem forked_clock_stuck :
    ∃ pool es t np, roomySys.Owned pool 0 ∧ roomySys.Each Proc.Tabled ∧
      Transition.Run Step roomySys es t ∧ np < NPROC ∧ (t.slots np).state.live = true ∧
      (t.slots np).proc.clock (t.slots np).proc.head ≠ 0 ∧
      walkpgdir (t.slots np).proc.pgdir ((t.slots np).proc.clock (t.slots np).proc.head) = none ∧
      (∃ u, (load true 0x1000).run (t.view np) = .error .nullPte u) ∧
      ∃ u, (addClock 0x1000).run (t.view np) = .error .nullPte u := by
  obtain ⟨es, st, run, head, clock, sz, pages, free⟩ := roomySys_history
  obtain ⟨lost, owned⟩ := run.kept (step_owned _) ⟨0, roomySys_owned⟩
  have live : ((roomySys.put 0 st).slots 0).state.live = true := by
    rw [roomySys.put_state]
    rfl
  have unused : ((roomySys.put 0 st).slots 1).state = .UNUSED := by
    rw [roomySys.put_state]
    rfl
  have proc : ((roomySys.put 0 st).slots 0).proc = st.proc := congrArg St.proc (roomySys.view_put 0 st)
  have closed : ∀ fd < NOFILE, ((roomySys.put 0 st).slots 0).ofile fd = none := fun _ _ => rfl
  have room : (roomySys.put 0 st).phys.freelist = st.phys.freelist := rfl
  have start := roomySys_owned
  have tabled := roomySys_tabled
  generalize roomySys.put 0 st = s at *
  have mapped : ∀ v, v * 4096 < (s.slots 0).proc.sz →
      ((s.slots 0).proc.pgdir.flat v).mapped = true := by
    rw [proc, sz]
    exact fun v low => (pages v (by omega)).1
  have enough : 1026 + ((s.slots 0).proc.sz + 4095) / 4096 ≤ s.phys.freelist.length := by
    rw [proc, sz, room]
    omega
  have full : ∀ k < CLOCKSIZE, (s.slots 0).proc.clock k ≠ 0 ∧ (s.slots 0).proc.clock k ≠ 4096 := by
    rw [proc]
    intro k hk
    rw [clock k hk]
    omega
  have first : 1 < NPROC := by decide
  have oldest : (s.slots 0).proc.clock (s.slots 0).proc.head = 1024 * 4096 := by
    rw [proc, head]
    exact clock 0 (by decide)
  obtain ⟨r, t, np, step, hn, born, child⟩ := fork_stuck 4096 owned (by decide) live first unused
    closed mapped enough full (by rw [proc, head]; decide) (by rw [oldest]; decide)
    (by rw [oldest, proc, sz]; decide) (by rw [proc, sz]; decide)
    (by rw [proc]; exact (pages 1 (by omega)).2)
  exact ⟨_, _, t, np, start, tabled, run.append (.next step (.refl t)), hn, born, child⟩

end Xv6
