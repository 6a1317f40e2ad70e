import Xv6.PageOwnership

/-! The clock of decrypted pages. Between the calls of a process `head` is a slot
of the clock, and each entry is a page of the process that is in the clear, once.
Page faults keep it so; `mencrypt` and `growproc` do not look at the clock, and
keep it so only where they leave the pages in it alone. -/
namespace Xv6
open PteBit Control
open Function (update update_of_ne update_self)

/-- Every live process has the property. -/
def Sys.Each (P : Proc → Prop) (s : Sys) : Prop :=
  ∀ i < NPROC, (s.slots i).state.live = true → P (s.slots i).proc

namespace Sys.Each
variable {P : Proc → Prop} {s t : Sys} {i : Nat}

theorem put (each : s.Each P) {st : St} (mine : P st.proc) : (s.put i st).Each P := by
  intro j hj live
  rw [s.put_state] at live
  by_cases here : j = i
  · subst here
    rwa [show ((s.put j st).slots j).proc = st.proc from congrArg St.proc (s.view_put j st)]
  · rw [s.put_slots_of_ne here]
    exact each j hj live

theorem fileStep (each : s.Each P) (step : FileStep s t) : t.Each P := by
  intro j hj live
  rw [step.state j] at live
  rw [step.proc j]
  exact each j hj live

theorem ended (each : s.Each P) {u : Sys} {st : St} (files : FileStep s u)
    (exited : Exited i (u.put i st) t) : t.Each P := by
  intro j hj live
  rw [exited.state j] at live
  by_cases here : j = i
  · rw [if_pos here] at live
    cases live
  · rw [if_neg here, u.put_state] at live
    rw [exited.proc j, u.put_slots_of_ne here]
    exact each.fileStep files j hj live

theorem reaped (each : s.Each P) (reaped : Reaped i s t) : t.Each P := by
  intro j hj live
  have ne : j ≠ i := by
    rintro rfl
    rw [reaped.gone] at live
    cases live
  rw [reaped.other j ne] at live ⊢
  exact each j hj live

theorem unforked (each : s.Each P) (failed : Unforked s t) : t.Each P := by
  intro j hj live
  rw [failed.state j] at live
  rw [failed.slot j (live_used live)]
  exact each j hj live

theorem forked (each : s.Each P) {np : Nat} (forked : Forked i np s t)
    (child : ∀ d, ChildSpace s.phys t.phys (s.slots i).proc.pgdir d (s.slots i).proc.sz →
      P ((s.slots i).proc.child d)) : t.Each P := by
  intro j hj live
  by_cases here : j = np
  · subst here
    obtain ⟨d, proc, space⟩ := forked.child
    rw [proc]
    exact child d space
  · rw [forked.state j here] at live
    rw [forked.proc j here]
    exact each j hj live

end Sys.Each

section Search
variable {p : Proc} {va i : Nat}

theorem inQ_some (found : inQ p va = some i) : i < CLOCKSIZE ∧ p.clock i = va := by
  have hit := List.find?_some found
  have member := List.mem_of_find?_eq_some found
  obtain ⟨k, _, rfl⟩ := List.mem_map.mp member
  exact ⟨Nat.mod_lt _ (by decide), by simpa using hit⟩

theorem inQ_none (absent : inQ p va = none) {k : Nat} (hk : k < CLOCKSIZE) : p.clock k ≠ va := by
  rw [inQ, List.find?_eq_none] at absent
  have slot : (p.head % CLOCKSIZE + (k + CLOCKSIZE - p.head % CLOCKSIZE) % CLOCKSIZE) % CLOCKSIZE =
      k := by
    simp only [CLOCKSIZE] at hk ⊢
    omega
  have member := absent k (List.mem_map.mpr ⟨(k + CLOCKSIZE - p.head % CLOCKSIZE) % CLOCKSIZE,
    List.mem_range.mpr (Nat.mod_lt _ (by decide)), slot⟩)
  simpa using member

theorem emptySlot_some (found : emptySlot p = some i) : p.clock (i % CLOCKSIZE) = 0 := by
  simpa using List.find?_some found

theorem emptySlot_none (full : emptySlot p = none) {k : Nat} (hk : k < CLOCKSIZE) :
    p.clock k ≠ 0 := by
  rw [emptySlot, List.find?_eq_none] at full
  obtain ⟨j, hj, slot⟩ : ∃ j < CLOCKSIZE, (p.head + CLOCKSIZE - j) % CLOCKSIZE = k := by
    refine ⟨(p.head % CLOCKSIZE + CLOCKSIZE - k) % CLOCKSIZE, Nat.mod_lt _ (by decide), ?_⟩
    simp only [CLOCKSIZE] at hk ⊢
    omega
  have member := full (p.head + CLOCKSIZE - j) (List.mem_map.mpr ⟨j, List.mem_range.mpr hj, rfl⟩)
  rw [slot] at member
  simpa using member

/-- The loops of `fork` copy every slot of the clock. -/
theorem forkClock_slot (head : Nat) (clock : Nat → Nat) {k : Nat} (hk : k < CLOCKSIZE) :
    forkClock head clock CLOCKSIZE k = clock k := by
  have copied : ∀ n, forkClock head clock n k =
      if ∃ m < n, (head + m) % CLOCKSIZE = k then clock k else 0 := by
    intro n
    induction n with
    | zero => simp [forkClock]
    | succ n ih =>
      have reached : (∃ m < n + 1, (head + m) % CLOCKSIZE = k) ↔
          (∃ m < n, (head + m) % CLOCKSIZE = k) ∨ (head + n) % CLOCKSIZE = k := by
        constructor
        · rintro ⟨m, hm, slot⟩
          by_cases last : m = n
          · subst last
            exact Or.inr slot
          · exact Or.inl ⟨m, by omega, slot⟩
        · rintro (⟨m, hm, slot⟩ | slot)
          · exact ⟨m, by omega, slot⟩
          · exact ⟨n, by omega, slot⟩
      rw [forkClock]
      by_cases here : (head + n) % CLOCKSIZE = k
      · rw [if_pos (reached.mpr (Or.inr here)), here]
        by_cases empty : clock k = 0
        · rw [if_neg (not_not.mpr empty), ih, empty]
          split <;> rfl
        · rw [if_pos empty, update_self]
      · have other : forkClock head clock n k =
            if ∃ m < n + 1, (head + m) % CLOCKSIZE = k then clock k else 0 := by
          simp only [ih, reached, here, or_false]
        split
        · rw [update_of_ne (Ne.symm here), other]
        · exact other
  rw [copied, if_pos]
  refine ⟨(k + CLOCKSIZE - head % CLOCKSIZE) % CLOCKSIZE, Nat.mod_lt _ (by decide), ?_⟩
  simp only [CLOCKSIZE] at hk ⊢
  omega

end Search

section Fault
variable {s : St} {va : Nat}

/-- What recording a page does to the clock: nothing if its address is there, and
otherwise one slot, empty or the oldest one of a full clock, takes the page. -/
theorem recorded_clock (s : St) (va : Nat) (head : s.proc.head < CLOCKSIZE) :
    (s.recorded va).proc.head < CLOCKSIZE ∧
    ((∃ i < CLOCKSIZE, s.proc.clock i = va) ∧ (s.recorded va).proc.clock = s.proc.clock ∧
        s.expels va = none ∨
      ∃ k < CLOCKSIZE,
        (s.recorded va).proc.clock = update s.proc.clock k (pgRoundDown va) ∧
        (s.proc.clock k = 0 ∧ s.expels va = none ∨
          k = s.proc.head ∧ (∀ j < CLOCKSIZE, s.proc.clock j ≠ 0) ∧
          inQ s.proc va = none ∧ emptySlot s.proc = none)) := by
  unfold St.recorded
  cases queued : inQ s.proc va with
  | some i =>
    have stays : s.expels va = none := by simp [St.expels, queued]
    exact ⟨head, Or.inl ⟨⟨i, inQ_some queued⟩, rfl, stays⟩⟩
  | none =>
    simp only [Option.isNone_none, if_true]
    unfold St.admitted
    cases free : emptySlot s.proc with
    | some i =>
      have stays : s.expels va = none := by simp [St.expels, free]
      exact ⟨Nat.mod_lt _ (by decide), Or.inr ⟨i % CLOCKSIZE, Nat.mod_lt _ (by decide), rfl,
        Or.inl ⟨emptySlot_some free, stays⟩⟩⟩
    | none =>
      have clock : s.aged.proc.clock = s.proc.clock := by
        unfold St.aged
        split <;> rfl
      refine ⟨Nat.mod_lt _ (by decide), Or.inr ⟨s.proc.head, head, ?_,
        Or.inr ⟨rfl, fun j hj => emptySlot_none free hj, trivial, rfl⟩⟩⟩
      change update (s.aged.mencrypted _ 1).proc.clock s.proc.head (pgRoundDown va) = _
      rw [mencrypted_clock, clock]

theorem expels_head {v : Nat} (expelled : s.expels va = some v) :
    v = vpn (s.proc.clock s.proc.head) := by
  unfold St.expels at expelled
  split at expelled
  · exact (Option.some.inj expelled).symm
  · cases expelled

end Fault

/-- A page of the process that user code can use without a page fault. -/
structure Proc.InClear (p : Proc) (a : Nat) : Prop where
  aligned : a % PGSIZE = 0
  below : a < p.sz
  present : (p.pgdir.flat (vpn a)).has PTE_P = true
  user : (p.pgdir.flat (vpn a)).has PTE_U = true
  clear : (p.pgdir.flat (vpn a)).has PTE_E = false

/-- The clock holds pages that are in the clear, each of them once. -/
structure Proc.ClockSound (p : Proc) : Prop where
  head : p.head < CLOCKSIZE
  entry : ∀ k < CLOCKSIZE, p.clock k ≠ 0 → p.InClear (p.clock k)
  once : ∀ j < CLOCKSIZE, ∀ k < CLOCKSIZE, p.clock j ≠ 0 → p.clock j = p.clock k → j = k

/-- User code has no page above the size. -/
def Proc.Fits (p : Proc) : Prop := ∀ v, (p.pgdir.flat v).usable = true → v * 4096 < p.sz

structure Proc.Orderly (p : Proc) : Prop where
  clock : p.ClockSound
  fits : p.Fits

theorem vpn_inj {a b : Nat} (left : a % PGSIZE = 0) (right : b % PGSIZE = 0) (low : a < 2 ^ 32)
    (low' : b < 2 ^ 32) (same : vpn a = vpn b) : a = b := by
  simp only [vpn, PGSIZE] at left right same
  omega

theorem pgRoundDown_vpn {va : Nat} (low : va < 2 ^ 32) : pgRoundDown va = vpn va * 4096 := by
  simp only [pgRoundDown, vpn, PGSIZE]
  omega

theorem pgRoundDown_mod (va : Nat) : pgRoundDown va % PGSIZE = 0 := by
  simp only [pgRoundDown, PGSIZE]
  omega

/-- The clock stays sound where its pages keep their entries and stay below the size. -/
theorem Proc.ClockSound.carry {p q : Proc} (ok : p.ClockSound) (clock : q.clock = p.clock)
    (head : q.head < CLOCKSIZE)
    (kept : ∀ k < CLOCKSIZE, p.clock k ≠ 0 → p.clock k < p.sz → p.clock k < q.sz ∧
      q.pgdir.flat (vpn (p.clock k)) = p.pgdir.flat (vpn (p.clock k))) : q.ClockSound := by
  refine ⟨head, fun k hk filled => ?_, by rw [clock]; exact ok.once⟩
  rw [clock] at filled ⊢
  obtain ⟨aligned, below, present, user, clear⟩ := ok.entry k hk filled
  obtain ⟨below, same⟩ := kept k hk filled below
  exact ⟨aligned, below, by rw [same, present], by rw [same, user], by rw [same, clear]⟩

theorem Touches.fits {s t : St} (touches : Touches s t) (fits : s.proc.Fits) : t.proc.Fits := by
  intro v usable
  rw [touches.sz]
  refine fits v ?_
  rwa [Pte.usable, touches.dir.mapped, touches.dir.user] at usable

section Access
variable {s : St} {user : Bool} {va : Nat}

theorem Proc.InClear.resident {p : Proc} {a : Nat} (entry : p.InClear a) (user : Bool)
    (page : vpn a = vpn va) : (p.resident user va).isSome := by
  obtain ⟨_, _, present, open_, _⟩ := entry
  rw [page] at present open_
  have mapped : (p.pgdir.flat (vpn va)).mapped = true := Pte.mapped_of_present present
  rw [Proc.resident, PgDir.walk_of_mapped mapped, Option.filter_some, if_pos (by simp [present, open_])]
  rfl

theorem fault_usable (sound : s.Sound) (filled : s.proc.pgdir.flat (vpn va) ≠ .zero)
    (opens : s.Opens va) : (s.proc.pgdir.flat (vpn va)).usable = true := by
  have user := opens.1
  rw [recorded_has s va _ (by decide)] at user
  refine Pte.usable_iff.mpr ⟨(sound.dir.tidy _).mapped filled, ?_⟩
  split at user
  · simpa using user
  · exact user

theorem served_clockSound (sound : s.Sound) (orderly : s.proc.Orderly)
    (low : va < 2 ^ 32) (fault : s.proc.resident user va = none)
    (filled : s.proc.pgdir.flat (vpn va) ≠ .zero) (opens : s.Opens va) :
    (s.served va).proc.ClockSound := by
  obtain ⟨⟨head, entry, once⟩, fits⟩ := orderly
  have size : s.proc.sz ≤ 2 ^ 31 := sound.size
  have recrypt := Recrypt.served sound fault filled opens
  have usable := fault_usable sound filled opens
  have absent : ∀ k < CLOCKSIZE, s.proc.clock k ≠ 0 → vpn (s.proc.clock k) ≠ vpn va := by
    intro k hk filled page
    have here := (entry k hk filled).resident user page
    rw [fault] at here
    cases here
  have inClear : ∀ a, a % PGSIZE = 0 → a < s.proc.sz →
      (s.proc.pgdir.flat (vpn a)).has PTE_U = true →
      ((s.served va).proc.pgdir.flat (vpn a)).has PTE_P = true → (s.served va).proc.InClear a := by
    intro a aligned below user present
    refine ⟨aligned, by rwa [recrypt.sz], present, by rwa [recrypt.dir.user], ?_⟩
    exact ((recrypt.sound sound).dir.tidy _).clear present
  have kept : ∀ k < CLOCKSIZE, s.proc.clock k ≠ 0 → s.expels va ≠ some (vpn (s.proc.clock k)) →
      (s.served va).proc.InClear (s.proc.clock k) := by
    intro k hk filled' stays
    obtain ⟨aligned, below, present, user, _⟩ := entry k hk filled'
    exact inClear _ aligned below user ((served_present filled _).mpr (Or.inr ⟨present, stays⟩))
  obtain ⟨head', same⟩ := recorded_clock s va head
  obtain ⟨_, same, stays⟩ | ⟨k, hk, slots, which⟩ := same
  · have same : (s.served va).proc.clock = s.proc.clock := same
    refine ⟨head', fun j hj filled' => ?_, by rw [same]; exact once⟩
    rw [same] at filled' ⊢
    exact kept j hj filled' (by simp [stays])
  · have slots : (s.served va).proc.clock = update s.proc.clock k (pgRoundDown va) := slots
    -- A page that is expelled gives its slot to the new one.
    have others : ∀ j < CLOCKSIZE, j ≠ k → s.proc.clock j ≠ 0 →
        s.expels va ≠ some (vpn (s.proc.clock j)) := by
      intro j hj ne filled' expelled
      obtain ⟨_, stays⟩ | ⟨rfl, full, _⟩ := which
      · rw [stays] at expelled
        cases expelled
      · have mine := entry j hj filled'
        have oldest := entry _ hk (full _ hk)
        have page := vpn_inj mine.aligned oldest.aligned (by have := mine.below; omega)
          (by have := oldest.below; omega) (expels_head expelled)
        exact ne (once j hj _ hk filled' page)
    have new : ∀ j < CLOCKSIZE, s.proc.clock j ≠ 0 → s.proc.clock j ≠ pgRoundDown va := by
      intro j hj filled' same
      refine absent j hj filled' ?_
      rw [same, vpn_pgRoundDown]
    refine ⟨head', fun j hj filled' => ?_, fun i hi j hj filled' same => ?_⟩
    · rw [slots] at filled' ⊢
      by_cases here : j = k
      · subst here
        rw [update_self] at filled' ⊢
        refine inClear _ (pgRoundDown_mod va) ?_ ?_ ?_
        · rw [pgRoundDown_vpn low]
          exact fits _ usable
        · rw [vpn_pgRoundDown]
          exact (Pte.usable_iff.mp usable).2
        · rw [vpn_pgRoundDown]
          exact (served_present filled _).mpr (Or.inl rfl)
      · rw [update_of_ne here] at filled' ⊢
        exact kept j hj filled' (others j hj here filled')
    · rw [slots] at filled' same
      by_cases left : i = k
      · by_cases right : j = k
        · rw [left, right]
        · rw [left, update_self, update_of_ne right] at same
          rw [left, update_self, same] at filled'
          exact absurd same.symm (new j hj filled')
      · rw [update_of_ne left] at filled' same
        by_cases right : j = k
        · rw [right, update_self] at same
          exact absurd same (new i hi filled')
        · rw [update_of_ne right] at same
          exact once i hi j hj filled' same

theorem touched_clockSound (ok : s.proc.ClockSound) :
    (s.touched va).proc.ClockSound := by
  refine ⟨ok.head, fun k hk filled => ?_, ok.once⟩
  obtain ⟨aligned, below, present, user, clear⟩ := ok.entry k hk filled
  exact ⟨aligned, below, by rwa [touched_has s va _ (by decide)],
    by rwa [touched_has s va _ (by decide)], by rwa [touched_has s va _ (by decide)]⟩

theorem access_orderly (sound : s.Sound) (orderly : s.proc.Orderly) (low : va < 2 ^ 32) :
    Sat (access user va) s (fun _ t => t.proc.Orderly) (fun _ _ => True) := by
  refine ((access_recrypt sound user va).and (access_spec user s va)).mono ?_ (fun _ _ _ => trivial)
  rintro f t ⟨⟨recrypt, _⟩, outcome⟩
  refine ⟨?_, recrypt.fits orderly.fits⟩
  obtain ⟨_, rfl, _⟩ | ⟨fault, filled, opens, _, rfl, _⟩ := outcome
  · exact touched_clockSound orderly.clock
  · exact touched_clockSound (served_clockSound sound orderly low fault filled opens)

theorem load_orderly (sound : s.Sound) (orderly : s.proc.Orderly) (low : va < 2 ^ 32) :
    Sat (load user va) s (fun _ t => t.proc.Orderly) (fun _ _ => True) := by
  rw [load, sat_bind]
  exact access_orderly sound orderly low

theorem store_orderly (sound : s.Sound) (orderly : s.proc.Orderly) (low : va < 2 ^ 32) (b : UInt8) :
    Sat (store user va b) s (fun _ t => t.proc.Orderly) (fun _ _ => True) := by
  rw [store, sat_bind]
  exact access_orderly sound orderly low

/-- Whatever the kernel reads and writes for a process, its clock stays sound. -/
theorem Visits.orderly {p q : Proc} (visits : Visits p q) (orderly : p.Orderly) : q.Orderly := by
  induction visits with
  | refl => exact orderly
  | rewind _ ih =>
    exact ⟨ih.clock.carry rfl (Nat.zero_lt_succ _) fun k _ _ below => ⟨below, rfl⟩, ih.fits⟩
  | access _ sound low run ih => exact (access_orderly sound ih low).of_ok run

end Access

/-- The page `mencrypt` encrypts. -/
def St.seals (s : St) (va : Nat) (len : Int) : Option Nat :=
  if usableRange s.proc.pgdir len.toNat (pgRoundDown va) then
    target s.proc.pgdir len.toNat (pgRoundDown va)
  else none

/-- The page is not in the clock. -/
def Proc.Unclocked (p : Proc) (v : Nat) : Prop :=
  ∀ k < CLOCKSIZE, p.clock k ≠ 0 → vpn (p.clock k) ≠ v

theorem mencrypted_sz (s : St) (va : Nat) (len : Int) :
    (s.mencrypted va len).proc.sz = s.proc.sz := by
  unfold St.mencrypted
  split
  · split <;> rfl
  · rfl

theorem mencrypted_orderly {s : St} {va : Nat} {len : Int} (sound : s.Sound)
    (orderly : s.proc.Orderly)
    (spares : ∀ a, s.seals va len = some a → s.proc.Unclocked (vpn a)) :
    (s.mencrypted va len).proc.Orderly := by
  refine ⟨orderly.clock.carry (mencrypted_clock s va len) ?_ fun k hk filled below => ⟨?_, ?_⟩,
    (Recrypt.mencrypted sound va len).fits orderly.fits⟩
  · rw [mencrypted_head]
    exact orderly.clock.head
  · rwa [mencrypted_sz]
  · obtain same | ⟨a, usable, picked, flat⟩ := mencrypted_flat s va len
    · rw [same]
    · rw [flat, update_of_ne]
      exact spares a (by rw [St.seals, if_pos usable, picked]) k hk filled

section Grow
variable {s t : St} {n r : Int} {k : Nat}

/-- Of the pages below the old size `growproc` encrypts at most the one that holds
the old end. -/
theorem swept_below {sz v k : Nat} (size : sz ≤ 2 ^ 31) (below : v * 4096 < sz)
    (few : sz + k * 4096 ≤ 2 ^ 32) (swept : ∃ j < k, v = vpn (sz + j * 4096)) :
    sz % 4096 ≠ 0 ∧ v = vpn sz := by
  obtain ⟨j, hj, rfl⟩ := swept
  simp only [vpn, PGSIZE] at below ⊢
  omega

theorem vpn_below {a sz : Nat} (size : sz ≤ 2 ^ 31) (below : a < sz) : vpn a * 4096 < sz := by
  simp only [vpn, PGSIZE]
  omega

theorem le_pgRoundUp {sz : Nat} (size : sz ≤ 2 ^ 31) : sz ≤ pgRoundUp sz := by
  simp only [pgRoundUp, PGSIZE, uint]
  omega

/-- The pages below the size keep their entries, but for the one at the old end. -/
theorem grown_entry {m : Phys} {d : PgDir} {u : St} {added : Nat} (sound : s.Sound)
    (few : s.proc.sz + k * 4096 ≤ 2 ^ 32)
    (grown : Grown s.phys m s.proc.pgdir d (pgRoundUp s.proc.sz) added)
    (swept : Swept (s.withDir m d) u s.proc.sz k) {v : Nat} (below : v * 4096 < s.proc.sz)
    (other : s.proc.sz % 4096 ≠ 0 → v ≠ vpn s.proc.sz) :
    u.proc.pgdir.flat v = s.proc.pgdir.flat v := by
  have size : s.proc.sz ≤ 2 ^ 31 := sound.size
  have round := le_pgRoundUp size
  have old : d.flat v = s.proc.pgdir.flat v := grown.same v (by omega)
  obtain same | ⟨inside, _⟩ := swept.changed v
  · exact same.trans old
  · obtain ⟨ragged, here⟩ := swept_below size below few inside
    exact absurd here (other ragged)

theorem grown_fits {m : Phys} {d : PgDir} {u : St} {newsz : Nat} (user : newsz < KERNBASE)
    (grows : s.proc.sz ≤ newsz)
    (grown : Grown s.phys m s.proc.pgdir d (pgRoundUp s.proc.sz) (addedPages s.proc.sz newsz))
    (recrypt : Recrypt (s.withDir m d) u) (fits : s.proc.Fits) :
    ∀ v, (u.proc.pgdir.flat v).usable = true → v * 4096 < newsz := by
  intro v usable
  rw [Pte.usable, recrypt.dir.mapped, recrypt.dir.user] at usable
  change (d.flat v).usable = true at usable
  by_cases added : pgRoundUp s.proc.sz ≤ v * 4096 ∧
      v * 4096 < pgRoundUp s.proc.sz + addedPages s.proc.sz newsz * 4096
  · exact (added_page user added.1 added.2).2
  · rw [grown.same v added] at usable
    exact lt_of_lt_of_le (fits v usable) grows

theorem Shrunk.fits {m : Phys} {d : PgDir} {newsz : Nat} (size : s.proc.sz ≤ 2 ^ 31)
    (shrinks : newsz ≤ s.proc.sz)
    (shrunk : Shrunk s.phys m s.proc.pgdir d s.proc.sz newsz) (fits : s.proc.Fits) :
    ∀ v, (d.flat v).usable = true → v * 4096 < newsz := by
  intro v usable
  have mapped := (Pte.usable_iff.mp usable).1
  have same := shrunk.kept mapped
  rw [same] at usable mapped
  have below := fits v usable
  have flat := shrunk.flat v
  have kept : ¬ pgRoundUp newsz ≤ v * 4096 := by
    intro above
    rw [if_pos ⟨above, below, mapped⟩] at flat
    rw [← same, flat] at mapped
    simp at mapped
  simp only [pgRoundUp, PGSIZE, uint] at kept
  omega

/-- A page that starts below the new size is kept. -/
theorem Shrunk.entry {m m' : Phys} {d d' : PgDir} {oldsz newsz : Nat}
    (shrunk : Shrunk m m' d d' oldsz newsz) (size : newsz ≤ 2 ^ 31) {v : Nat}
    (below : v * 4096 < newsz) : d'.flat v = d.flat v := by
  have round := le_pgRoundUp size
  rw [shrunk.flat v, if_neg (by omega)]

theorem Resize.orderly (resize : Resize s n r t) (sound : s.Sound) (orderly : s.proc.Orderly)
    (grows : 0 < n → s.proc.sz % 4096 ≠ 0 → s.proc.Unclocked (vpn s.proc.sz))
    (shrinks : n < 0 → 0 ≤ s.proc.sz + n → ∀ k < CLOCKSIZE, s.proc.clock k ≠ 0 →
      s.proc.clock k < s.proc.sz + n) : t.proc.Orderly := by
  have size : s.proc.sz ≤ 2 ^ 31 := sound.size
  obtain ⟨clock, fits⟩ := orderly
  cases resize with
  | @grow m d u positive user grown swept =>
    have few : s.proc.sz + sweptPages n * 4096 ≤ 2 ^ 32 := by
      simp only [KERNBASE, sweptPages] at user ⊢
      omega
    have recrypt := swept.recrypt (grown.sound user sound)
    have fits := grown_fits user (Nat.le_add_right _ _) grown recrypt fits
    refine ⟨clock.carry swept.clock ?_ fun k hk filled below => ⟨?_, ?_⟩, fits⟩
    · exact lt_of_eq_of_lt swept.head clock.head
    · exact lt_of_lt_of_le below (Nat.le_add_right _ _)
    · exact grown_entry sound few grown swept (vpn_below size below)
        fun ragged => grows positive ragged k hk filled
  | short _ ungrown =>
    have round := le_pgRoundUp size
    refine ⟨clock.carry rfl clock.head fun k hk filled below => ⟨below, ?_⟩, fun v usable => ?_⟩
    · have page := vpn_below size below
      exact (ungrown.pages _).resolve_right (by omega)
    · obtain same | ⟨zero, _⟩ := ungrown.pages v
      · exact fits v (same ▸ usable)
      · have usable : (_ : Pte).usable = true := zero ▸ usable
        simp [Pte.usable] at usable
  | @shrink m d newsz negative value positive shrunk =>
    have fits := shrunk.fits size (by omega) fits
    refine ⟨clock.carry rfl clock.head fun k hk filled below => ?_, fits⟩
    have small := shrinks negative (by omega) k hk filled
    have small : s.proc.clock k < newsz := by omega
    exact ⟨small, shrunk.entry (by omega) (vpn_below (by omega) small)⟩
  | @drop m d negative value shrunk =>
    refine ⟨clock.carry rfl clock.head fun k hk filled below => ?_, fun v usable => ?_⟩
    · have small := shrinks negative (by omega) k hk filled
      omega
    · have none := shrunk.fits size (by omega) fits v usable
      omega
  | stay => exact ⟨clock.carry rfl clock.head fun k _ _ below => ⟨below, rfl⟩, fits⟩
  | none => exact ⟨clock, fits⟩

end Grow

theorem Proc.Orderly.child {p : Proc} {m m' : Phys} {d : PgDir} (orderly : p.Orderly)
    (size : p.sz ≤ 2 ^ 31) (space : ChildSpace m m' p.pgdir d p.sz) : (p.child d).Orderly := by
  obtain ⟨⟨head, entry, once⟩, fits⟩ := orderly
  have slots : ∀ k < CLOCKSIZE, (p.child d).clock k = p.clock k :=
    fun k hk => forkClock_slot p.head p.clock hk
  refine ⟨⟨head, fun k hk filled => ?_, fun j hj k hk filled same => ?_⟩, fun v usable => ?_⟩
  · rw [slots k hk] at filled ⊢
    obtain ⟨aligned, below, present, user, clear⟩ := entry k hk filled
    obtain ⟨_, f, _, copy, _⟩ := space.pages _ (vpn_below size below)
    have flags : ∀ bit, ((p.child d).pgdir.flat (vpn (p.clock k))).has bit =
        (p.pgdir.flat (vpn (p.clock k))).has bit := by
      intro bit
      change (d.flat _).has bit = _
      rw [copy]
      rfl
    exact ⟨aligned, below, by rw [flags, present], by rw [flags, user], by rw [flags, clear]⟩
  · rw [slots j hj] at filled same
    rw [slots k hk] at same
    exact once j hj k hk filled same
  · change (d.flat v).usable = true at usable
    by_contra above
    by_cases half : v < 2 ^ 19
    · rw [space.rest v half (not_lt.mp above)] at usable
      simp [Pte.usable] at usable
    · have user := (Pte.usable_iff.mp usable).2
      rw [(space.kernel v (by omega)).2] at user
      cases user

theorem Loaded.orderly {t : St} {n : Nat} (loaded : Loaded t n) (dir : t.proc.pgdir.Sound) :
    t.proc.Orderly := by
  refine ⟨⟨by rw [loaded.head]; decide, fun k _ filled => absurd (loaded.clock k) filled,
    fun k _ _ _ filled => absurd (loaded.clock k) filled⟩, fun v usable => ?_⟩
  rw [loaded.sz]
  by_contra above
  by_cases half : v < 2 ^ 19
  · rw [loaded.rest v half (by omega)] at usable
    simp [Pte.usable] at usable
  · have user := (Pte.usable_iff.mp usable).2
    rw [dir.guarded v (by omega)] at user
    cases user

/-- The event takes no page away that is in the clock: `mencrypt` encrypts another
one, `growproc` does not grow from the middle of one and does not free one. -/
def Event.sparesClock (s : Sys) (e : Event) : Prop :=
  let p := (s.slots e.proc).proc
  match e.call with
  | .mencrypt va len =>
    ∀ a, (s.view e.proc).seals va.toNat len.toInt = some a → p.Unclocked (vpn a)
  | .growproc n =>
    (0 < n.toInt → p.sz % 4096 ≠ 0 → p.Unclocked (vpn p.sz)) ∧
    (n.toInt < 0 → 0 ≤ p.sz + n.toInt →
      ∀ k < CLOCKSIZE, p.clock k ≠ 0 → p.clock k < p.sz + n.toInt)
  | _ => True

section Run
variable {pool lost : Multiset Nat} {s t : Sys} {i : Nat}

theorem Outcome.orderly {call : Call} {r : Option Int} (outcome : Outcome i s call r t)
    (owned : s.Owned pool lost) (hi : i < NPROC) (live : (s.slots i).state.live = true)
    (spares : Event.sparesClock s ⟨i, call, r⟩) (each : s.Each Proc.Orderly) :
    t.Each Proc.Orderly := by
  have sound := owned.view hi (live_used live)
  have mine : (s.view i).proc.Orderly := each i hi live
  cases outcome with
  | @load va b st run => exact each.put ((load_orderly sound mine va.isLt).of_ok run)
  | @store va b st run => exact each.put ((store_orderly sound mine va.isLt b).of_ok run)
  | mencrypt => exact each.put (mencrypted_orderly sound mine spares)
  | growproc resize => exact each.put (resize.orderly sound mine spares.1 spares.2)
  | exec done =>
    obtain ⟨_, w⟩ | ⟨_, settles, _, _, _, _, loaded⟩ := done
    · exact each.put (w.trail.orderly mine)
    · exact each.put (loaded.orderly settles.dir)
  | unforked failed => exact each.unforked failed
  | forked _ forked => exact each.forked forked fun d space => mine.child sound.size space
  | waited => exact each
  | reaped _ reaped => exact each.reaped reaped
  | piped piped =>
    obtain ⟨u, st, files, _, visits, rfl⟩ := piped
    have view : (u.view i).proc = (s.view i).proc := files.proc i
    rw [view] at visits
    exact (each.fileStep files).put (visits.orderly mine)
  | closed step => exact each.fileStep step
  | ended files _ _ exited => exact each.ended files exited

theorem step_orderly (pool : Multiset Nat) :
    Transition.Keeps (Transition.restrict Step Event.sparesClock) fun s =>
      (∃ lost, s.Owned pool lost) ∧ s.Each Proc.Orderly := by
  rintro s e t ⟨spares, step⟩ ⟨⟨lost, owned⟩, each⟩
  exact ⟨step_owned pool s e t step ⟨lost, owned⟩,
    (step.outcome owned).orderly owned step.1 step.2.1 spares each⟩

/-- In every run whose calls leave the pages in the clock alone and read no entry through a null
pointer, the clock of every process stays sound. -/
theorem clock_stays_sound (N : NullPte) {es : List Event} (owned : s.Owned pool lost)
    (start : s.Each Proc.Orderly)
    (run : Transition.Run (Transition.restrict Step (clearly Event.sparesClock)) s es t) :
    t.Each Proc.ClockSound := by
  obtain ⟨_, each⟩ := (run_clearly_iff.mp run).kept (step_orderly pool) ⟨⟨lost, owned⟩, start⟩
  exact fun i hi live => (each i hi live).clock

end Run

theorem elevenPageSys_orderly : elevenPageSys.Each Proc.Orderly := by
  intro i hi live
  by_cases first : i = 0
  · subst first
    refine ⟨⟨by decide, fun k _ filled => absurd rfl filled, fun k _ _ _ filled => absurd rfl filled⟩,
      fun v usable => ?_⟩
    change ((PgDir.single 1001 1002 elevenPages).flat v).usable = true at usable
    by_contra above
    change ¬ v * 4096 < 45056 at above
    have empty : elevenPages v = .zero := if_neg (by omega)
    simp [PgDir.single_flat, empty, Pte.usable] at usable
  · have idle : (elevenPageSys.slots i).state = .UNUSED := by
      simp [elevenPageSys, Sys.solo, first]
    rw [idle] at live
    cases live

/-- The process uses a page, grows by a page and gives it back. -/
theorem grow_and_shrink_sound :
    ∃ t, Transition.Run (Transition.restrict Step Event.sparesClock) elevenPageSys
        [⟨0, .load 0x1004, some 97⟩, ⟨0, .growproc 0x1000, some 0⟩, ⟨0, .growproc (-0x1000), some 0⟩]
        t ∧ t.Each Proc.ClockSound := by
  have owned := elevenPages_small.owned (m := elevenPageSys.phys)
    (p := (elevenPageSys.slots 0).proc) rfl rfl (by omega) (by decide)
  obtain ⟨s₁, is₁⟩ : ∃ s, s = after 0 (.load 0x1004) elevenPageSys := ⟨_, rfl⟩
  obtain ⟨s₂, is₂⟩ : ∃ s, s = after 0 (.growproc 0x1000) s₁ := ⟨_, rfl⟩
  obtain ⟨s₃, is₃⟩ : ∃ s, s = after 0 (.growproc (-0x1000)) s₂ := ⟨_, rfl⟩
  have first : Step elevenPageSys ⟨0, .load 0x1004, some 97⟩ s₁ := by
    rw [is₁]
    exact step_after (by decide) (by decide) (by decide +kernel)
  have second : Step s₁ ⟨0, .growproc 0x1000, some 0⟩ s₂ := by
    rw [is₂]
    exact step_after (by decide) (by rw [is₁]; decide +kernel) (by rw [is₁]; decide +kernel)
  have third : Step s₂ ⟨0, .growproc (-0x1000), some 0⟩ s₃ := by
    rw [is₃]
    exact step_after (by decide) (by rw [is₂, is₁]; decide +kernel)
      (by rw [is₂, is₁]; decide +kernel)
  have whole : (s₁.slots 0).proc.sz % 4096 = 0 := by
    rw [is₁]
    decide +kernel
  have low : ∀ k < CLOCKSIZE, (s₂.slots 0).proc.clock k ≠ 0 →
      ((s₂.slots 0).proc.clock k : Int) < (s₂.slots 0).proc.sz + (-0x1000 : BitVec 32).toInt := by
    rw [is₂, is₁]
    decide +kernel
  have run : Transition.Run (Transition.restrict Step Event.sparesClock) elevenPageSys
      [⟨0, .load 0x1004, some 97⟩, ⟨0, .growproc 0x1000, some 0⟩, ⟨0, .growproc (-0x1000), some 0⟩]
      s₃ :=
    .next ⟨trivial, first⟩ (.next ⟨⟨fun _ ragged => absurd whole ragged,
      fun negative => absurd negative (by decide)⟩, second⟩
      (.next ⟨⟨fun positive => absurd positive (by decide), fun _ _ => low⟩, third⟩ (.refl _)))
  exact ⟨s₃, run, clock_stays_sound .userWord owned elevenPageSys_orderly (run_clearly_iff.mpr run)⟩

/-- The process uses a page and has it encrypted: the clock still holds the page. -/
theorem mencrypt_leaves_entry :
    elevenPageSys.Each Proc.Orderly ∧
    allReturn [.load 0x1000, .mencrypt 0x1000 1] elevenPageSys = true ∧
    ((afterAll [.load 0x1000, .mencrypt 0x1000 1] elevenPageSys).slots 0).proc.clock 0 = 0x1000 ∧
    (((afterAll [.load 0x1000, .mencrypt 0x1000 1] elevenPageSys).slots 0).proc.pgdir.flat 1).has
      PTE_P = false := by
  refine ⟨elevenPageSys_orderly, ?_⟩
  decide +kernel

end Xv6
