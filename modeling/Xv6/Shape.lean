import Xv6.Clock

/-! The shape of an address space. The pages a process has are those that begin
below its size, and at most one of them, the guard page, is closed to user code.
`growproc` that fails can break this shape, so only its successful calls are
followed; as long as the shape holds, no routine finds a page mapped where it maps
one, or missing where it copies one. -/
namespace Xv6
open PteBit Control

structure Proc.Shaped (p : Proc) : Prop where
  mapped : ∀ v < 2 ^ 19, (p.pgdir.flat v).mapped = true ↔ v * 4096 < p.sz
  guard : ∀ u < 2 ^ 19, ∀ v < 2 ^ 19,
    (p.pgdir.flat u).mapped = true → (p.pgdir.flat u).has PTE_U = false →
    (p.pgdir.flat v).mapped = true → (p.pgdir.flat v).has PTE_U = false → u = v

/-- A page begins below the size exactly when it begins below the rounded size. -/
theorem below_pgRoundUp {sz v : Nat} (size : sz ≤ KERNBASE) :
    v * 4096 < pgRoundUp sz ↔ v * 4096 < sz := by
  simp only [pgRoundUp, uint, PGSIZE, KERNBASE] at *
  omega

namespace Proc.Shaped
variable {p q : Proc}

theorem remarks (shaped : p.Shaped) (dir : Remarks p.pgdir q.pgdir) (sz : q.sz = p.sz) :
    q.Shaped := by
  constructor
  · intro v half
    rw [dir.mapped, sz]
    exact shaped.mapped v half
  · intro u hu v hv
    rw [dir.mapped, dir.user, dir.mapped, dir.user]
    exact shaped.guard u hu v hv

theorem pages (shaped : p.Shaped) (size : p.sz ≤ KERNBASE) :
    ∀ v, v * 4096 < p.sz → (p.pgdir.flat v).mapped = true := by
  intro v below
  simp only [KERNBASE] at size
  exact (shaped.mapped v (by omega)).mpr below

theorem child {m m' : Phys} {d : PgDir} (shaped : p.Shaped)
    (space : ChildSpace m m' p.pgdir d p.sz) : (p.child d).Shaped := by
  have entry : ∀ v < 2 ^ 19, (d.flat v).mapped = (p.pgdir.flat v).mapped ∧
      ((d.flat v).mapped = true → (d.flat v).has PTE_U = (p.pgdir.flat v).has PTE_U) := by
    intro v half
    by_cases below : v * 4096 < p.sz
    · obtain ⟨_, f, _, copy, _⟩ := space.pages v below
      rw [copy]
      exact ⟨rfl, fun _ => rfl⟩
    · rw [space.rest v half (by omega), Pte.zero_mapped]
      refine ⟨?_, nofun⟩
      rw [eq_comm, Bool.eq_false_iff, ne_eq, shaped.mapped v half]
      exact below
  constructor
  · intro v half
    change (d.flat v).mapped = true ↔ v * 4096 < p.sz
    rw [(entry v half).1]
    exact shaped.mapped v half
  · intro u hu v hv mu gu mv gv
    change (d.flat u).mapped = true at mu
    change (d.flat u).has PTE_U = false at gu
    change (d.flat v).mapped = true at mv
    change (d.flat v).has PTE_U = false at gv
    rw [(entry u hu).2 mu] at gu
    rw [(entry v hv).2 mv] at gv
    rw [(entry u hu).1] at mu
    rw [(entry v hv).1] at mv
    exact shaped.guard u hu v hv mu gu mv gv

end Proc.Shaped

theorem Resize.shaped {s t : St} {n : Int} (resize : Resize s n 0 t) (sound : s.Sound)
    (shaped : s.proc.Shaped) : t.proc.Shaped := by
  have size : s.proc.sz ≤ 2 ^ 31 := sound.size
  have round : pgRoundUp s.proc.sz = (s.proc.sz + 4095) / 4096 * 4096 := by
    simp only [pgRoundUp, PGSIZE, uint]
    omega
  cases resize with
  | @grow m d u positive user grown swept =>
    have dir : Remarks d u.proc.pgdir := (swept.recrypt (grown.sound user sound)).dir
    -- A page is one of those added, which user code may use, or as it was.
    have entry : ∀ v, (pgRoundUp s.proc.sz ≤ v * 4096 ∧ v * 4096 < s.proc.sz + n.toNat ∧
        (d.flat v).mapped = true ∧ (d.flat v).has PTE_U = true) ∨
        ¬ (pgRoundUp s.proc.sz ≤ v * 4096 ∧ v * 4096 < s.proc.sz + n.toNat) ∧
          d.flat v = s.proc.pgdir.flat v := by
      intro v
      by_cases added : pgRoundUp s.proc.sz ≤ v * 4096 ∧ v * 4096 < s.proc.sz + n.toNat
      · obtain ⟨_, f, _, new, _⟩ := grown.fresh v added.1 (by
          simp only [addedPages]
          omega)
        rw [new]
        exact Or.inl ⟨added.1, added.2, userPte_mapped f, by simp [userPte_has]⟩
      · refine Or.inr ⟨added, grown.same v fun inside => added ⟨inside.1, ?_⟩⟩
        exact (added_page user inside.1 inside.2).2
    have grown : (⟨s.proc.sz + n.toNat, d, s.proc.clock, s.proc.head, s.proc.tlb, s.proc.name,
        s.proc.eip, s.proc.esp⟩ : Proc).Shaped := by
      constructor
      · intro v half
        change (d.flat v).mapped = true ↔ v * 4096 < s.proc.sz + n.toNat
        obtain ⟨low, high, mapped, _⟩ | ⟨outside, same⟩ := entry v
        · exact ⟨fun _ => high, fun _ => mapped⟩
        · rw [same, shaped.mapped v half]
          omega
      · intro u hu v hv
        change (d.flat u).mapped = true → (d.flat u).has PTE_U = false →
          (d.flat v).mapped = true → (d.flat v).has PTE_U = false → u = v
        obtain ⟨_, _, _, open_⟩ | ⟨_, same⟩ := entry u
        · rw [open_]
          exact fun _ => by simp
        obtain ⟨_, _, _, open_⟩ | ⟨_, same'⟩ := entry v
        · rw [open_]
          exact fun _ _ _ => by simp
        rw [same, same']
        exact shaped.guard u hu v hv
    exact grown.remarks dir rfl
  | @shrink m d newsz negative value positive shrunk =>
    have round' : pgRoundUp newsz = (newsz + 4095) / 4096 * 4096 := by
      simp only [pgRoundUp, PGSIZE, uint]
      omega
    constructor
    · intro v half
      change (d.flat v).mapped = true ↔ v * 4096 < newsz
      rw [shrunk.flat v]
      have before := shaped.mapped v half
      split
      · rename_i freed
        rw [Pte.zero_mapped]
        refine ⟨by simp, fun below => ?_⟩
        omega
      · rename_i kept
        rw [not_and, not_and] at kept
        constructor
        · intro mapped
          have below := before.mp mapped
          by_contra above
          exact kept (by omega) below mapped
        · intro below
          exact before.mpr (by omega)
    · intro u hu v hv mu gu mv gv
      have same := shrunk.kept mu
      have same' := shrunk.kept mv
      change (d.flat u).mapped = true at mu
      change (d.flat u).has PTE_U = false at gu
      change (d.flat v).mapped = true at mv
      change (d.flat v).has PTE_U = false at gv
      rw [same] at mu gu
      rw [same'] at mv gv
      exact shaped.guard u hu v hv mu gu mv gv
  | stay => exact shaped.remarks (.refl _) rfl

theorem Loaded.shaped {t : St} {n : Nat} (loaded : Loaded t n) (dir : t.proc.pgdir.Sound) :
    t.proc.Shaped := by
  have sz := loaded.sz
  have stack : (t.proc.pgdir.flat (n + 1)).mapped = true := by simp [Pte.mapped, loaded.stack]
  have guard : ∀ v < 2 ^ 19, (t.proc.pgdir.flat v).mapped = true →
      (t.proc.pgdir.flat v).has PTE_U = false → v = n := by
    intro v half mapped closed
    by_contra other
    by_cases text : v < n
    · rw [(Pte.usable_iff.mp (loaded.text v text).1).2] at closed
      cases closed
    by_cases top : v = n + 1
    · subst top
      obtain zero | ⟨_, user⟩ := dir.tidy (n + 1)
      · exact Pte.mapped_ne_zero mapped zero
      · rw [user loaded.stack] at closed
        cases closed
    · rw [loaded.rest v half (by omega), Pte.zero_mapped] at mapped
      cases mapped
  constructor
  · intro v half
    rw [sz]
    by_cases text : v < n
    · exact ⟨fun _ => by omega, fun _ => (Pte.usable_iff.mp (loaded.text v text).1).1⟩
    by_cases closed : v = n
    · subst closed
      exact ⟨fun _ => by omega, fun _ => loaded.guarded⟩
    by_cases top : v = n + 1
    · subst top
      exact ⟨fun _ => by omega, fun _ => stack⟩
    · rw [loaded.rest v half (by omega), Pte.zero_mapped]
      exact ⟨by simp, fun below => by omega⟩
  · intro u hu v hv mu gu mv gv
    rw [guard u hu mu gu, guard v hv mv gv]

/-- The event is not a call of `growproc` that fails. -/
def Event.resizes (e : Event) : Prop :=
  match e.call with
  | .growproc _ => e.result = some 0
  | _ => True

section Run
variable {pool lost : Multiset Nat} {s t : Sys} {i : Nat}

theorem Outcome.shaped {call : Call} {r : Option Int} (outcome : Outcome i s call r t)
    (owned : s.Owned pool lost) (hi : i < NPROC) (live : (s.slots i).state.live = true)
    (resizes : Event.resizes ⟨i, call, r⟩) (each : s.Each Proc.Shaped) : t.Each Proc.Shaped := by
  have sound := owned.view hi (live_used live)
  have mine : (s.view i).proc.Shaped := each i hi live
  have touched : ∀ {st : St}, Touches (s.view i) st → (s.put i st).Each Proc.Shaped :=
    fun touches => each.put (mine.remarks touches.dir touches.sz)
  cases outcome with
  | load run => exact touched ((load_spec sound true _).of_ok run).1.toTouches
  | store run => exact touched ((store_spec sound true _ _ (Or.inl rfl)).of_ok run).toTouches
  | mencrypt => exact touched (Recrypt.mencrypted sound _ _).toTouches
  | @growproc n r st resize =>
    obtain rfl : r = 0 := by simpa [Event.resizes] using resizes
    exact each.put (resize.shaped sound mine)
  | exec done =>
    obtain ⟨_, w⟩ | ⟨_, settles, _, _, _, _, loaded⟩ := done
    · exact each.put (mine.remarks w.dir w.sz)
    · exact each.put (loaded.shaped settles.dir)
  | unforked failed => exact each.unforked failed
  | forked _ forked => exact each.forked forked fun d space => mine.child space
  | waited => exact each
  | reaped _ reaped => exact each.reaped reaped
  | piped piped =>
    obtain ⟨u, st, files, touches, _, rfl⟩ := piped
    have view : (u.view i).proc = (s.view i).proc := files.proc i
    refine (each.fileStep files).put (mine.remarks ?_ ?_)
    · rw [← view]
      exact touches.dir
    · rw [← view]
      exact touches.sz
  | closed step => exact each.fileStep step
  | ended files _ _ exited => exact each.ended files exited

theorem step_shaped (pool : Multiset Nat) :
    Transition.Keeps (Transition.restrict Step fun _ e => e.resizes) fun s =>
      (∃ lost, s.Owned pool lost) ∧ s.Each Proc.Shaped := by
  rintro s e t ⟨resizes, step⟩ ⟨⟨lost, owned⟩, each⟩
  exact ⟨step_owned pool s e t step ⟨lost, owned⟩,
    (step.outcome owned).shaped owned step.1 step.2.1 resizes each⟩

end Run

end Xv6
