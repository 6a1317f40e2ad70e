import Xv6.Boot
import Xv6.Calm
import Xv6.Capacity
import Xv6.GetPgTable

/-! The first process is in shape, and so is every process that comes after it. -/
namespace Xv6
open PteBit Control

section First
variable {m : Phys} {d : PgDir}

/-- With room for the page and its page table, `inituvm` gives the blank address
space its first page. -/
theorem inituvm_spec (blank : d.Blank) (nodup : m.freelist.Nodup) (room : Room m d 1)
    {init : List UInt8} (fits : init.length < PGSIZE) :
    Sat (inituvm d init) m (fun d' m' => Moves m m' d.frames d'.frames ∧
      ∃ f, d'.flat = Function.update d.flat 0 (userPte f)) (fun _ _ => False) := by
  rw [inituvm, if_neg (by omega)]
  refine .seq ((kalloc_spec m).and (kalloc_room room)) ?_ (fun _ _ stop => stop.2)
  rintro _ m₁ ⟨taken, f, rfl, room⟩
  obtain ⟨free, bytes, image⟩ := taken
  dsimp only
  rw [sat_bind, memset, sat_modify, sat_bind]
  have room : Room (m₁.write f (Page.fill 0)) d 0 := room
  refine ((mappages_user d 0 f _ (by decide) (by decide)).and (mappages_room _ _
    (fun v _ high => ?_) (by decide) (by decide) (by decide))).mono ?_ (fun _ _ stop => stop.2)
  · have first : v = 0 := by
      simp only [PGSIZE] at high
      omega
    rw [first, blank.empty 0 (by decide), Pte.zero_mapped]
  · rintro ⟨ok, d'⟩ m₂ ⟨added, enough, _⟩
    obtain rfl : ok = true := (enough 0 room).1
    obtain ⟨_, flat, B, moves, frames⟩ := added
    obtain ⟨gains, _, _⟩ := page_added free bytes image moves frames nodup
    have held : f ∈ d'.frames := by simp [frames]
    exact ⟨gains.moves.trans (blit_moves m₂ held init), f, flat⟩

/-- A machine with one process, whose frames come from the pool. -/
theorem owned_first {u : Sys} {pool : Multiset Nat} {i : Nat} (hi : i < NPROC)
    (files : ∀ k, (u.files k).type ≠ .FD_PIPE) (pipes : ∀ p, (u.pipes p).inUse = false)
    (others : ∀ j, j ≠ i → (u.slots j).state = .UNUSED)
    (account : (u.phys.freelist : Multiset Nat) + (u.slots i).frames = pool) (nodup : pool.Nodup)
    (range : ∀ f ∈ pool, f < PHYSTOP / PGSIZE) (dir : (u.slots i).proc.pgdir.Sound)
    (size : (u.slots i).proc.sz ≤ KERNBASE) : u.Owned pool 0 := by
  have closed : u.pipeFrames = 0 := Tally.total_eq_zero fun f _ => by simp [Sys.pipeFrame, pipes f]
  have procs := Tally.total_change (f := fun _ => (0 : Multiset Nat))
    (g := fun j => (u.slots j).frames) hi fun j _ ne => if_pos (others j ne)
  rw [Tally.total_eq_zero fun _ _ => rfl, add_zero, zero_add] at procs
  constructor
  · rw [Sys.procFrames, procs, closed, add_zero, add_zero, account]
  · exact nodup
  · exact range
  · constructor
    · exact fun k _ => files k
    · exact fun k pipe => absurd pipe (files k)
    · exact fun k _ pipe => absurd pipe (files k)
    · intro p w opened
      have used := (u.pipes p).inUse_iff.mpr ⟨w, opened⟩
      rw [pipes p] at used
      cases used
    · intro p used
      rw [pipes p] at used
      cases used
  · intro j _ used
    by_cases here : j = i
    · rw [here]
      exact ⟨dir, size⟩
    · exact absurd (others j here) used

theorem kalloc_some {m : Phys} (free : m.freelist ≠ []) :
    Sat kalloc m (fun r _ => ∃ f, r = some f) (fun _ _ => False) := by
  unfold kalloc
  simp only [sat_bind, sat_get]
  cases list : m.freelist with
  | nil => exact absurd list free
  | cons f rest => exact ⟨f, rfl⟩

/-- With a slot and a frame to give, `allocproc` gives them. -/
theorem allocproc_room {s : Sys} {i : Nat} (hi : i < NPROC) (unused : (s.slots i).state = .UNUSED)
    (free : s.phys.freelist ≠ []) :
    Sat allocproc s (fun r _ => r ≠ none) (fun _ _ => False) := by
  rw [allocproc, sat_bind, sat_get]
  cases found : (List.range NPROC).find? fun i => (s.slots i).state = .UNUSED with
  | none =>
    have all := List.find?_eq_none.mp found i (List.mem_range.mpr hi)
    simp [unused] at all
  | some np =>
    simp only [sat_bind, modifySlot, sat_modify, sysPhys, sat_zoom]
    refine (kalloc_some (m := s.phys) free).imp ?_
    rintro _ _ ⟨f, rfl⟩
    rintro ⟨⟩

/-- One page at address 0, for user code. -/
theorem first_page {d' : PgDir} {f : Nat} (blank : d.Blank)
    (flat : d'.flat = Function.update d.flat 0 (userPte f)) :
    d'.Sound ∧ ∀ p : Proc, p.pgdir = d' → p.sz = PGSIZE → p.Shaped := by
  have entry : ∀ v, v = 0 ∧ d'.flat v = userPte f ∨ v ≠ 0 ∧ d'.flat v = d.flat v := by
    intro v
    by_cases here : v = 0
    · exact Or.inl ⟨here, by rw [flat, here, Function.update_self]⟩
    · exact Or.inr ⟨here, by rw [flat, Function.update_of_ne here]⟩
  constructor
  · constructor
    · intro v
      obtain ⟨_, new⟩ | ⟨_, same⟩ := entry v
      · rw [new]
        exact userPte_tidy f
      · rw [same]
        exact blank.sound.tidy v
    · intro v kernel
      obtain ⟨zero, _⟩ | ⟨_, same⟩ := entry v
      · omega
      · rw [same]
        exact blank.sound.guarded v kernel
  · rintro p rfl sz
    constructor
    · intro v half
      rw [sz]
      obtain ⟨rfl, new⟩ | ⟨ne, same⟩ := entry v
      · rw [new]
        exact ⟨fun _ => by decide, fun _ => userPte_mapped f⟩
      · rw [same, blank.empty v half, Pte.zero_mapped]
        exact ⟨nofun, fun below => by simp only [PGSIZE] at below; omega⟩
    · intro u hu v hv mu gu
      obtain ⟨_, new⟩ | ⟨_, same⟩ := entry u
      · rw [new] at gu
        simp [userPte_has] at gu
      · rw [same, blank.empty u hu, Pte.zero_mapped] at mu
        cases mu

/-- The machine after `userinit`: one process, in shape, and every frame in place. -/
theorem userinit_spec (nodup : m.freelist.Nodup)
    (range : ∀ f ∈ m.freelist, f < PHYSTOP / PGSIZE) (enough : 1027 ≤ m.freelist.length)
    {initcode : List UInt8} (fits : initcode.length < PGSIZE) :
    Sat (userinit initcode) (Sys.boot m)
      (fun _ t => t.Owned (m.freelist : Multiset Nat) 0 ∧ t.Each Proc.Shaped ∧
        ∃ i < NPROC, (t.slots i).state = .RUNNABLE ∧ (t.slots i).proc.sz = PGSIZE)
      (fun _ _ => False) := by
  rw [userinit]
  refine .seq ((allocproc_spec _).and (allocproc_room (i := 0) (by decide) rfl fun none => ?_)) ?_
    (fun _ _ stop => stop.2)
  · have none : m.freelist = [] := none
    rw [none, List.length_nil] at enough
    omega
  rintro (_ | i) t ⟨taken, found⟩
  · exact absurd rfl found
  obtain ⟨hi, _, kstack, m₁, free, bytes, image, rfl⟩ := taken
  have free : m.freelist = kstack :: m₁.freelist := free
  have stack := kalloc_moves free bytes image
  have nodup₁ := nodup_of_le stack.free_le nodup
  rw [free, List.length_cons] at enough
  simp only [sat_bind, sat_modify, sysPhys, sat_zoom]
  refine ((setupkvm_spec m₁).and (setupkvm_room (n := 1) (by omega))).mono ?_
    (fun _ _ stop => stop.2)
  rintro _ m₂ ⟨built, d, rfl, room⟩
  obtain ⟨moves, blank⟩ := built
  simp only [sat_bind, sat_zoom, modifySlot, sat_modify]
  refine (inituvm_spec blank (nodup_of_le moves.free_le nodup₁) room fits).imp ?_
  rintro d' m₃ ⟨moves', f, flat⟩
  obtain ⟨sound, shaped⟩ := first_page blank flat
  have account := (stack.trans ((moves.trans moves').frame_left {kstack})).sum
  suffices done : ∀ t : Sys, t.phys = m₃ → t.files = (Sys.boot m).files →
      t.pipes = (Sys.boot m).pipes → (t.slots i).state = .RUNNABLE →
      (t.slots i).kstack = some kstack → (t.slots i).proc.pgdir = d' →
      (t.slots i).proc.sz = PGSIZE → (∀ j, j ≠ i → (t.slots j).state = .UNUSED) →
      t.Owned (m.freelist : Multiset Nat) 0 ∧ t.Each Proc.Shaped ∧
        ∃ i < NPROC, (t.slots i).state = .RUNNABLE ∧ (t.slots i).proc.sz = PGSIZE by
    refine done _ rfl rfl rfl ?_ ?_ ?_ ?_ fun j ne => ?_
    all_goals simp only [Sys.setSlot, Function.update_self]
    rw [Function.update_of_ne ne, Function.update_of_ne ne]
    rfl
  intro t phys files pipes state stacked dir sz others
  have frames : (t.slots i).frames = {kstack} + d'.frames := by
    rw [Slot.frames, if_neg (by rw [state]; rintro ⟨⟩), stacked, dir]
    rfl
  refine ⟨owned_first hi (fun k => ?_) (fun p => ?_) others ?_ (Multiset.coe_nodup.mpr nodup) range
    (by rwa [dir]) (by rw [sz]; decide), fun j _ live => ?_, i, hi, state, sz⟩
  · rw [files]
    rintro ⟨⟩
  · rw [pipes]
    rfl
  · rw [frames, phys]
    simpa using account
  · by_cases here : j = i
    · subst here
      exact shaped _ dir sz
    · rw [others j here] at live
      cases live

end First

/-- Let `userinit` start the first process on a machine with frames enough. Then in
every state that calls can lead to, as long as no `growproc` fails and no call reads an entry
through a null pointer, a page below the kernel is mapped exactly when it begins below the
rounded size of its process, it is either present or encrypted, and user code may use all mapped
pages but one at most. No call stops because a page it maps is mapped already, or because a page
it copies is missing. -/
theorem address_space_shape (N : NullPte) {m : Phys} (nodup : m.freelist.Nodup)
    (range : ∀ f ∈ m.freelist, f < PHYSTOP / PGSIZE) (enough : 1027 ≤ m.freelist.length)
    {initcode : List UInt8} (fits : initcode.length < PGSIZE) {es : List Event} {s : Sys}
    (run : Transition.Run (Transition.restrict Step (clearly fun _ e => e.resizes))
      (final (userinit initcode) (Sys.boot m)) es s) :
    value (userinit initcode) (Sys.boot m) = some () ∧
    (∀ i < NPROC, (s.slots i).state.live = true →
      (∀ va < KERNBASE, va % PGSIZE = 0 →
        (((s.slots i).proc.pgdir.flat (vpn va)).mapped = true ↔ va < pgRoundUp (s.slots i).proc.sz) ∧
        (((s.slots i).proc.pgdir.flat (vpn va)).mapped = true →
          ((s.slots i).proc.pgdir.flat (vpn va)).has PTE_P ≠
            ((s.slots i).proc.pgdir.flat (vpn va)).has PTE_E)) ∧
      ∀ va < KERNBASE, ∀ wa < KERNBASE, va % PGSIZE = 0 → wa % PGSIZE = 0 →
        ((s.slots i).proc.pgdir.flat (vpn va)).mapped = true →
        ((s.slots i).proc.pgdir.flat (vpn wa)).mapped = true →
        ((s.slots i).proc.pgdir.flat (vpn va)).has PTE_U = false →
        ((s.slots i).proc.pgdir.flat (vpn wa)).has PTE_U = false → va = wa) ∧
    ∀ i < NPROC, (s.slots i).state.live = true → ∀ call e t,
      ¬ HitsNull (@perform .stop i call) s → (perform i call).run s = .error e t →
      e ≠ .panic "p4Debug, remapping page" ∧
      e ≠ .panic "p4Debug: inside copyuvm, pte should exist" ∧
      e ≠ .panic "p4Debug: inside copyuvm, page not present" := by
  obtain ⟨⟨⟩, s₀, boot, owned₀, shaped₀, _⟩ := (userinit_spec nodup range enough fits).returns
  have started : value (userinit initcode) (Sys.boot m) = some () := by rw [value, boot]
  have first : final (userinit initcode) (Sys.boot m) = s₀ := by rw [final, boot]
  rw [first] at run
  obtain ⟨⟨_, owned⟩, shaped⟩ := (run_clearly_iff.mp run).kept (step_shaped _) ⟨⟨0, owned₀⟩, shaped₀⟩
  refine ⟨started, fun i hi live => ?_, fun i hi live call e t clear stop => ?_⟩
  · obtain ⟨dir, size⟩ := owned.dirs i hi (live_used live)
    have page : ∀ va < KERNBASE, va % PGSIZE = 0 → vpn va < 2 ^ 19 ∧ vpn va * 4096 = va := by
      intro va low aligned
      simp only [vpn, PGSIZE, KERNBASE] at *
      omega
    refine ⟨fun va low aligned => ⟨?_, fun mapped => ?_⟩,
      fun va hv wa hw av aw mv mw gv gw => ?_⟩
    · obtain ⟨half, start⟩ := page va low aligned
      have below := below_pgRoundUp (v := vpn va) size
      rw [(shaped i hi live).mapped _ half, ← below, start]
    · obtain zero | ⟨either, _⟩ := dir.tidy (vpn va)
      · exact absurd zero (Pte.mapped_ne_zero mapped)
      · rw [either]
        simp
    · obtain ⟨half, start⟩ := page va hv av
      obtain ⟨half', start'⟩ := page wa hw aw
      rw [← start, ← start', (shaped i hi live).guard _ half _ half' mv gv mw gw]
  · rw [(perform_steady i call).run_eq clear N] at stop
    have shapely := (perform_shapely hi live owned (shaped i hi live) call).of_error stop
    simpa [Stop.Shapely, Stop.Misshapen] using shapely

/-- The first process can have its page encrypted. -/
theorem first_mencrypt {m : Phys} (nodup : m.freelist.Nodup)
    (range : ∀ f ∈ m.freelist, f < PHYSTOP / PGSIZE) (enough : 1027 ≤ m.freelist.length)
    {initcode : List UInt8} (fits : initcode.length < PGSIZE) :
    ∃ i < NPROC, ∃ r t, Step (final (userinit initcode) (Sys.boot m)) ⟨i, .mencrypt 0 1, some r⟩ t ∧
      (t.slots i).state.live = true ∧ (t.slots i).proc.sz = PGSIZE := by
  obtain ⟨⟨⟩, s₀, boot, owned, shaped, i, hi, state, sz⟩ :=
    (userinit_spec nodup range enough fits).returns
  have first : final (userinit initcode) (Sys.boot m) = s₀ := by rw [final, boot]
  have live : (s₀.slots i).state.live = true := by rw [state]; rfl
  have mapped := ((shaped i hi live).mapped 0 (by decide)).mpr (by rw [sz]; decide)
  have page : (walkpgdir (s₀.view i).proc.pgdir 0).isSome := by
    have walk : walkpgdir (s₀.slots i).proc.pgdir 0 = _ := PgDir.walk_of_mapped mapped
    exact Option.isSome_iff_exists.mpr ⟨_, walk⟩
  rw [first]
  have performed : Sat (perform i (.mencrypt 0 1)) s₀
      (fun r t => r ≠ none ∧ t = s₀.put i ((s₀.view i).mencrypted 0 1)) (fun _ _ => False) := by
    rw [perform, sat_tryCatch, sat_bind]
    change Sat (onProc i (mencrypt 0 1)) s₀ _ _
    rw [onProc, sat_zoom]
    exact (mencrypt_one page).mono (fun r st is => ⟨by simp, by rw [is]⟩) (fun _ _ stop => stop.elim)
  obtain ⟨_ | r, t, run, some, after⟩ := performed.returns
  · exact absurd rfl some
  refine ⟨i, hi, r, t, ⟨hi, live, run⟩, ?_, ?_⟩
  · rw [after, s₀.put_state]
    exact live
  · have proc : (t.slots i).proc = ((s₀.view i).mencrypted 0 1).proc := by
      rw [after]
      exact congrArg St.proc (s₀.view_put i _)
    rw [proc, (Recrypt.mencrypted (owned.view hi (live_used live)) 0 1).sz]
    exact sz

/-- A machine with 1100 free frames. -/
def bootPhys : Phys := ⟨smallImage, fun _ => Page.fill 1, List.range' 2000 1100⟩

/-- After `userinit` the first process encrypts its page, and still has it. -/
theorem booted_process_shaped : ∃ i < NPROC, ∃ r t,
    Transition.Run (Transition.restrict Step fun _ e => e.resizes)
      (final (userinit [0xEB, 0xFE]) (Sys.boot bootPhys)) [⟨i, .mencrypt 0 1, some r⟩] t ∧
    ((t.slots i).proc.pgdir.flat 0).mapped = true := by
  have nodup : bootPhys.freelist.Nodup := List.nodup_range'
  have range : ∀ f ∈ bootPhys.freelist, f < PHYSTOP / PGSIZE := by
    intro f member
    obtain ⟨_, high⟩ := List.mem_range'_1.mp member
    simp only [PHYSTOP, PGSIZE]
    omega
  have enough : 1027 ≤ bootPhys.freelist.length := by
    rw [bootPhys, List.length_range']
    decide
  have fits : ([0xEB, 0xFE] : List UInt8).length < PGSIZE := by decide
  obtain ⟨i, hi, r, t, step, live, sz⟩ := first_mencrypt nodup range enough fits
  have run : Transition.Run (Transition.restrict Step fun _ e => e.resizes)
      (final (userinit [0xEB, 0xFE]) (Sys.boot bootPhys)) [⟨i, .mencrypt 0 1, some r⟩] t :=
    .next ⟨trivial, step⟩ (.refl t)
  refine ⟨i, hi, r, t, run, ?_⟩
  obtain ⟨_, shape, _⟩ := address_space_shape .userWord nodup range enough fits (run_clearly_iff.mpr run)
  exact ((shape i hi live).1 0 (by decide) (by decide)).1.mpr (by rw [sz]; decide)

end Xv6
