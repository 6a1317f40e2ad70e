import Xv6.Capacity
import Xv6.GetPgTable
import Xv6.NullReads
import Xv6.Outcome
import Xv6.Solo

/-! Every frame handed to the allocator has exactly one owner, over whole runs of
the machine. The one way to lose frames is a process that a page fault ends in
the middle of `exec`: nobody frees the image that was being built. -/
namespace Xv6
open Control

section Step
variable {pool lost : Multiset Nat} {s : Sys} {i : Nat}

/-- The account after a call: nothing else is lost, or the call was an `exec`
that could not spare its image. -/
abbrev Settled (pool lost : Multiset Nat) (s : Sys) (i : Nat) (call : Call) (t : Sys) : Prop :=
  ∃ L, t.Owned pool (lost + L) ∧ (Event.sparesImage s ⟨i, call, none⟩ → L = 0)

theorem Outcome.settled {call : Call} {r : Option Int} {t : Sys} (outcome : Outcome i s call r t)
    (owned : s.Owned pool lost) (hi : i < NPROC) (used : (s.slots i).state ≠ .UNUSED) :
    Settled pool lost s i call t := by
  have sound := owned.view hi used
  have own : ∀ {call : Call} {st : St}, Settles (s.view i) st 0 →
      Settled pool lost s i call (s.put i st) :=
    fun settles => ⟨0, owned.settled hi used settles, fun _ => rfl⟩
  have whole : ∀ {call : Call} {t : Sys}, t.Owned pool lost → Settled pool lost s i call t :=
    fun owned => ⟨0, by rwa [add_zero], fun _ => rfl⟩
  cases outcome with
  | load run => exact own (((load_spec sound true _).of_ok run).1.settles sound)
  | store run => exact own (((store_spec sound true _ _ (Or.inl rfl)).of_ok run).settles sound)
  | mencrypt => exact own ((Recrypt.mencrypted sound _ _).settles sound)
  | growproc resize => exact own (resize.settles sound)
  | exec done =>
    obtain ⟨_, w⟩ | ⟨_, settles, _⟩ := done
    · exact own (w.settles sound)
    · exact own settles
  | unforked failed => exact whole (owned.unforked failed)
  | forked hn forked => exact whole (owned.forked hi hn used forked)
  | waited => exact whole owned
  | reaped hj reaped => exact whole (owned.reaped hj reaped)
  | piped piped => exact whole (owned.piped hi used piped)
  | closed step => exact whole (owned.fileStep step)
  | @ended _ u t st L files settles spares exited =>
    have used : (u.slots i).state ≠ .UNUSED := by rwa [files.state i]
    refine ⟨L, ((owned.fileStep files).settled hi used settles).exited exited ?_, spares⟩
    rwa [u.put_state]

/-- Over any run, every frame has an owner or is lost. -/
theorem step_owned (pool : Multiset Nat) :
    Transition.Keeps Step fun s => ∃ lost, s.Owned pool lost := by
  rintro s e t step ⟨lost, owned⟩
  obtain ⟨L, owned, _⟩ := (step.outcome owned).settled owned step.1 (live_used step.2.1)
  exact ⟨_, owned⟩

theorem step_spares (pool : Multiset Nat) :
    Transition.Keeps (Transition.restrict Step Event.sparesImage) fun s => s.Owned pool 0 := by
  rintro s e t ⟨spares, step⟩ owned
  obtain ⟨L, owned, none⟩ := (step.outcome owned).settled owned step.1 (live_used step.2.1)
  rwa [none spares, add_zero] at owned

/-- As long as no `exec` can be cut short by a page fault on its strings, and no call reads a
page-table entry through a null pointer, each frame of the pool stays in exactly one place: on
the free list, or once with one process, or as a pipe. -/
theorem frames_in_one_place (N : NullPte) {t : Sys} {es : List Event} (owned : s.Owned pool 0)
    (run : Transition.Run (Transition.restrict Step (clearly Event.sparesImage)) s es t) :
    t.Owned pool 0 ∧ ∀ f ∈ pool,
      List.count f t.phys.freelist + Multiset.count f t.procFrames + Multiset.count f t.pipeFrames
        = 1 := by
  have after := (run_clearly_iff.mp run).kept (step_spares pool) owned
  refine ⟨after, fun f member => ?_⟩
  have once := Multiset.count_eq_one_of_mem after.nodup member
  have account := congrArg (Multiset.count f) after.account
  simp only [Multiset.count_add, Multiset.coe_count, Multiset.count_zero] at account
  omega

end Step
theorem PgDir.frames_ne_zero (d : PgDir) : d.frames ≠ 0 := by
  intro none
  have member : d.frame ∈ d.frames := by
    simp only [frames, Multiset.mem_add, Multiset.mem_singleton, true_or]
  rw [none] at member
  exact Multiset.notMem_zero _ member

section Leak
variable {s t : St} {arg : Nat}

/-- A page fault on this address ends the process. -/
structure Deadly (s : St) (a : Nat) : Prop where
  low : a < 2 ^ 31
  mapped : (s.proc.pgdir.flat (vpn a)).mapped = true
  fault : s.proc.resident false a = none
  fatal : s.fatal a
  free : ¬ s.Stuck a

theorem load_deadly (sound : s.Sound) (deadly : Deadly s arg) :
    Sat (load false arg) s (fun _ _ => False) (fun e u => e = .exit ∧ Touches s u) := by
  have walk := PgDir.walk_of_mapped deadly.mapped
  have absent : (s.proc.pgdir.flat (vpn arg)).has PteBit.PTE_P = false := by
    have fault := deadly.fault
    rw [Proc.resident, walk, Option.filter_eq_none_iff] at fault
    simpa using fault _ rfl
  have coded : (s.proc.pgdir.flat (vpn arg)).has PteBit.PTE_E = true := by
    simpa [Pte.mapped, absent] using deadly.mapped
  have user : (s.proc.pgdir.flat (vpn arg)).has PteBit.PTE_U = true := by
    obtain zero | ⟨_, user⟩ := sound.dir.tidy (vpn arg)
    · exact absurd zero (Pte.mapped_ne_zero deadly.mapped)
    · exact user coded
  have refused : ¬ s.Opens arg := by
    rw [opens_iff sound user coded, not_not]
    exact deadly.fatal
  rw [load]
  refine .seq ((access_spec false s arg).and (access_recrypt sound false arg)) ?_ ?_
  · rintro f u ⟨⟨here, _⟩ | ⟨_, _, opens, _⟩, _⟩
    · rw [deadly.fault] at here
      cases here
    · exact refused opens
  · rintro e u ⟨⟨_, ⟨_, stuck⟩ | ⟨rfl, _⟩⟩, stop⟩
    · exact absurd stuck deadly.free
    · exact ⟨rfl, stop.resolve_left (fun ne => ne rfl)⟩

/-- There is memory for the image of a program without segments. -/
theorem execSpace_bare {ip : Inode} {elf : ElfHdr} {m : Phys} (bare : elf.phnum = 0)
    (enough : 1027 ≤ m.freelist.length) (nodup : m.freelist.Nodup) :
    Sat (execSpace ip elf) m (fun r _ => r ≠ none) (fun _ _ => False) := by
  have start : ((m.freelist : Multiset Nat) + 0).Nodup := by rwa [add_zero, Multiset.coe_nodup]
  rw [execSpace, sat_bind]
  refine ((setupkvm_room (n := 2) enough).and (setupkvm_spec m)).mono ?_
    (fun _ _ stop => stop.1.elim)
  rintro _ m₁ ⟨⟨d, rfl, room⟩, taken, blank⟩
  dsimp only
  rw [bare, sat_bind, execLoad, sat_pure]
  dsimp only
  have empty : pgRoundUp 0 = 0 := rfl
  have two : uint (0 + 2 * PGSIZE) = 2 * 4096 := rfl
  rw [empty, two, sat_bind]
  have unmapped : ∀ v, 0 ≤ v * 4096 → v * 4096 < 2 * 4096 → (d.flat v).mapped = false := by
    intro v _ high
    rw [blank.empty v (by omega)]
    exact Pte.zero_mapped
  have room : Room m₁ d (0 + (2 * 4096 - pgRoundUp 0 + 4095) / 4096) := room
  refine ((allocuvm_room room (by omega) (by decide) unmapped).and (allocuvm_image
    blank.image (2 * 4096) m₁ (taken.nodup start))).mono ?_ (fun _ _ stop => stop.1.elim)
  rintro ⟨sz, d₂⟩ m₂ ⟨⟨rfl, _⟩, _, grown⟩
  have program : Program d₂ ((0 + 2) * 4096) := (grown (Nat.succ_ne_zero _)).2
  dsimp only
  rw [if_neg (by decide), sat_bind]
  exact (clearpteu_spec program m₂).mono (fun _ _ _ => by rintro ⟨⟩) (fun _ _ stop => stop.elim)

/-- `exec` of a program without segments, with an argument on a page that ends
the process: the frames of the new image are lost. -/
theorem execImage_leaks {ip : Inode} {elf : ElfHdr} {path : Nat} {argv : List Nat}
    (sound : s.Sound) (enough : 1027 ≤ s.phys.freelist.length)
    (header : elf = ElfHdr.parse (ip.data.take 52)) (bare : elf.phnum = 0)
    (deadly : Deadly s arg) :
    Sat (execImage ip elf path (arg :: argv)) s (fun _ _ => False)
      (fun e t => e = .exit ∧ ∃ L, L ≠ 0 ∧ Settles s t L) := by
  rw [execImage_eq, sat_bind, onPhys, sat_zoom]
  refine ((execSpace_bare bare enough sound.free).and (execSpace_spec header sound.free)).mono ?_
    (fun _ _ stop => stop.1.elim)
  rintro (_ | ⟨sz, d⟩) m ⟨built, _, space⟩
  · exact absurd rfl built
  obtain ⟨moves, -, -⟩ := space sz d rfl
  have w := (Working.refl s).phys sound moves
  have here : Deadly { s with phys := m } arg := by
    refine ⟨deadly.low, deadly.mapped, deadly.fault, ?_, deadly.free⟩
    have half : vpn arg < 2 ^ 19 := by
      have low := deadly.low
      simp only [vpn, PGSIZE]
      omega
    exact (congrFun (w.plain _ half deadly.mapped) 0).trans deadly.fatal
  have first : uint (arg + 0) = arg := by
    have low := deadly.low
    simp only [uint]
    omega
  obtain ⟨fuel, rounds⟩ : ∃ fuel, 2 ^ 32 = fuel + 1 := ⟨2 ^ 32 - 1, rfl⟩
  dsimp only
  rw [execRest, sat_bind, execStack, sat_bind, execArgs, if_neg (by decide), sat_bind, strlen, rounds,
    strlenLoop, sat_bind, first]
  refine (load_deadly (w.sound sound) here).mono (fun _ _ => False.elim) ?_
  rintro e u ⟨rfl, touches⟩
  exact ⟨rfl, d.frames, d.frames_ne_zero, w.touched sound touches⟩

theorem Working.settles_trans {u : St} {L : Multiset Nat} (w : Working s t 0)
    (settles : Settles t u L) : Settles s u L := by
  have moves := w.moves
  rw [add_zero] at moves
  exact ⟨moves.trans settles.moves, settles.dir, settles.size⟩

/-- The process after `sys_exec` has fetched the path and the arguments, and after
`exec` has read the path again. -/
def afterFetch (path uargv : Nat) (s : St) : St :=
  final (fetchArgs uargv MAXARG 0) (final (fetchstr path) s)

def afterName (path uargv : Nat) (s : St) : St :=
  final (loadStr path (2 ^ 32) 0)
    { afterFetch path uargv s with proc := { (afterFetch path uargv s).proc with head := 0 } }

/-- The fetching may itself make the first argument deadly: it can expel its page. -/
theorem sysExec_leaks (sound : s.Sound) {namei : List UInt8 → Option Inode} {path uargv : Nat}
    {argv : List Nat} {text bs : List UInt8} {ip : Inode}
    (fetch : value (fetchstr path) s = some true)
    (args : value (fetchArgs uargv MAXARG 0) (final (fetchstr path) s) = some (some (arg :: argv)))
    (name : value (loadStr path (2 ^ 32) 0) { afterFetch path uargv s with
      proc := { (afterFetch path uargv s).proc with head := 0 } } = some text)
    (file : namei text = some ip) (read : readi ip 0 52 = some bs) (whole : bs.length = 52)
    (magic : (ElfHdr.parse bs).magic = ELF_MAGIC) (bare : (ElfHdr.parse bs).phnum = 0)
    (enough : 1027 ≤ (afterName path uargv s).phys.freelist.length)
    (deadly : Deadly (afterName path uargv s) arg) :
    Sat (sysExec namei path uargv) s (fun _ _ => False)
      (fun e t => e = .exit ∧ ∃ L, L ≠ 0 ∧ Settles s t L) := by
  have w₁ := (fetchstr_spec sound path (.refl s)).of_ok (run_of_value fetch)
  obtain ⟨n, str⟩ := w₁.2 rfl
  have w₂ := (fetchArgs_spec sound uargv MAXARG 0 (by decide) (fun j hj => by omega) w₁.1).of_ok
    (run_of_value args)
  have w₃ := (loadStr_spec sound str (2 ^ 32) (Nat.zero_le n) w₂.1.rewind).of_ok
    (run_of_value name)
  rw [sysExec, sat_bind]
  refine sat_of_value fetch ?_
  rw [if_pos rfl, sat_bind]
  refine sat_of_value args ?_
  dsimp only
  rw [exec, sat_bind, modifyProc, sat_modify, sat_bind]
  refine sat_of_value name ?_
  rw [file]
  dsimp only
  rw [read]
  dsimp only
  rw [if_neg (by rw [whole]; simp), if_neg (by rw [magic]; simp)]
  have header : bs = ip.data.take 52 := by
    rw [readi, List.drop_zero] at read
    split at read
    · cases read
    · exact (Option.some.inj read).symm
  refine (execImage_leaks (w₃.2.sound sound) enough (congrArg _ header) bare deadly).mono
    (fun _ _ => False.elim) ?_
  rintro e t ⟨rfl, L, some, settles⟩
  exact ⟨rfl, L, some, w₃.2.settles_trans settles⟩

end Leak

/-- A process without open files exits. -/
theorem exit_of_closed {s : Sys} {i : Nat} (ne : i ≠ s.initproc)
    (closed : ∀ fd < NOFILE, (s.slots i).ofile fd = none) (files : s.FilesSound) :
    Sat (exit i) s (fun _ t => Exited i s t) (fun _ _ => False) := by
  have loop : ∀ n ≤ NOFILE, Sat (closeFiles i n) s (fun _ t => t = s) (fun _ _ => False) := by
    intro n
    induction n with
    | zero => exact fun _ => rfl
    | succ n ih =>
      intro bound
      rw [closeFiles, sat_bind, sat_get, closed _ (by omega)]
      exact ih (by omega)
  have ends : Sat (exit i) s (fun _ _ => True) (fun _ _ => False) := by
    rw [exit, sat_bind, sat_get, if_neg ne]
    refine .bind (loop NOFILE le_rfl) ?_
    rintro _ _ rfl
    simp only [sat_bind, sat_modify, modifySlot]
  exact (ends.and (exit_spec files i)).mono (fun _ _ done => done.2) (fun _ _ stop => stop.1)

/-- A process that ends in `exec` exits, and what `exec` held stays lost. -/
theorem exec_step_leaks {pool : Multiset Nat} {s : Sys} {i : Nat} (owned : s.Owned pool 0)
    (hi : i < NPROC) (live : (s.slots i).state.live = true) (ne : i ≠ s.initproc)
    (closed : ∀ fd < NOFILE, (s.slots i).ofile fd = none) {namei : List UInt8 → Option Inode}
    {path uargv : BitVec 32}
    (cut : Sat (sysExec namei path.toNat uargv.toNat) (s.view i) (fun _ _ => False)
      (fun e st => e = .exit ∧ ∃ L, L ≠ 0 ∧ Settles (s.view i) st L)) :
    ∃ t L, L ≠ 0 ∧ t.Owned pool L ∧ Step s ⟨i, .exec namei path uargv, none⟩ t := by
  have used := live_used live
  have ends : Sat (perform i (.exec namei path uargv)) s
      (fun r t => r = none ∧ ∃ L, L ≠ 0 ∧ t.Owned pool L) (fun _ _ => False) := by
    rw [perform, sat_tryCatch, sat_bind, Call.body, onProc, sat_zoom]
    refine cut.mono (fun _ _ => False.elim) ?_
    rintro e st ⟨rfl, L, some, settles⟩
    have owned := owned.settled hi used settles
    rw [zero_add] at owned
    have closed : ∀ fd < NOFILE, ((s.put i st).slots i).ofile fd = none := by
      intro fd bound
      simp only [Sys.put, Sys.setSlot, Function.update_self]
      exact closed fd bound
    dsimp only
    refine .bind (exit_of_closed (s := s.put i st) ne closed owned.files) fun _ t exited => ?_
    exact ⟨rfl, L, some, owned.exited exited (by rwa [s.put_state])⟩
  obtain ⟨r, t, run, rfl, L, some, owned⟩ := ends.returns
  exact ⟨t, L, some, owned, hi, live, run⟩

theorem Sys.Owned.lost_nowhere {pool L : Multiset Nat} {s : Sys} (owned : s.Owned pool L) {f : Nat}
    (lost : f ∈ L) : f ∈ pool ∧ List.count f s.phys.freelist + Multiset.count f s.procFrames +
      Multiset.count f s.pipeFrames = 0 := by
  have account := congrArg (Multiset.count f) owned.account
  have once := Multiset.nodup_iff_count_le_one.mp owned.nodup f
  have here := Multiset.count_pos.mpr lost
  simp only [Multiset.count_add, Multiset.coe_count] at account
  exact ⟨Multiset.count_pos.mp (by omega), by omega⟩

/-- Eleven pages, all encrypted. -/
def elevenPages : Nat → Pte := fun v => if v < 11 then (userPte (1010 + v)).sealed else .zero

theorem elevenPages_small : Small elevenPages 11 := by
  refine ⟨by omega, fun v low => ?_, fun v low => ?_, fun v high => if_neg (by omega)⟩
  · rw [elevenPages, if_pos low]
    refine ⟨by simp [Pte.mapped], ?_⟩
    change (userPte (1010 + v)).ppn = _
    rw [userPte, mkPte_ppn]
    exact Nat.mul_div_cancel _ (by decide)
  · rw [elevenPages, if_pos low]
    exact .sealed (by simp [userPte_has])

/-- What these pages hold, before encryption: an argument on pages 1 and 9, the
path on page 2 and the array of arguments on page 3. -/
def elevenTexts (f : Nat) : List UInt8 :=
  if f = 1011 then [1, 0, 0, 0, 97, 0]
  else if f = 1012 then [120, 0]
  else if f = 1013 then [4, 0x10, 0, 0, 4, 0x90, 0, 0, 0, 0, 0, 0]
  else if f = 1019 then [1, 0, 0, 0, 98, 0]
  else []

def elevenPageSys : Sys :=
  Sys.solo ⟨smallImage, fun f k => (elevenTexts f).getD k.val 0 ^^^ 0xFF, List.range' 2000 1100⟩
    ⟨45056, .single 1001 1002 elevenPages, fun _ => 0, 0, fun _ => false, [], 0, 0⟩ 1003

/-- An executable file without segments. -/
def bareFile : Inode := ⟨[0x7F, 0x45, 0x4C, 0x46] ++ List.replicate 48 0⟩

/-- The process uses pages 1 to 8, which fills its clock, and stores `0xFF` in
the first byte of page 1. -/
def fillCalls : List Call :=
  [.load 0x1000, .load 0x2000, .load 0x3000, .load 0x4000, .load 0x5000, .load 0x6000,
    .load 0x7000, .load 0x8000, .store 0x1000 0xFF]

theorem fillCalls_run :
    Transition.Run (Transition.restrict Step Event.sparesImage) elevenPageSys
      (eventsOf fillCalls elevenPageSys) (afterAll fillCalls elevenPageSys) := by
  refine run_of_allReturn (fun call member s r => ?_) (by decide +kernel)
  simp only [fillCalls, List.mem_cons, List.not_mem_nil, or_false] at member
  rcases member with rfl | rfl | rfl | rfl | rfl | rfl | rfl | rfl | rfl <;> trivial

/-- The process grows, opens a pipe, closes one end of it and shrinks. -/
def shortCalls : List Call := [.growproc 0x1000, .pipe 0x1000, .close 0, .growproc (-0x1000)]

theorem shortCalls_in_one_place :
    allReturn shortCalls elevenPageSys = true ∧
      ∃ pool, elevenPageSys.Owned pool 0 ∧ ∀ f ∈ pool,
        List.count f (afterAll shortCalls elevenPageSys).phys.freelist +
          Multiset.count f (afterAll shortCalls elevenPageSys).procFrames +
          Multiset.count f (afterAll shortCalls elevenPageSys).pipeFrames = 1 := by
  have returns : allReturn shortCalls elevenPageSys = true := by decide +kernel
  have start := elevenPages_small.owned (m := elevenPageSys.phys)
    (p := (elevenPageSys.slots 0).proc) rfl rfl (by omega) (by decide)
  have run : Transition.Run (Transition.restrict Step Event.sparesImage) elevenPageSys
      (eventsOf shortCalls elevenPageSys) (afterAll shortCalls elevenPageSys) := by
    refine run_of_allReturn (fun call member s r => ?_) returns
    simp only [shortCalls, List.mem_cons, List.not_mem_nil, or_false] at member
    rcases member with rfl | rfl | rfl | rfl <;> trivial
  generalize afterAll shortCalls elevenPageSys = t at run ⊢
  exact ⟨returns, _, start, (frames_in_one_place .userWord start (run_clearly_iff.mpr run)).2⟩

/-- The arguments of the call of `exec` that follows. -/
def execPath : BitVec 32 := 0x2000
def execArgv : BitVec 32 := 0x3000

/-- Reading the second argument expels page 1, which holds the first. -/
theorem fillCalls_deadly {s : St} (is : s = (afterAll fillCalls elevenPageSys).view 0) :
    Deadly (afterName execPath.toNat execArgv.toNat s) 0x1004 := by
  have absent : ((afterName execPath.toNat execArgv.toNat s).proc.resident false 0x1004).isNone =
      true := by
    rw [is]
    decide +kernel
  have table : (walkpgdir (afterName execPath.toNat execArgv.toNat s).proc.pgdir
      ((afterName execPath.toNat execArgv.toNat s).proc.clock
        (afterName execPath.toNat execArgv.toNat s).proc.head)).isSome = true := by
    rw [is]
    decide +kernel
  refine ⟨by decide, by rw [is]; decide +kernel, Option.isNone_iff_eq_none.mp absent, ?_, ?_⟩
  · rw [is, St.fatal]
    decide +kernel
  · rintro ⟨_, _, missing⟩
    rw [missing] at table
    cases table

theorem fillCalls_cut {s : St} (is : s = (afterAll fillCalls elevenPageSys).view 0)
    (sound : s.Sound) :
    Sat (sysExec (fun _ => some bareFile) execPath.toNat execArgv.toNat) s (fun _ _ => False)
      (fun e st => e = .exit ∧ ∃ L, L ≠ 0 ∧ Settles s st L) := by
  have fetch : value (fetchstr execPath.toNat) s = some true := by
    rw [is]
    decide +kernel
  have args : value (fetchArgs execArgv.toNat MAXARG 0) (final (fetchstr execPath.toNat) s) =
      some (some [0x1004, 0x9004]) := by
    rw [is]
    decide +kernel
  have name : value (loadStr execPath.toNat (2 ^ 32) 0) { afterFetch execPath.toNat execArgv.toNat s
      with proc := { (afterFetch execPath.toNat execArgv.toNat s).proc with head := 0 } } =
      some [120] := by
    rw [is]
    decide +kernel
  have enough : 1027 ≤ (afterName execPath.toNat execArgv.toNat s).phys.freelist.length := by
    rw [is]
    decide +kernel
  have file : readi bareFile 0 52 = some bareFile.data := by decide
  exact sysExec_leaks sound fetch args name rfl file (by decide) (by decide) (by decide) enough
    (fillCalls_deadly is)

/-- A process whose pages were all encrypted uses pages 1 to 8, stores a byte and
calls `exec`: a frame is left that is neither free nor owned. -/
theorem exec_loses_frames :
    ∃ pool es t, elevenPageSys.Owned pool 0 ∧ Transition.Run Step elevenPageSys es t ∧
      ∃ f ∈ pool, List.count f t.phys.freelist + Multiset.count f t.procFrames +
        Multiset.count f t.pipeFrames = 0 := by
  have start := elevenPages_small.owned (m := elevenPageSys.phys)
    (p := (elevenPageSys.slots 0).proc) rfl rfl (by omega) (by decide)
  have run := fillCalls_run
  obtain ⟨s, is⟩ : ∃ s, s = afterAll fillCalls elevenPageSys := ⟨_, rfl⟩
  rw [← is] at run
  have owned := run.kept (step_spares _) start
  have live : (s.slots 0).state.live = true := by
    rw [is]
    decide +kernel
  have closed : ∀ fd < NOFILE, (s.slots 0).ofile fd = none := by
    rw [is]
    decide +kernel
  have other : 0 ≠ s.initproc := by
    rw [is]
    decide +kernel
  have cut := fillCalls_cut (by rw [is]) (owned.view (i := 0) (by decide) (live_used live))
  obtain ⟨t, L, some, lost, step⟩ := exec_step_leaks owned (by decide) live other closed cut
  obtain ⟨f, member⟩ := Multiset.exists_mem_of_ne_zero some
  obtain ⟨pooled, nowhere⟩ := lost.lost_nowhere member
  exact ⟨_, _, t, start, run.of_restrict.append (.next step (.refl t)), f, pooled, nowhere⟩

end Xv6
