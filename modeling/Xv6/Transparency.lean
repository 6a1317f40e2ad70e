import Xv6.Outcome
import Xv6.Solo

/-! Encryption is transparent to user code. A ledger records, for every process
and address, the byte the process last stored there or inherited; whatever is
encrypted, decrypted and evicted meanwhile, a load returns what the ledger says. -/
namespace Xv6
open PteBit Control
open Function (update update_of_ne update_self)

/-- The byte each process expects at each address. -/
abbrev Ledger := Nat → Nat → UInt8

def Sys.ledger (s : Sys) : Ledger := fun i a => (s.view i).peek a

/-- The ledger after an event: a store writes one byte, `growproc` adds pages of
zeros, a child inherits the bytes of its parent and a new program its image. -/
def Ledger.next (h : Ledger) (s : Sys) (e : Event) (t : Sys) : Ledger :=
  match e.call, e.result with
  | .store va b, some _ => update h e.proc (update (h e.proc) va.toNat b)
  | .growproc _, some _ => fun i a =>
    if i = e.proc ∧ ((s.slots i).proc.pgdir.flat (vpn a)).mapped = false ∧
      ((t.slots i).proc.pgdir.flat (vpn a)).mapped = true then 0 else h i a
  | .fork, some _ => fun i a =>
    if (s.slots i).state = .UNUSED ∧ (t.slots i).state ≠ .UNUSED then h e.proc a else h i a
  | .exec _ _ _, some 0 => update h e.proc (t.ledger e.proc)
  | _, _ => h

/-- The events the ledger accounts for. `sys_pipe` is left out, as it stores into
the memory of the process, and so are calls of `growproc` that fail. -/
def Event.accounted (e : Event) : Prop :=
  match e.call with
  | .growproc _ => e.result = some 0
  | .pipe _ => False
  | _ => True

/-- A step of the machine together with its ledger. -/
def LedgerStep (x : Sys × Ledger) (e : Event) (y : Sys × Ledger) : Prop :=
  Step x.1 e y.1 ∧ e.accounted ∧ y.2 = x.2.next x.1 e y.1

/-- Process `i` sees what the ledger says. -/
def Agrees (s : Sys) (h : Ledger) (i : Nat) : Prop :=
  ∀ a < 2 ^ 31, ((s.slots i).proc.pgdir.flat (vpn a)).mapped = true → (s.view i).peek a = h i a

structure Faithful (pool : Multiset Nat) (s : Sys) (h : Ledger) : Prop where
  owned : ∃ lost, s.Owned pool lost
  agrees : ∀ i < NPROC, (s.slots i).state.live = true → Agrees s h i

theorem Spared.agrees {s t : Sys} {h h' : Ledger} {j : Nat} (spared : Spared j s t)
    (used : (s.slots j).state ≠ .UNUSED) (row : h' j = h j) (shown : Agrees s h j) :
    Agrees t h' j := by
  intro a low mapped
  rw [spared.proc] at mapped
  rw [row, ← shown a low mapped, St.peek, St.peek, spared.plain used (vpn_half low) mapped]

namespace Faithful
variable {pool : Multiset Nat} {s t : Sys} {h h' : Ledger} {i : Nat}

/-- Process `i` changes its own memory, and the ledger for it. -/
theorem put (faithful : Faithful pool s h) (hi : i < NPROC) (used : (s.slots i).state ≠ .UNUSED)
    {st : St} {L : Multiset Nat} (settles : Settles (s.view i) st L)
    (mine : ∀ a < 2 ^ 31, (st.proc.pgdir.flat (vpn a)).mapped = true → st.peek a = h' i a)
    (others : ∀ j, j ≠ i → h' j = h j) : Faithful pool (s.put i st) h' := by
  obtain ⟨lost, owned⟩ := faithful.owned
  refine ⟨⟨_, owned.settled hi used settles⟩, fun j hj live => ?_⟩
  rw [s.put_state] at live
  by_cases here : j = i
  · subst here
    intro a low mapped
    have view := s.view_put j st
    have dir : ((s.put j st).slots j).proc = st.proc := congrArg St.proc view
    rw [dir] at mapped
    rw [view]
    exact mine a low mapped
  · exact (owned.spared_put hi hj here used settles).agrees (live_used live) (others j here)
      (faithful.agrees j hj live)

/-- Process `i` ends after a change of its own memory. -/
theorem ended (faithful : Faithful pool s h) (hi : i < NPROC) (used : (s.slots i).state ≠ .UNUSED)
    {st : St} {L : Multiset Nat} (settles : Settles (s.view i) st L)
    (exited : Exited i (s.put i st) t) : Faithful pool t h := by
  obtain ⟨lost, owned⟩ := faithful.owned
  have owned' := owned.settled hi used settles
  have used' : ((s.put i st).slots i).state ≠ .UNUSED := by rwa [s.put_state]
  refine ⟨⟨_, owned'.exited exited used'⟩, fun j hj live => ?_⟩
  rw [exited.state j] at live
  by_cases here : j = i
  · rw [if_pos here] at live
    cases live
  · rw [if_neg here, s.put_state] at live
    have first := (owned.spared_put hi hj here used settles).agrees (live_used live) rfl
      (faithful.agrees j hj live)
    refine (owned'.spared_exited hj exited).agrees ?_ rfl first
    rw [s.put_state]
    exact live_used live

theorem fileStep (faithful : Faithful pool s h) (step : FileStep s t) : Faithful pool t h := by
  obtain ⟨lost, owned⟩ := faithful.owned
  refine ⟨⟨_, owned.fileStep step⟩, fun j hj live => ?_⟩
  rw [step.state j] at live
  exact (owned.spared_fileStep hj step).agrees (live_used live) rfl (faithful.agrees j hj live)

theorem reaped (faithful : Faithful pool s h) (hi : i < NPROC) (reaped : Reaped i s t) :
    Faithful pool t h := by
  obtain ⟨lost, owned⟩ := faithful.owned
  refine ⟨⟨_, owned.reaped hi reaped⟩, fun j hj live => ?_⟩
  have ne : j ≠ i := by
    rintro rfl
    rw [reaped.gone] at live
    cases live
  have live' : (s.slots j).state.live = true := by rwa [reaped.other j ne] at live
  exact (owned.spared_reaped hi hj ne reaped).agrees (live_used live') rfl
    (faithful.agrees j hj live')

theorem unforked (faithful : Faithful pool s h) (failed : Unforked s t)
    (rows : ∀ j, (s.slots j).state ≠ .UNUSED → h' j = h j) : Faithful pool t h' := by
  obtain ⟨lost, owned⟩ := faithful.owned
  refine ⟨⟨_, owned.unforked failed⟩, fun j hj live => ?_⟩
  rw [failed.state j] at live
  have used := live_used live
  exact (owned.spared_unforked hj used failed).agrees used (rows j used) (faithful.agrees j hj live)

/-- The child reads in its copy what the parent reads. -/
theorem forked (faithful : Faithful pool s h) (hi : i < NPROC) {np : Nat} (hn : np < NPROC)
    (live : (s.slots i).state.live = true) (forked : Forked i np s t) (child : h' np = h i)
    (others : ∀ j, j ≠ np → h' j = h j) : Faithful pool t h' := by
  obtain ⟨lost, owned⟩ := faithful.owned
  refine ⟨⟨_, owned.forked hi hn (live_used live) forked⟩, fun j hj live' => ?_⟩
  by_cases here : j = np
  · subst here
    obtain ⟨d, proc, space⟩ := forked.child
    intro a low mapped
    have dir : (t.slots j).proc.pgdir = d := by rw [proc]; rfl
    rw [dir] at mapped
    have below : vpn a * 4096 < (s.slots i).proc.sz := by
      by_contra above
      rw [space.rest (vpn a) (vpn_half low) (by omega)] at mapped
      simp at mapped
    obtain ⟨page, f, _, copy, bytes⟩ := space.pages (vpn a) below
    have bit : (⟨f, ((s.slots i).proc.pgdir.flat (vpn a)).flags⟩ : Pte).has PTE_E =
        ((s.slots i).proc.pgdir.flat (vpn a)).has PTE_E := rfl
    have same : (t.view j).plain (vpn a) = (s.view i).plain (vpn a) := by
      have dir : (t.view j).proc.pgdir = d := dir
      rw [St.plain, St.plain, dir, copy, bit]
      change (if _ then (t.phys.bytes f).flip else t.phys.bytes f) = _
      rw [bytes]
      rfl
    rw [child, ← faithful.agrees i hi live a low page, St.peek, St.peek, same]
  · rw [forked.state j here] at live'
    exact (owned.spared_forked hj here forked).agrees (live_used live') (others j here)
      (faithful.agrees j hj live')

end Faithful

section Step
variable {pool : Multiset Nat} {s t : Sys} {h : Ledger} {i : Nat}

theorem Ledger.next_none (h : Ledger) (call : Call) : h.next s ⟨i, call, none⟩ t = h := by
  cases call <;> rfl

/-- What stands in the ledger for a process that keeps its plaintext. -/
theorem Agrees.recrypt {st : St} (agrees : Agrees s h i)
    (dir : Remarks (s.view i).proc.pgdir st.proc.pgdir)
    (plain : ∀ v < 2 ^ 19, ((s.view i).proc.pgdir.flat v).mapped = true →
      st.plain v = (s.view i).plain v) :
    ∀ a < 2 ^ 31, (st.proc.pgdir.flat (vpn a)).mapped = true → st.peek a = h i a := by
  intro a low mapped
  rw [dir.mapped] at mapped
  rw [← agrees a low mapped, St.peek, St.peek, plain _ (vpn_half low) mapped]

theorem Agrees.store {va : BitVec 32} {b : UInt8} {st : St} (agrees : Agrees s h i)
    (stores : Stores (s.view i) st va.toNat b) :
    ∀ a < 2 ^ 31, (st.proc.pgdir.flat (vpn a)).mapped = true →
      st.peek a = update (h i) va.toNat b a := by
  intro a low mapped
  rw [stores.dir.mapped] at mapped
  rw [St.peek, stores.plain _ (vpn_half low) mapped]
  by_cases here : a = va.toNat
  · subst here
    rw [if_pos rfl, update_self, update_self]
  · rw [update_of_ne here, ← agrees a low mapped]
    split
    · rename_i page
      -- Two addresses in one page differ in their offset.
      have bound := va.isLt
      have other : slot a ≠ slot va.toNat := by
        intro same
        have same : a % 4096 = va.toNat % 4096 := congrArg Fin.val same
        simp only [vpn, PGSIZE] at page
        omega
      rw [update_of_ne other]
      rfl
    · rfl

theorem Agrees.resize {n : Int} {st : St} (agrees : Agrees s h i) (sound : (s.view i).Sound)
    (resize : Resize (s.view i) n 0 st) :
    ∀ a < 2 ^ 31, (st.proc.pgdir.flat (vpn a)).mapped = true →
      st.peek a = if ((s.slots i).proc.pgdir.flat (vpn a)).mapped = false then 0 else h i a := by
  intro a low mapped
  rw [St.peek, resize.plain sound (vpn_half low) mapped]
  change (if ((s.slots i).proc.pgdir.flat (vpn a)).mapped then (s.view i).plain (vpn a)
    else Page.fill 0 : Page) (slot a) = _
  cases old : ((s.slots i).proc.pgdir.flat (vpn a)).mapped with
  | true =>
    rw [← agrees a low old]
    rfl
  | false => rfl

/-- The ledger still stands after an event it accounts for. -/
theorem Outcome.faithful {call : Call} {r : Option Int} (outcome : Outcome i s call r t)
    (faithful : Faithful pool s h) (hi : i < NPROC) (live : (s.slots i).state.live = true)
    (accounted : Event.accounted ⟨i, call, r⟩) : Faithful pool t (h.next s ⟨i, call, r⟩ t) := by
  obtain ⟨lost, owned⟩ := faithful.owned
  have used := live_used live
  have sound := owned.view hi used
  have agrees := faithful.agrees i hi live
  cases outcome with
  | load run =>
    have recrypt := ((load_spec sound true _).of_ok run).1
    exact faithful.put hi used (recrypt.settles sound) (agrees.recrypt recrypt.dir recrypt.plain)
      fun _ _ => rfl
  | store run =>
    have stores := (store_spec sound true _ _ (Or.inl rfl)).of_ok run
    refine faithful.put hi used (stores.settles sound) ?_ fun j ne => ?_
    · simp only [Ledger.next, update_self]
      exact agrees.store stores
    · simp only [Ledger.next, update_of_ne ne]
  | @mencrypt va len =>
    have recrypt := Recrypt.mencrypted sound va.toNat len.toInt
    exact faithful.put hi used (recrypt.settles sound) (agrees.recrypt recrypt.dir recrypt.plain)
      fun _ _ => rfl
  | @growproc n r st resize =>
    obtain rfl : r = 0 := by simpa [Event.accounted] using accounted
    have view : ((s.put i st).slots i).proc = st.proc := congrArg St.proc (s.view_put i st)
    refine faithful.put hi used (resize.settles sound) (fun a low mapped => ?_) fun j ne => ?_
    · simp only [Ledger.next, view, mapped, true_and, and_true]
      exact agrees.resize sound resize a low mapped
    · funext a
      simp only [Ledger.next, ne, false_and, if_false]
  | exec done =>
    obtain ⟨rfl, w⟩ | ⟨rfl, settles, _⟩ := done
    · exact faithful.put hi used (w.settles sound) (agrees.recrypt w.dir w.plain) fun _ _ => rfl
    · refine faithful.put hi used settles (fun a low mapped => ?_) fun j ne => ?_
      · simp only [Ledger.next, update_self, Sys.ledger, Sys.view_put]
      · simp only [Ledger.next, update_of_ne ne]
  | unforked failed =>
    refine faithful.unforked failed fun j used => ?_
    funext a
    simp only [Ledger.next, used, false_and, if_false]
  | forked hn forked =>
    refine faithful.forked hi hn live forked ?_ fun j ne => ?_
    · funext a
      simp [Ledger.next, forked.unused, forked.runnable]
    · funext a
      simp [Ledger.next, forked.state j ne]
  | waited => exact faithful
  | reaped hj reaped => exact faithful.reaped hj reaped
  | piped => exact accounted.elim
  | closed step => exact faithful.fileStep step
  | ended files settles _ exited =>
    rw [Ledger.next_none]
    have used := files.state i ▸ used
    exact (faithful.fileStep files).ended hi used settles exited

theorem ledgerStep_keeps (pool : Multiset Nat) :
    Transition.Keeps LedgerStep fun x => Faithful pool x.1 x.2 := by
  rintro x e y ⟨step, accounted, entry⟩ faithful
  obtain ⟨lost, owned⟩ := faithful.owned
  rw [entry]
  exact (step.outcome owned).faithful faithful step.1 step.2.1 accounted

theorem faithful_start {lost : Multiset Nat} (owned : s.Owned pool lost) :
    Faithful pool s s.ledger :=
  ⟨⟨lost, owned⟩, fun _ _ _ _ _ _ => rfl⟩

/-- In every run, a load that completes returns the byte in the ledger, and no
page of a process changes its plaintext when it is encrypted, when a page fault
is served, or when `addClock` evicts a page. -/
theorem encryption_transparent {lost : Multiset Nat} {s₀ : Sys} {es : List Event}
    (owned : s₀.Owned pool lost)
    (run : Transition.Run LedgerStep (s₀, s₀.ledger) es (s, h)) :
    (∀ e t va b, Step s e t → e.call = .load va → e.result = some b →
      b = (h e.proc va.toNat).toNat) ∧
    ∀ i < NPROC, (s.slots i).state.live = true →
      ∀ v < 2 ^ 19, ((s.view i).proc.pgdir.flat v).mapped = true →
        (∀ va len r st, (mencrypt va len).run (s.view i) = .ok r st →
          st.plain v = (s.view i).plain v) ∧
        (∀ user va st, (s.view i).proc.resident user va = none →
          (mdecrypt va).run (s.view i) = .ok 0 st → st.plain v = (s.view i).plain v) ∧
        (∀ va st, (walkpgdir (s.view i).proc.pgdir va).isSome →
          (addClock va).run (s.view i) = .ok () st → st.plain v = (s.view i).plain v) := by
  have faithful : Faithful pool s h := run.kept (ledgerStep_keeps pool) (faithful_start owned)
  obtain ⟨_, owned⟩ := faithful.owned
  constructor
  · rintro ⟨i, call, result⟩ t va b ⟨hi, live, step⟩ rfl rfl
    have sound := owned.view hi (live_used live)
    have run := (perform_outcome owned hi live (.load va)).of_ok step
    generalize is : Call.load va = call, read : some b = result at run
    cases run with
    | load run =>
      obtain rfl := Call.load.inj is
      obtain ⟨_, mapped, half, value⟩ := (load_spec sound true _).of_ok run
      have low : va.toNat < 2 ^ 31 := by
        have bound := va.isLt
        have half := half rfl
        simp only [vpn, PGSIZE] at half
        omega
      rw [Option.some.inj read, value (half rfl), ← faithful.agrees i hi live va.toNat low mapped]
      rfl
    | ended => cases read
    | _ => cases is
  · intro i hi live v half mapped
    have sound := owned.view hi (live_used live)
    refine ⟨fun va len r st run => ?_, fun user va st fault run => ?_, fun va st table run => ?_⟩
    · obtain ⟨_, rfl⟩ := (mencrypt_spec va len (s.view i)).of_ok run
      exact (Recrypt.mencrypted sound va len).plain v half mapped
    · exact ((mdecrypt_recrypt sound fault).of_ok run rfl).plain v half mapped
    · obtain ⟨rfl, _⟩ := (addClock_spec table).of_ok run
      exact (Recrypt.admitted sound va).plain v half mapped

theorem ledger_run {e : Event} {es : List Event} {x : Sys × Ledger} (step : Step s e t)
    (accounted : e.accounted) (rest : Transition.Run LedgerStep (t, h.next s e t) es x) :
    Transition.Run LedgerStep (s, h) (e :: es) x :=
  .next ⟨step, accounted, rfl⟩ rest

end Step

/-- Two user pages in the clear. -/
def twoPages : Nat → Pte := fun v => if v < 2 then userPte (1010 + v) else .zero

theorem twoPages_small : Small twoPages 2 := by
  refine ⟨by omega, fun v low => ?_, fun v low => ?_, fun v high => if_neg (by omega)⟩
  · rw [twoPages, if_pos low]
    refine ⟨userPte_mapped _, ?_⟩
    rw [userPte, mkPte_ppn]
    exact Nat.mul_div_cancel _ (by decide)
  · rw [twoPages, if_pos low]
    exact userPte_tidy _

/-- A machine with one process of two pages. -/
def twoPageSys : Sys :=
  Sys.solo ⟨smallImage, fun _ k => k.val.toUInt8, List.range' 2000 4⟩
    ⟨8192, .single 1001 1002 twoPages, fun _ => 0, 0, fun _ => false, [], 0, 0⟩ 1003

/-- A byte is stored, its page encrypted, and the byte read back. -/
theorem stored_byte_returns :
    ∃ s h, Transition.Run LedgerStep (twoPageSys, twoPageSys.ledger)
        [⟨0, .store 7 9, some 0⟩, ⟨0, .mencrypt 0 1, some 0⟩] (s, h) ∧
      Step s ⟨0, .load 7, some 9⟩ (after 0 (.load 7) s) ∧ (9 : Int) = (h 0 7).toNat := by
  have owned := twoPages_small.owned (m := twoPageSys.phys) (p := (twoPageSys.slots 0).proc)
    rfl rfl (by omega) (by decide)
  have store : Step twoPageSys ⟨0, .store 7 9, some 0⟩ (after 0 (.store 7 9) twoPageSys) :=
    step_after (by decide) rfl (by decide +kernel)
  have encrypt : Step (after 0 (.store 7 9) twoPageSys) ⟨0, .mencrypt 0 1, some 0⟩
      (after 0 (.mencrypt 0 1) (after 0 (.store 7 9) twoPageSys)) :=
    step_after (by decide) (by decide +kernel) (by decide +kernel)
  have load : Step (after 0 (.mencrypt 0 1) (after 0 (.store 7 9) twoPageSys)) ⟨0, .load 7, some 9⟩
      (after 0 (.load 7) (after 0 (.mencrypt 0 1) (after 0 (.store 7 9) twoPageSys))) :=
    step_after (by decide) (by decide +kernel) (by decide +kernel)
  have run := ledger_run (h := twoPageSys.ledger) store trivial
    (ledger_run encrypt trivial (.refl _))
  exact ⟨_, _, run, load, (encryption_transparent owned run).1 _ _ 7 9 load rfl rfl⟩

end Xv6
