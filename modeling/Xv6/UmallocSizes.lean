import Xv6.Growth
import Xv6.UmallocRun

/-! What `malloc` is asked for and what it hands out, for every number of bytes. The number
of units is computed in 32 bits, and so is the number of bytes that `sbrk` gets, which the
kernel takes for a signed one. -/
namespace Xv6
open Control

/-- `sys_sbrk` -/
def sysSbrk (n : Int) : K Int := do
  let addr := (← get).proc.sz
  if (← growproc n) < 0 then return -1
  return addr

/-- A call of `sbrk` that succeeds adds `n` bytes, or none when `n` is not positive. -/
theorem sysSbrk_spec {s : St} (sound : s.Sound) (n : BitVec 32) :
    Sat (sysSbrk n.toInt) s (fun r t => r ≠ -1 →
      (t.proc.sz : Int) = s.proc.sz + n.toInt ∧ 0 < n.toInt ∨ t.proc.sz ≤ s.proc.sz ∧ n.toInt ≤ 0) noExit := by
  rw [sysSbrk, sat_bind, sat_get]
  refine .bind (growproc_spec sound n.toInt (BitVec.le_toInt n) BitVec.toInt_lt) ?_
  intro r t resize
  cases resize with
  | grow positive =>
    intro _
    simp only [St.resized]
    omega
  | shrink negative is =>
    intro _
    simp only [St.resized]
    omega
  | stay negative => exact fun _ => .inr ⟨le_rfl, negative⟩
  | short | drop | none => exact fun failed => absurd rfl failed

namespace Umalloc
namespace Heap

/-- The loop of `malloc` when `sbrk` returns the `answers` one after the other. -/
def searchWith : Nat → Heap → Nat → List (Option Nat) → Nat → Nat → Option (Nat × Heap)
  | 0, _, _, _, _, _ => none
  | fuel + 1, s, nunits, answers, prevp, p =>
    if s.size p ≥ nunits then
      let (bp, t) := s.carve prevp p nunits
      some (plus bp 1, t)
    else if p = s.freep then
      match answers with
      | [] => none
      | none :: _ => some (0, s)
      | some r :: rest =>
        match s.morecore fuel nunits r with
        | none => none
        | some t => searchWith fuel t nunits rest t.freep (t.ptr t.freep)
    else searchWith fuel s nunits answers p (s.ptr p)

def mallocWith (fuel : Nat) (s : Heap) (nbytes : Nat) (answers : List (Option Nat)) : Option (Nat × Heap) :=
  s.init.searchWith fuel (nunits nbytes) answers s.init.freep (s.init.ptr s.init.freep)

/-- The number of units that `morecore` asks for and writes into the header. -/
def asked (nbytes : Nat) : Nat := if nunits nbytes < 4096 then 4096 else nunits nbytes

theorem linked_regions (s : Heap) (bp p : Nat) (live : List (Nat × Nat)) :
    { (s.linkUp bp p).linkDown bp p with freep := p, live := live : Heap }.regions = s.regions := by
  unfold linkDown linkUp
  simp only [apply_ite Heap.regions, ite_self]

theorem free_regions {s t : Heap} {fuel ap : Nat} (frees : free fuel s ap = some t) : t.regions = s.regions := by
  unfold free at frees
  obtain ⟨p, -, rfl⟩ := Option.map_eq_some_iff.mp frees
  apply linked_regions

theorem carve_size (s : Heap) (prevp p n : Nat) : (s.carve prevp p n).2.size (s.carve prevp p n).1 = n := by
  unfold carve
  split
  · assumption
  · exact Function.update_self ..

/-- Whatever the heap, the block that is handed out has the size that was computed. -/
theorem searchWith_size {fuel n prevp p ap : Nat} {s t : Heap} {answers : List (Option Nat)}
    (returns : s.searchWith fuel n answers prevp p = some (ap, t)) (nonnull : ap ≠ 0) :
    ∃ bp, ap = plus bp 1 ∧ t.size bp = n := by
  induction fuel generalizing s answers prevp p with
  | zero => cases returns
  | succ fuel ih =>
    unfold searchWith at returns
    split at returns
    · cases returns
      exact ⟨_, rfl, s.carve_size prevp p n⟩
    · split at returns
      · split at returns
        · cases returns
        · cases returns
          exact absurd rfl nonnull
        · split at returns
          · cases returns
          · exact ih returns
      · exact ih returns

/-- The search with a single answer is the one of `malloc`. -/
theorem search_eq (fuel : Nat) (s : Heap) (n : Nat) (answer : Option Nat) (prevp p : Nat) :
    s.search fuel n answer prevp p =
      s.searchWith fuel n (answer.elim [none] fun r => [some r, none]) prevp p := by
  induction fuel generalizing s answer prevp p with
  | zero => rfl
  | succ fuel ih =>
    unfold search searchWith
    split
    · rfl
    split
    · cases answer with
      | none => rfl
      | some r =>
        dsimp only [Option.elim_some]
        cases s.morecore fuel n r with
        | none => rfl
        | some t => exact ih t none _ _
    · exact ih s answer p (s.ptr p)

/-- A block is large enough unless the number of bytes wraps when it is rounded up, and
`sbrk` has added what `morecore` records unless that is too much for a signed number. -/
theorem malloc_enough_iff {nbytes : Nat} (word : nbytes < 2 ^ 32) :
    (∀ (s t : Heap) (fuel ap : Nat) (answers : List (Option Nat)),
      s.mallocWith fuel nbytes answers = some (ap, t) → ap ≠ 0 →
      ∃ bp, ap = plus bp 1 ∧ (nbytes ≤ (t.size bp - 1) * unit ↔ nbytes < 2 ^ 32 - 7)) ∧
    (∀ (s t : Heap) (fuel r : Nat), s.morecore fuel (nunits nbytes) r = some t →
      t.regions = (r, asked nbytes) :: s.regions) ∧
    (∀ (s t : St) (r : Int), s.Sound →
      (sysSbrk (BitVec.ofNat 32 (asked nbytes * unit)).toInt).run s = .ok r t → r ≠ -1 →
      (((asked nbytes * unit : Nat) : Int) ≤ t.proc.sz - s.proc.sz ↔ nbytes ≤ 2 ^ 31 - 16 ∨ 2 ^ 32 - 7 ≤ nbytes)) ∧
    (nbytes < 2 ^ 32 - 7 ∧ (nbytes ≤ 2 ^ 31 - 16 ∨ 2 ^ 32 - 7 ≤ nbytes) ↔ nbytes ≤ 2 ^ 31 - 16) := by
  refine ⟨fun s t fuel ap answers returns nonnull => ?_, fun s t fuel r grows => ?_,
    fun s t r sound run succeeds => ?_, by omega⟩
  · obtain ⟨bp, is, size⟩ := searchWith_size returns nonnull
    refine ⟨bp, is, ?_⟩
    rw [size]
    simp only [nunits, unit]
    omega
  · exact free_regions grows
  · have added := (sysSbrk_spec sound _).of_ok run succeeds
    have units : nunits nbytes = (nbytes + 7) % 2 ^ 32 / 8 + 1 := rfl
    have least : asked nbytes = 4096 ∧ nunits nbytes < 4096 ∨
        asked nbytes = nunits nbytes ∧ 4096 ≤ nunits nbytes := by
      unfold asked
      split <;> omega
    have signed := BitVec.toInt_eq_toNat_cond (BitVec.ofNat 32 (asked nbytes * unit))
    rw [BitVec.toNat_ofNat] at signed
    simp only [unit] at added signed ⊢
    split at signed <;> omega

theorem malloc_hundred : ∃ ap t bp, (start 1024 (fun _ => 5) fun _ => 5).mallocWith 8 100 [some 4096] =
    some (ap, t) ∧ ap = plus bp 1 ∧ 100 ≤ (t.size bp - 1) * unit := by
  obtain ⟨bp, is, enough⟩ := (malloc_enough_iff (by decide)).1 _ _ 8 _ [some 4096]
    (show (start 1024 (fun _ => 5) fun _ => 5).mallocWith 8 100 [some 4096] = some _ from rfl) (by decide)
  exact ⟨_, _, bp, rfl, is, enough.mpr (by decide)⟩

/-- A request of `2 ^ 32 - 1` bytes gets a block with room for none, and for a request of
`2 ^ 31 - 15` bytes `sbrk` succeeds and adds nothing. -/
theorem malloc_short :
    (∃ ap t, (start 1024 (fun _ => 5) fun _ => 5).mallocWith 8 0xffffffff [some 4096] = some (ap, t) ∧
      ap ≠ 0 ∧ (t.size (header ap) - 1) * unit = 0) ∧
    asked 0x7ffffff1 * unit = 2 ^ 31 ∧
    ∀ s : St, 0 < s.proc.sz → s.proc.sz < 2 ^ 31 → ∃ t,
      (sysSbrk (BitVec.ofNat 32 (asked 0x7ffffff1 * unit)).toInt).run s = .ok s.proc.sz t ∧
      t.proc.sz = s.proc.sz := by
  refine ⟨⟨_, _, rfl, by decide, rfl⟩, by decide, fun s some below => ?_⟩
  have negative : (BitVec.ofNat 32 (asked 0x7ffffff1 * unit)).toInt = -2 ^ 31 := by decide
  have wraps : addInt s.proc.sz (-2 ^ 31) = s.proc.sz + 2 ^ 31 := by
    unfold addInt
    omega
  have stays : Sat (sysSbrk (-2 ^ 31)) s (fun r t => r = s.proc.sz ∧ t.proc.sz = s.proc.sz)
      (fun _ _ => False) := by
    rw [sysSbrk, sat_bind, sat_get, sat_bind, growproc, sat_bind, sat_get]
    dsimp only
    rw [if_neg (by decide), if_pos (by decide), sat_bind, onPhys, sat_zoom, wraps, deallocuvm, if_pos (by omega),
      sat_pure]
    dsimp only
    rw [sat_bind, modifyProc, sat_modify, if_neg (by omega)]
    simp only [sat_bind, switchuvm, modifyProc, sat_modify, sat_pure]
    exact ⟨rfl, rfl⟩
  obtain ⟨_, t, run, rfl, same⟩ := stays.returns
  exact ⟨t, negative ▸ run, same⟩

end Heap
end Umalloc
end Xv6
