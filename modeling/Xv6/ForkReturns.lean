import Xv6.ExecReturns
import Xv6.FirstProcess

/-! When `growproc` and `fork` succeed. With free frames enough `growproc` grows the
process, frames that `kfree` accepts let it shrink, and `fork` copies a process whose
pages below the size are all mapped. -/
namespace Xv6
open PteBit Control

section Growproc
variable {s : St} {n : Int}

theorem mencrypted_freelist (s : St) (va : Nat) (len : Int) :
    (s.mencrypted va len).phys.freelist = s.phys.freelist := by
  unfold St.mencrypted
  split
  · split <;> rfl
  · rfl

theorem growprocLoop_returns (k a : Nat) (high : a + k * 4096 < 2 ^ 32)
    (tables : ∀ j < k, (walkpgdir s.proc.pgdir (a + j * 4096)).isSome) :
    Sat (growprocLoop k a) s (fun _ t => t.phys.freelist = s.phys.freelist) (fun _ _ => False) := by
  induction k generalizing a s with
  | zero => rfl
  | succ k ih =>
    have first := tables 0 (by omega)
    rw [Nat.zero_mul, Nat.add_zero] at first
    have next : uint (a + PGSIZE) = a + 4096 := uint_page (by omega)
    rw [growprocLoop, sat_bind, next]
    refine (mencrypt_one first).imp ?_
    rintro _ t rfl
    refine (ih (a + 4096) (by omega) fun j below => ?_).imp (fun _ u same => ?_)
    · rw [mencrypted_tables, show a + 4096 + j * 4096 = a + (j + 1) * 4096 by omega]
      exact tables (j + 1) (by omega)
    · exact same.trans (mencrypted_freelist s a 1)

/-- From a page boundary, with a frame for each new page and for each page table, and
`k` more, which are left. -/
theorem growproc_grows {k : Nat} (sound : s.Sound) (positive : 0 < n)
    (user : s.proc.sz + n.toNat < KERNBASE) (aligned : s.proc.sz % 4096 = 0)
    (room : Room s.phys s.proc.pgdir (k + addedPages s.proc.sz (s.proc.sz + n.toNat)))
    (free : ∀ v, s.proc.sz ≤ v * 4096 → v * 4096 < s.proc.sz + n.toNat →
      (s.proc.pgdir.flat v).mapped = false) :
    Sat (growproc n) s (fun r t => r = 0 ∧ k ≤ t.phys.freelist.length) (fun _ _ => False) := by
  have bound : s.proc.sz + n.toNat < 2 ^ 31 := user
  have newsz : addInt s.proc.sz n = s.proc.sz + n.toNat := by
    unfold addInt
    omega
  have swept : (if n % PGSIZE ≠ 0 then pgRoundUp n.toNat else n.toNat) / PGSIZE = sweptPages n := by
    simp only [pgRoundUp, sweptPages, PGSIZE, uint]
    split <;> omega
  have round : pgRoundUp s.proc.sz = s.proc.sz := by
    simp only [pgRoundUp, PGSIZE, uint]
    omega
  have nodup : s.phys.freelist.Nodup := sound.free
  rw [growproc, sat_bind, sat_get]
  dsimp only
  rw [if_pos positive, sat_bind, onPhys, sat_zoom, newsz]
  refine ((allocuvm_spec s.proc.pgdir s.proc.sz _ s.phys nodup (by omega)).and
    (allocuvm_room room (by omega) user free)).mono ?_ (fun _ _ stop => stop.2)
  rintro ⟨sz, d⟩ m ⟨outcome, rfl, left⟩
  dsimp only at outcome ⊢
  rw [sat_bind, modifyProc, sat_modify, if_neg (by omega), swept, sat_bind]
  obtain ⟨_, _, grown⟩ | ⟨zero, _⟩ := outcome
  · rw [round] at grown
    refine (growprocLoop_returns _ _ (by simp only [sweptPages]; omega) fun j below => ?_).imp
      (fun _ u same => ?_)
    · simp only [sweptPages] at below
      have page : vpn (s.proc.sz + j * 4096) = s.proc.sz / 4096 + j := by
        simp only [vpn, PGSIZE]
        omega
      obtain ⟨_, f, _, entry, _⟩ := grown.fresh (s.proc.sz / 4096 + j) (by omega) (by omega)
      have mapped : (d.flat (vpn (s.proc.sz + j * 4096))).mapped = true := by
        rw [page, entry]
        exact Pte.mapped_of_present (by simp [userPte_has])
      change (walkpgdir d _).isSome
      rw [PgDir.walk_of_mapped mapped]
      rfl
    · simp only [sat_bind, switchuvm, modifyProc, sat_modify, sat_pure, true_and]
      rw [same]
      exact le_trans (Nat.le_add_left _ _) left
  · omega

theorem growproc_shrinks (size : s.proc.sz ≤ KERNBASE) (negative : n < 0)
    (rest : 0 < s.proc.sz + n)
    (accepts : ∀ f ∈ s.proc.pgdir.frames, s.phys.image.accepts f) :
    Sat (growproc n) s (fun r _ => r = 0) (fun _ _ => False) := by
  have bound : s.proc.sz ≤ 2 ^ 31 := size
  obtain ⟨newsz, value⟩ : ∃ newsz : Nat, s.proc.sz + n = newsz := ⟨(s.proc.sz + n).toNat, by omega⟩
  have same : addInt s.proc.sz n = newsz := by
    unfold addInt
    omega
  rw [growproc, sat_bind, sat_get]
  dsimp only
  rw [if_neg (by omega), if_pos negative, sat_bind, onPhys, sat_zoom, same]
  refine (deallocuvm_ends size fun f member => .inl (accepts f member)).imp ?_
  rintro ⟨sz, d⟩ m ⟨⟨left, _⟩, _⟩
  simp only [sat_bind, modifyProc, sat_modify]
  dsimp only at left
  rw [if_neg (by omega)]
  simp only [sat_bind, switchuvm, modifyProc, sat_modify, sat_pure]

end Growproc

section Fork

theorem copyuvmLoop_room {pgdir : PgDir} {sz : Nat} (size : sz ≤ KERNBASE)
    (mapped : ∀ v, v * 4096 < sz → (pgdir.flat v).mapped = true) (n : Nat) (d : PgDir) (i : Nat)
    (m : Phys) (room : Room m d n)
    (free : ∀ v, i ≤ v * 4096 → v * 4096 < KERNBASE → (d.flat v).mapped = false)
    (aligned : i % 4096 = 0) (inside : i + n * 4096 < sz + 4096) :
    Sat (copyuvmLoop pgdir n d i) m (fun r _ => r ≠ none) (fun _ _ => False) := by
  simp only [KERNBASE] at size free
  induction n generalizing d i m with
  | zero => rintro ⟨⟩
  | succ n ih =>
    have page : vpn i = i / 4096 := vpn_of_word (by omega)
    have here : (pgdir.flat (vpn i)).mapped = true := mapped _ (by omega)
    have next : uint (i + PGSIZE) = i + 4096 := uint_page (by omega)
    rw [copyuvmLoop, PgDir.walk_of_mapped here]
    dsimp only
    rw [if_pos here]
    refine .bind (kalloc_room room) ?_
    rintro _ m₁ ⟨mem, rfl, room₁⟩
    dsimp only
    rw [sat_bind, sat_modify, sat_bind]
    have room₂ : Room (m₁.write mem (m₁.bytes (pgdir.flat (vpn i)).ppn)) d n := room₁
    refine (mappages_room _ (mem * PGSIZE) (fun v low high => free v low ?_) aligned
      (by decide) (by simp only [PGSIZE]; omega)).imp ?_
    · simp only [PGSIZE] at high
      omega
    · rintro ⟨ok, d'⟩ m₂ ⟨enough, same⟩
      obtain ⟨rfl, room⟩ := enough n room₂
      simp only [PGSIZE] at same
      dsimp only
      rw [next]
      refine ih d' (i + 4096) m₂ room (fun v low high => ?_) (by omega) (by omega)
      rw [same v (by omega)]
      exact free v (by omega) high

/-- The child needs frames for its directory, its tables and its pages. -/
theorem copyuvm_room {pgdir : PgDir} {sz : Nat} {m : Phys} (size : sz ≤ KERNBASE)
    (mapped : ∀ v, v * 4096 < sz → (pgdir.flat v).mapped = true)
    (enough : 1025 + (sz + 4095) / 4096 ≤ m.freelist.length) :
    Sat (copyuvm pgdir sz) m (fun r _ => r ≠ none) (fun _ _ => False) := by
  rw [copyuvm]
  refine .seq ((setupkvm_spec m).and (setupkvm_room enough)) ?_ (fun _ _ stop => stop.2)
  rintro _ m₁ ⟨built, d, rfl, room⟩
  refine copyuvmLoop_room size mapped _ d 0 m₁ ?_ (fun v _ user => ?_) rfl ?_
  · rw [show (sz + PGSIZE - 1) / PGSIZE = (sz + 4095) / 4096 by simp only [PGSIZE]; omega]
    exact room
  · simp only [KERNBASE] at user
    rw [built.2.empty v (by omega), Pte.zero_mapped]
  · simp only [PGSIZE]
    omega

theorem dupFiles_closed {s : Sys} {i : Nat} (closed : ∀ fd < NOFILE, (s.slots i).ofile fd = none)
    (np n : Nat) (bound : n ≤ NOFILE) :
    Sat (dupFiles i np n) s (fun _ t => t = s) (fun _ _ => False) := by
  induction n with
  | zero => rfl
  | succ n ih =>
    rw [dupFiles, sat_bind, sat_get, closed _ (by omega)]
    exact ih (by omega)

theorem fork_returns {s : Sys} {i np : Nat} (hn : np < NPROC) (unused : (s.slots np).state = .UNUSED)
    (used : (s.slots i).state ≠ .UNUSED)
    (closed : ∀ fd < NOFILE, (s.slots i).ofile fd = none) (size : (s.slots i).proc.sz ≤ KERNBASE)
    (mapped : ∀ v, v * 4096 < (s.slots i).proc.sz → ((s.slots i).proc.pgdir.flat v).mapped = true)
    (enough : 1026 + ((s.slots i).proc.sz + 4095) / 4096 ≤ s.phys.freelist.length) :
    Sat (fork i) s (fun _ t => ∃ np < NPROC, (s.slots np).state = .UNUSED ∧
      (t.slots np).state = .RUNNABLE) (fun _ _ => False) := by
  rw [fork]
  refine .seq ((allocproc_spec s).and (allocproc_room hn unused fun none => ?_)) ?_
    (fun _ _ stop => stop.2)
  · rw [none, List.length_nil] at enough
    omega
  rintro (_ | child) t ⟨taken, found⟩
  · exact absurd rfl found
  obtain ⟨hc, fresh, f, m, list, _, _, rfl⟩ := taken
  have other : i ≠ child := by
    rintro rfl
    exact used fresh
  rw [list, List.length_cons] at enough
  dsimp only
  rw [sat_bind, sat_get]
  dsimp only
  rw [Function.update_of_ne other, sat_bind, sysPhys, sat_zoom]
  have left : 1025 + ((s.slots i).proc.sz + 4095) / 4096 ≤ m.freelist.length := by omega
  refine (copyuvm_room size mapped left).imp ?_
  rintro (_ | d) m' copied
  · exact absurd rfl copied
  dsimp only
  rw [sat_bind, modifySlot, sat_modify]
  refine .bind (dupFiles_closed (fun fd hf => ?_) child NOFILE le_rfl) ?_
  · simp only [Sys.setSlot, Function.update_of_ne other]
    exact closed fd hf
  · rintro _ u rfl
    simp only [sat_bind, modifySlot, sat_modify, sat_get, sat_pure]
    refine ⟨child, hc, fresh, ?_⟩
    simp only [Sys.setSlot, Function.update_self]

end Fork

end Xv6
