import Xv6.Mapping
import Xv6.Shape

/-! As long as the address spaces are in shape, no routine finds a page mapped where
it maps one, or misses a page it copies. -/
namespace Xv6
open PteBit Control

theorem Proc.Shaped.vacant {p : Proc} (shaped : p.Shaped) (size : p.sz ≤ KERNBASE) :
    p.pgdir.Vacant (pgRoundUp p.sz) KERNBASE := by
  intro v low high
  have half : v < 2 ^ 19 := by
    simp only [KERNBASE] at high
    omega
  rw [Bool.eq_false_iff, ne_eq, shaped.mapped v half, ← below_pgRoundUp size]
  omega

/-- The panics that an address space out of shape would bring about. -/
def Stop.Misshapen (e : Stop) : Prop :=
  e = .panic "p4Debug, remapping page" ∨
  e = .panic "p4Debug: inside copyuvm, pte should exist" ∨
  e = .panic "p4Debug: inside copyuvm, page not present"

/-- What can stop a call as long as the address spaces are in shape. -/
def Stop.Shapely (e : Stop) : Prop := ¬ e.Misshapen

theorem Stop.Ordinary.shapely {e : Stop} (ordinary : e.Ordinary) : e.Shapely := by
  cases ordinary <;> simp [Stop.Shapely, Stop.Misshapen]

theorem growproc_calm {s : St} (sound : s.Sound) (shaped : s.proc.Shaped) (n : Int) :
    Sat (growproc n) s (fun _ _ => True) (fun e _ => e.Ordinary) := by
  have sweep : ∀ k a, Only Stop.Ordinary (growprocLoop k a) := by
    intro k
    induction k with
    | zero => exact fun _ => .pure _
    | succ k ih => exact fun _ => .bind (mencrypt_steady _ _).only fun _ => ih _
  rw [growproc, sat_bind, sat_get]
  dsimp only
  split
  · rw [sat_bind, onPhys, sat_zoom]
    refine (allocuvm_ends (shaped.vacant sound.size) fun _ _ => .inr .kfree).imp (fun r m _ => ?_)
    obtain ⟨sz, d⟩ := r
    exact (Only.modify _).bind (fun _ => .ite (.pure _) (.bind (sweep _ _) fun _ =>
      .bind (.modify _) fun _ => .bind (.modify _) fun _ => .pure _)) _
  · refine Only.ite (.bind (.zoom (deallocuvm_only _ _ _)) fun r => ?_)
      (.bind (.modify _) fun _ => .pure _) s
    obtain ⟨sz, d⟩ := r
    exact .bind (.modify _) fun _ => .ite (.pure _) (.bind (.modify _) fun _ =>
      .bind (.modify _) fun _ => .pure _)

theorem Program.vacant {d : PgDir} {sz : Nat} (program : Program d sz) :
    d.Vacant (pgRoundUp sz) KERNBASE := by
  have low := program.low
  intro v above high
  simp only [KERNBASE, pgRoundUp, uint, PGSIZE] at low above high
  rw [program.rest v (by omega) (by omega), Pte.zero_mapped]

section Ends
variable {E : Stop → Prop} {m : Phys} {d : PgDir}

/-- The segment lies below the size of the program: every page of it is there. -/
theorem loaduvmLoop_ends {addr size sz : Nat} (program : Program d size) (inside : addr + sz ≤ size)
    (ip : Inode) (off k i : Nat) (last : k = 0 ∨ i + k * 4096 < sz + 4096) :
    Sat (loaduvmLoop d addr ip off sz k i) m (fun _ _ => True) (fun _ _ => False) := by
  have low : size ≤ 2 ^ 31 := program.low
  induction k generalizing i m with
  | zero => trivial
  | succ k ih =>
    have here : vpn (uint (addr + i)) * 4096 < size := by
      simp only [vpn, uint, PGSIZE]
      omega
    rw [loaduvmLoop, PgDir.walk_of_mapped (program.held here).2.1]
    dsimp only
    cases readi ip (uint (off + i)) (min (sz - i) PGSIZE) with
    | none => trivial
    | some bs =>
      dsimp only
      rw [sat_bind, sat_modify]
      split
      · trivial
      · apply ih
        simp only [PGSIZE]
        omega

theorem loaduvm_ends {addr size sz : Nat} (program : Program d size) (inside : addr + sz ≤ size)
    (aligned : addr % PGSIZE = 0) (ip : Inode) (off : Nat) :
    Sat (loaduvm d addr ip off sz) m (fun _ _ => True) (fun _ _ => False) := by
  rw [loaduvm, if_neg (not_not.mpr aligned)]
  apply loaduvmLoop_ends program inside
  simp only [PGSIZE]
  omega

/-- Whatever the program headers say, the loop ends. -/
theorem execLoad_ends (ip : Inode) (n off : Nat) {sz : Nat} (program : Program d sz)
    (nodup : ((m.freelist : Multiset Nat) + d.frames).Nodup)
    (frees : ∀ f ∈ (m.freelist : Multiset Nat) + d.frames, m.image.frees E f) :
    Sat (execLoad ip n off sz d) m (fun _ _ => True) (fun e _ => E e) := by
  induction n generalizing off sz d m with
  | zero => trivial
  | succ n ih =>
    rw [execLoad]
    cases readi ip off 32 with
    | none => trivial
    | some bs =>
      dsimp only
      split
      · trivial
      split
      · exact ih _ program nodup frees
      split
      · trivial
      split
      · trivial
      rename_i whole wraps
      rw [sat_bind]
      apply ((allocuvm_image program _ m nodup).and (allocuvm_ends program.vacant frees)).mono _
        fun _ _ stop => stop.2
      rintro ⟨size, d₁⟩ m₁ ⟨⟨moves, grown⟩, _⟩
      dsimp only at moves grown ⊢
      split
      · trivial
      rename_i filled
      obtain ⟨value, program₁⟩ := grown filled
      split
      · trivial
      rename_i aligned
      have inside : (ProgHdr.parse bs).vaddr + (ProgHdr.parse bs).filesz ≤ size := by
        have word : (ProgHdr.parse bs).memsz < 256 ^ 4 := le_lt bs 20 4
        simp only [uint] at wraps value
        omega
      rw [sat_bind]
      apply ((loaduvm_spec program₁ inside ip _ m₁).and
        (loaduvm_ends program₁ inside (not_not.mp aligned) ip _)).mono _ fun _ _ stop => stop.2.elim
      rintro ok m₂ ⟨written, _⟩
      have all := moves.trans written
      cases ok with
      | false => trivial
      | true => exact ih _ program₁ (all.nodup nodup) (all.frees frees)

end Ends

theorem execImage_calm (ip : Inode) (elf : ElfHdr) (path : Nat) (argv : List Nat) {t : St}
    (nodup : t.phys.freelist.Nodup) :
    Sat (execImage ip elf path argv) t (fun _ _ => True) (fun e _ => e.Ordinary) := by
  have bad : ∀ d, Only Stop.Ordinary (do onPhys (freevm d); return (-1 : Int)) := fun d =>
    .bind (.zoom (freevm_only d)) fun _ => .pure _
  rw [execImage, sat_bind, onPhys, sat_zoom]
  refine (setupkvm_only.sat (setupkvm_spec t.phys)).imp (fun r m built => ?_)
  cases r with
  | none => trivial
  | some d =>
    obtain ⟨taken, blank⟩ := built
    have fresh : ((m.freelist : Multiset Nat) + d.frames).Nodup :=
      taken.nodup (by rwa [add_zero, Multiset.coe_nodup])
    dsimp only
    rw [sat_bind, onPhys, sat_zoom]
    refine ((execLoad_spec ip elf.phnum elf.phoff blank.image m fresh).and
      (execLoad_ends ip elf.phnum elf.phoff blank.image fresh fun _ _ => .inr .kfree)).mono ?_ (fun _ _ stop => stop.2)
    rintro ⟨size, d₁⟩ m₁ ⟨⟨moves, loaded⟩, _⟩
    cases size with
    | none => exact bad d₁ _
    | some size =>
      have program : Program d₁ (pgRoundUp size) := (loaded size rfl).2.aligned
      dsimp only
      rw [sat_bind, onPhys, sat_zoom]
      generalize uint (pgRoundUp size + 2 * PGSIZE) = newsz
      refine (allocuvm_ends program.vacant fun _ _ => .inr .kfree).imp ?_
      rintro ⟨sz, d₂⟩ m₂ -
      refine Only.ite (bad d₂) (.bind (.zoom (clearpteu_only _ _)) fun d₃ =>
        .bind (execStack_steady _ _ _ _).only fun r => ?_) _
      cases r with
      | none => exact bad d₃
      | some out => exact .bind (execCommit_steady _ _ _ _ _).only fun _ => .pure _

theorem sysExec_calm {s : St} (sound : s.Sound) (namei : List UInt8 → Option Inode)
    (path uargv : Nat) :
    Sat (sysExec namei path uargv) s (fun _ _ => True) (fun e _ => e.Ordinary) := by
  rw [sysExec]
  refine .bind ((fetchstr_steady _).only.sat (fetchstr_spec sound path (.refl s))) ?_
  rintro ok t ⟨w, str⟩
  cases ok with
  | false => trivial
  | true =>
    obtain ⟨n, str⟩ := str rfl
    rw [if_pos rfl]
    refine .bind ((fetchArgs_steady _ _ _).only.sat (fetchArgs_spec sound uargv MAXARG 0 (by simp)
      (fun j hj => by omega) w)) ?_
    rintro r u ⟨w, _⟩
    cases r with
    | none => trivial
    | some argv =>
      dsimp only
      rw [exec, sat_bind, modifyProc, sat_modify]
      refine .bind ((loadStr_steady _ _ _).only.sat (loadStr_spec sound str _ (Nat.zero_le n) w.rewind)) ?_
      rintro bs v ⟨rfl, w⟩
      have nodup : v.phys.freelist.Nodup := Multiset.coe_nodup.mp
        (Multiset.nodup_add.mp (Multiset.nodup_add.mp (w.all_nodup sound)).1).1
      cases namei (s.text path 0 n) with
      | none => trivial
      | some ip =>
        dsimp only
        split
        · trivial
        · split
          · trivial
          · split
            · trivial
            · exact execImage_calm ip _ path argv nodup

section Calm

theorem fileclose_shapely (k : Nat) : Only Stop.Shapely (fileclose k) := by
  have pipe : ∀ p w, Only Stop.Shapely (pipeclose p w) := fun p w =>
    .bind .get fun _ => .bind (.modify _) fun _ =>
      .ite (.zoom ((kfree_only p).mono fun _ => Stop.Ordinary.shapely)) (.pure _)
  refine .bind .get fun s => .ite (.throw (by simp [Stop.Shapely, Stop.Misshapen]))
    (.ite (.modify _) (.bind (.modify _) fun _ => ?_))
  split
  · exact pipe _ _
  · exact .pure _

theorem exit_shapely (i : Nat) : Only Stop.Shapely (exit i) := by
  have close : ∀ n, Only Stop.Shapely (closeFiles i n) := by
    intro n
    induction n with
    | zero => exact .pure _
    | succ n ih =>
      refine .bind .get fun s => ?_
      split
      · exact ih
      · exact .bind (fileclose_shapely _) fun _ => .bind (.modify _) fun _ => ih
  exact .bind .get fun _ => .ite (.throw (by simp [Stop.Shapely, Stop.Misshapen]))
    (.bind (close _) fun _ => .bind (.modify _) fun _ => .modify _)

theorem allocproc_only : Only Stop.Ordinary allocproc := by
  refine .bind .get fun s => ?_
  split
  · exact .pure _
  · refine .bind (.modify _) fun _ => .bind (.modify _) fun _ => .bind (.zoom kalloc_only) fun r => ?_
    cases r with
    | none => exact .bind (.modify _) fun _ => .pure _
    | some _ => exact .bind (.modify _) fun _ => .pure _

theorem freeStack_only (kstack : Option Nat) : Only Stop.Ordinary (freeStack kstack) := by
  cases kstack with
  | none => exact .throw .kfree
  | some frame => exact .zoom (kfree_only frame)

theorem wait_shapely (i : Nat) : Only Stop.Shapely (wait i) := by
  have ordinary : ∀ e : Stop, e.Ordinary → e.Shapely := fun _ => Stop.Ordinary.shapely
  refine .bind .get fun s => ?_
  split
  · exact .bind ((freeStack_only _).mono ordinary) fun _ =>
      .bind (.zoom ((freevm_only _).mono ordinary)) fun _ => .bind (.modify _) fun _ => .pure _
  · exact .ite (.throw (by simp [Stop.Shapely, Stop.Misshapen])) (.pure _)

theorem sysPipe_shapely (i fd : Nat) : Only Stop.Shapely (sysPipe i fd) := by
  have filealloc : Only Stop.Shapely filealloc := by
    refine .bind .get fun s => ?_
    split
    · exact .pure _
    · exact .bind (.modify _) fun _ => .pure _
  have fdalloc : ∀ f, Only Stop.Shapely (fdalloc i f) := by
    intro f
    refine .bind .get fun s => ?_
    split
    · exact .pure _
    · exact .bind (.modify _) fun _ => .pure _
  have pipealloc : Only Stop.Shapely pipealloc := by
    refine .bind filealloc fun r => ?_
    cases r with
    | none => exact .pure _
    | some f0 =>
      refine .bind filealloc fun r => ?_
      cases r with
      | none => exact .bind (fileclose_shapely _) fun _ => .pure _
      | some f1 =>
        refine .bind (.zoom (kalloc_only.mono fun _ => Stop.Ordinary.shapely)) fun r => ?_
        cases r with
        | none => exact .bind (fileclose_shapely _) fun _ => .bind (fileclose_shapely _) fun _ => .pure _
        | some p =>
          exact .bind (.modify _) fun _ => .bind (.modify _) fun _ => .bind (.modify _) fun _ => .pure _
  have pipeFds : ∀ rf wf, Only Stop.Shapely (pipeFds i rf wf) := by
    intro rf wf
    refine .bind (fdalloc rf) fun r => ?_
    cases r with
    | none => exact .bind (fileclose_shapely _) fun _ => .bind (fileclose_shapely _) fun _ => .pure _
    | some fd0 =>
      refine .bind (fdalloc wf) fun r => ?_
      cases r with
      | none =>
        exact .bind (.modify _) fun _ => .bind (fileclose_shapely _) fun _ =>
          .bind (fileclose_shapely _) fun _ => .pure _
      | some fd1 => exact .pure _
  have storeInt : ∀ fd v, Only Stop.Shapely (storeInt fd v) := fun fd v =>
    Only.mono (.bind (store_steady _ _ _).only fun _ => .bind (store_steady _ _ _).only fun _ =>
      .bind (store_steady _ _ _).only fun _ => (store_steady _ _ _).only) fun _ => Stop.Ordinary.shapely
  refine .bind .get fun s => .ite (.pure _) (.bind pipealloc fun r => ?_)
  cases r with
  | none => exact .pure _
  | some ends =>
    refine .bind (pipeFds ends.1 ends.2) fun r => ?_
    cases r with
    | none => exact .pure _
    | some fds =>
      exact .bind (.zoom (.bind (storeInt _ _) fun _ => storeInt _ _)) fun _ => .pure _

theorem sysClose_shapely (i fd : Nat) : Only Stop.Shapely (sysClose i fd) := by
  refine .bind .get fun s => ?_
  split
  · exact .pure _
  · exact .ite (.bind (.modify _) fun _ => .bind (fileclose_shapely _) fun _ => .pure _) (.pure _)

variable {pool lost : Multiset Nat} {s : Sys} {i : Nat}

theorem fork_shapely (hi : i < NPROC) (used : (s.slots i).state ≠ .UNUSED)
    (owned : s.Owned pool lost) (shaped : (s.slots i).proc.Shaped) :
    Sat (fork i) s (fun _ _ => True) (fun e _ => e.Shapely) := by
  have dup : ∀ np n, Only Stop.Shapely (dupFiles i np n) := by
    intro np n
    induction n with
    | zero => exact .pure _
    | succ n ih =>
      refine .bind .get fun s => ?_
      split
      · exact ih
      · exact .bind (.bind .get fun _ => .ite (.throw (by simp [Stop.Shapely, Stop.Misshapen]))
          (.modify _)) fun _ => .bind (.modify _) fun _ => ih
  rw [fork]
  refine .seq (allocproc_only.sat (allocproc_spec s)) (fun r t taken => ?_)
    (fun _ _ stop => stop.shapely)
  cases r with
  | none => trivial
  | some np =>
    obtain ⟨_, unused, f, m, _, _, _, rfl⟩ := taken
    have ne : i ≠ np := by
      rintro rfl
      exact used unused
    have size := (owned.dirs i hi used).2
    dsimp only
    rw [sat_bind, sat_get]
    dsimp only
    rw [Function.update_of_ne ne, sat_bind, sysPhys, sat_zoom]
    refine (copyuvm_ends size (shaped.pages size) fun _ _ => .inr Stop.Ordinary.kfree.shapely).imp
      (fun r m' _ => ?_)
    cases r with
    | none =>
      dsimp only
      rw [sat_bind, sat_get]
      exact .seq (freeStack_only _ _) (fun _ _ _ => trivial) (fun _ _ stop => stop.shapely)
    | some d =>
      exact (Only.modify _).bind (fun _ => .bind (dup _ _) fun _ => .bind (.modify _) fun _ =>
        .bind .get fun _ => .pure _) _

/-- Whatever process `i` calls, it does not run into an address space out of shape. -/
theorem perform_shapely (hi : i < NPROC) (live : (s.slots i).state.live = true)
    (owned : s.Owned pool lost) (shaped : (s.slots i).proc.Shaped) (call : Call) :
    Sat (perform i call) s (fun _ _ => True) (fun e _ => e.Shapely) := by
  have used := live_used live
  have sound := owned.view hi used
  have own : ∀ {α : Type} {k : K α}, Sat k (s.view i) (fun _ _ => True) (fun e _ => e.Ordinary) →
      Sat (onProc i k) s (fun _ _ => True) (fun e _ => e.Shapely) := by
    intro α k calm
    rw [onProc, sat_zoom]
    exact calm.mono (fun _ _ _ => trivial) (fun _ _ stop => stop.shapely)
  have body : Sat (call.body i) s (fun _ _ => True) (fun e _ => e.Shapely) := by
    cases call with
    | load va =>
      rw [Call.body, sat_bind]
      exact own ((load_steady true va.toNat).only _)
    | store va b =>
      rw [Call.body, sat_bind]
      exact own ((store_steady true va.toNat b).only _)
    | mencrypt va len => exact own ((mencrypt_steady va.toNat len.toInt).only _)
    | growproc n => exact own (growproc_calm sound shaped n.toInt)
    | fork => exact fork_shapely hi used owned shaped
    | exec namei path uargv => exact own (sysExec_calm sound namei path.toNat uargv.toNat)
    | exit => simp [Call.body, Stop.Shapely, Stop.Misshapen]
    | wait => exact wait_shapely i s
    | pipe fd => exact sysPipe_shapely i fd.toNat s
    | close fd => exact sysClose_shapely i fd.toNat s
  rw [perform, sat_tryCatch, sat_bind]
  refine body.mono (fun _ _ _ => trivial) (fun e t stop => ?_)
  cases e with
  | exit =>
    dsimp only
    exact .bind (exit_shapely i t) fun _ _ _ => trivial
  | _ => exact stop

end Calm

end Xv6
