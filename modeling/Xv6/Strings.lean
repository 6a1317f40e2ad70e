import Xv6.Steps

/-! The kernel reads the strings of a process. While `exec` is under way it holds
frames of its own, `X`, and each byte it reads may take a page fault: the pages of
the process stay in place and keep their plaintext, and a fault that ends the
process leaves the frames in `X` without an owner. -/
namespace Xv6
open PteBit Control

/-- The byte a process sees at an address. -/
def St.peek (s : St) (a : Nat) : UInt8 := s.plain (vpn a) (slot a)

/-- The kernel works for the process of `s` and holds the frames `X` meanwhile. -/
structure Working (s t : St) (X : Multiset Nat) : Prop where
  dir : Remarks s.proc.pgdir t.proc.pgdir
  sz : t.proc.sz = s.proc.sz
  moves : Moves s.phys t.phys s.proc.pgdir.frames (t.proc.pgdir.frames + X)
  plain : ∀ v < 2 ^ 19, (s.proc.pgdir.flat v).mapped = true → t.plain v = s.plain v
  trail : Visits s.proc t.proc

namespace Working
variable {s t u : St} {X Y : Multiset Nat}

theorem refl (s : St) : Working s s 0 :=
  ⟨.refl _, rfl, by rw [add_zero]; exact .refl _ _, fun _ _ _ => rfl, .refl _⟩

theorem all_nodup (w : Working s t X) (sound : s.Sound) :
    ((t.phys.freelist : Multiset Nat) + t.proc.pgdir.frames + X).Nodup := by
  rw [add_assoc, w.moves.sum]
  exact sound.nodup

theorem sound (w : Working s t X) (sound : s.Sound) : t.Sound :=
  ⟨w.dir.sound sound.dir, by rw [w.sz]; exact sound.size,
    (Multiset.nodup_add.mp (w.all_nodup sound)).1⟩

theorem settles (w : Working s t X) (sound : s.Sound) : Settles s t X :=
  ⟨w.moves, (w.sound sound).dir, (w.sound sound).size⟩

theorem touched (w : Working s t X) (sound : s.Sound) (touches : Touches t u) : Settles s u X := by
  have after := touches.sound (w.sound sound)
  exact ⟨w.moves.trans (touches.moves.frame X), after.dir, after.size⟩

theorem recrypt (w : Working s t X) (recrypt : Recrypt t u) (trail : Visits s.proc u.proc) :
    Working s u X where
  dir := w.dir.trans recrypt.dir
  sz := recrypt.sz.trans w.sz
  moves := w.moves.trans (recrypt.moves.frame X)
  plain v half mapped :=
    (recrypt.plain v half (by rwa [w.dir.mapped])).trans (w.plain v half mapped)
  trail := trail

/-- The kernel changes what it holds itself: the frames of the process are not among them. -/
theorem bytes (w : Working s t X) (sound : s.Sound) {m : Phys} (moves : Moves t.phys m X Y) :
    ∀ f ∈ t.proc.pgdir.frames, m.bytes f = t.phys.bytes f := by
  intro f mine
  obtain ⟨nodup, _, apart⟩ := Multiset.nodup_add.mp (w.all_nodup sound)
  apply moves.bytes
  intro member
  obtain free | held := Multiset.mem_add.mp member
  · exact Multiset.disjoint_left.mp (Multiset.nodup_add.mp nodup).2.2 free mine
  · exact Multiset.disjoint_left.mp apart (Multiset.mem_add.mpr (Or.inr mine)) held

theorem phys (w : Working s t X) (sound : s.Sound) {m : Phys} (moves : Moves t.phys m X Y) :
    Working s { t with phys := m } Y := by
  refine ⟨w.dir, w.sz, w.moves.trans (moves.frame_left _), fun v half mapped => ?_, w.trail⟩
  have mine := PgDir.mem_frames half (by rwa [w.dir.mapped])
  rw [← w.plain v half mapped, St.plain, St.plain, w.bytes sound moves _ mine]

theorem rewind (w : Working s t X) :
    Working s { t with proc := { t.proc with head := 0 } } X :=
  ⟨w.dir, w.sz, w.moves, w.plain, w.trail.rewind⟩

end Working

/-- A page whose first byte makes a page fault on it fatal once it is encrypted. -/
def St.fatal (s : St) (a : Nat) : Prop := s.plain (vpn a) 0 = 0xFF

/-- Reading one byte below the kernel. -/
theorem load_working {s t : St} {X : Multiset Nat} (sound : s.Sound) (w : Working s t X) {a : Nat}
    (low : a < 2 ^ 31) :
    Sat (load false a) t
      (fun b u => b = s.peek a ∧ (s.proc.pgdir.flat (vpn a)).mapped = true ∧ Working s u X)
      (fun e u => e = .exit →
        ((s.proc.pgdir.flat (vpn a)).mapped = true → s.fatal a) ∧ Settles s u X) := by
  have half : vpn a < 2 ^ 19 := by
    simp only [vpn, PGSIZE]
    omega
  have sound' := w.sound sound
  rw [load]
  refine .seq (((access_recrypt sound' false a).and (access_spec false t a)).and
    (sat_self (access false a) t)) ?_ ?_
  · rintro f u ⟨⟨⟨recrypt, rfl, present, _⟩, _⟩, run⟩
    have mapped' : (u.proc.pgdir.flat (vpn a)).mapped = true := Pte.mapped_of_present present
    have mapped : (s.proc.pgdir.flat (vpn a)).mapped = true := by
      rwa [recrypt.dir.mapped, w.dir.mapped] at mapped'
    have clear := ((recrypt.sound sound').dir.tidy (vpn a)).clear present
    have after := w.recrypt recrypt (.access w.trail sound' (by omega) run)
    refine ⟨?_, mapped, after⟩
    rw [St.peek, ← after.plain _ half mapped, St.plain, clear]
    rfl
  · rintro e u ⟨⟨stop, fault, why⟩, run⟩ is
    refine ⟨fun mapped => ?_, w.touched sound (stop.resolve_left (not_not.mpr is))⟩
    have mapped : (t.proc.pgdir.flat (vpn a)).mapped = true := by rwa [w.dir.mapped]
    obtain ⟨rfl, _⟩ | ⟨_, ⟨zero, _⟩ | ⟨_, refused, _⟩⟩ := why
    · cases is
    · rw [zero] at mapped
      simp at mapped
    · have walk := PgDir.walk_of_mapped mapped
      have absent : (t.proc.pgdir.flat (vpn a)).has PTE_P = false := by
        rw [Proc.resident, walk, Option.filter_eq_none_iff] at fault
        simpa using fault _ rfl
      have coded : (t.proc.pgdir.flat (vpn a)).has PTE_E = true := by
        simpa [Pte.mapped, absent] using mapped
      obtain zero | ⟨_, user⟩ := sound'.dir.tidy (vpn a)
      · rw [zero] at mapped
        simp at mapped
      · rw [opens_iff sound' (user coded) coded, not_not] at refused
        rw [St.fatal, ← w.plain _ half (by rwa [← w.dir.mapped])]
        exact refused

/-- A string of `n` bytes at `a`, with its end below the size of the process. -/
structure St.IsStr (s : St) (a n : Nat) : Prop where
  below : a + n < s.proc.sz
  mapped : ∀ k ≤ n, (s.proc.pgdir.flat (vpn (a + k))).mapped = true
  body : ∀ k < n, s.peek (a + k) ≠ 0
  stop : s.peek (a + n) = 0

/-- The process ends while the kernel reads the string: some page of the string
makes a fault fatal. -/
def Cut (s : St) (a n : Nat) (X : Multiset Nat) : Stop → St → Prop := fun e u =>
  e = .exit → (∃ k ≤ n, s.fatal (a + k)) ∧ Settles s u X

section Reading
variable {s t : St} {X : Multiset Nat} {a n : Nat}

theorem load_str (sound : s.Sound) (str : s.IsStr a n) (w : Working s t X) {k : Nat} (inside : k ≤ n) :
    Sat (load false (uint (a + k))) t (fun b u => b = s.peek (a + k) ∧ Working s u X)
      (Cut s a n X) := by
  have size : s.proc.sz ≤ 2 ^ 31 := sound.size
  have below := str.below
  have same : uint (a + k) = a + k := by
    simp only [uint]
    omega
  rw [same]
  refine (load_working sound w (by omega)).mono (fun b u done => ⟨done.1, done.2.2⟩) ?_
  intro e u stop is
  exact ⟨⟨k, inside, (stop is).1 (str.mapped k inside)⟩, (stop is).2⟩

/-- The bytes from the `k`-th to the end of a string of `n` bytes. -/
def St.text (s : St) (a k n : Nat) : List UInt8 := (List.range' k (n - k)).map fun j => s.peek (a + j)

end Reading

theorem poke_moves (m : Phys) {f : Nat} {X : Multiset Nat} (held : f ∈ X) (va : Nat) (b : UInt8) :
    Moves m (m.poke f va b) X X := by
  refine ⟨rfl, fun g outside => ?_, rfl⟩
  have other : g ≠ f := by
    rintro rfl
    exact outside (Multiset.mem_add.mpr (Or.inr held))
  simp only [Phys.poke, Phys.write, Function.update_of_ne other]

/-- The number in the four bytes at `a`. -/
def St.word (s : St) (a : Nat) : Nat :=
  le [s.peek a, s.peek (a + 1), s.peek (a + 2), s.peek (a + 3)] 0 4

/-- `arg` is one of the arguments before the null word of the array at `uargv`. -/
def St.passes (s : St) (uargv arg : Nat) : Prop :=
  ∃ i < MAXARG, arg = s.word (uint (uargv + 4 * i)) ∧ ∀ j ≤ i, s.word (uint (uargv + 4 * j)) ≠ 0

/-- A process that ends before `exec` has begun takes all its frames with it. -/
def CutEarly (s : St) : Stop → St → Prop := fun e u => e = .exit → Settles s u 0

section Fetching
variable {s t : St}

theorem load_early (sound : s.Sound) (w : Working s t 0) {a : Nat} (below : a < s.proc.sz) :
    Sat (load false a) t
      (fun b u => b = s.peek a ∧ (s.proc.pgdir.flat (vpn a)).mapped = true ∧ Working s u 0)
      (CutEarly s) := by
  have size : s.proc.sz ≤ 2 ^ 31 := sound.size
  exact (load_working sound w (by omega)).mono (fun _ _ done => done)
    (fun _ _ stop is => (stop is).2)

theorem St.IsStr.cons {a n : Nat} (str : s.IsStr (a + 1) n)
    (mapped : (s.proc.pgdir.flat (vpn a)).mapped = true) (byte : s.peek a ≠ 0) :
    s.IsStr a (n + 1) := by
  have shift : ∀ k, a + 1 + k = a + (k + 1) := fun k => by omega
  refine ⟨?_, fun k inside => ?_, fun k inside => ?_, ?_⟩
  · rw [← shift]
    exact str.below
  · cases k with
    | zero => exact mapped
    | succ k =>
      rw [← shift]
      exact str.mapped k (by omega)
  · cases k with
    | zero => exact byte
    | succ k =>
      rw [← shift]
      exact str.body k (by omega)
  · rw [← shift]
    exact str.stop

theorem fetchstrLoop_spec (sound : s.Sound) (n a : Nat) (below : a + n ≤ s.proc.sz)
    (w : Working s t 0) :
    Sat (fetchstrLoop n a) t
      (fun r u => Working s u 0 ∧ (r = true → ∃ k, s.IsStr a k)) (CutEarly s) := by
  induction n generalizing a t with
  | zero => exact ⟨w, nofun⟩
  | succ n ih =>
    rw [fetchstrLoop]
    refine .bind (load_early sound w (by omega)) ?_
    rintro b u ⟨rfl, mapped, w⟩
    split
    · rename_i zero
      refine ⟨w, fun _ => ⟨0, by omega, fun k inside => ?_, nofun, zero⟩⟩
      obtain rfl : k = 0 := by omega
      exact mapped
    · rename_i byte
      refine (ih (a + 1) (by omega) w).imp ?_
      rintro r v ⟨w, found⟩
      refine ⟨w, fun yes => ?_⟩
      obtain ⟨k, str⟩ := found yes
      exact ⟨k + 1, str.cons mapped byte⟩

theorem fetchstr_spec (sound : s.Sound) (a : Nat) (w : Working s t 0) :
    Sat (fetchstr a) t (fun r u => Working s u 0 ∧ (r = true → ∃ k, s.IsStr a k))
      (CutEarly s) := by
  rw [fetchstr, sat_bind, sat_get]
  dsimp only
  rw [w.sz]
  split
  · exact ⟨w, nofun⟩
  · exact fetchstrLoop_spec sound _ a (by omega) w

theorem fetchint_spec (sound : s.Sound) (a : Nat) (w : Working s t 0) :
    Sat (fetchint a) t (fun r u => Working s u 0 ∧ ∀ arg, r = some arg → arg = s.word a)
      (CutEarly s) := by
  have size : s.proc.sz ≤ 2 ^ 31 := sound.size
  rw [fetchint, sat_bind, sat_get]
  dsimp only
  rw [w.sz]
  split
  · exact ⟨w, nofun⟩
  · rename_i inside
    simp only [uint] at inside
    refine .bind (load_early sound w (by omega)) ?_
    rintro b u ⟨rfl, _, w⟩
    refine .bind (load_early sound w (by omega)) ?_
    rintro b u ⟨rfl, _, w⟩
    refine .bind (load_early sound w (by omega)) ?_
    rintro b u ⟨rfl, _, w⟩
    refine .bind (load_early sound w (by omega)) ?_
    rintro b u ⟨rfl, _, w⟩
    refine ⟨w, fun arg is => ?_⟩
    exact (Option.some.inj is).symm

theorem fetchArgs_spec (sound : s.Sound) (uargv n i : Nat) (count : i + n = MAXARG)
    (before : ∀ j < i, s.word (uint (uargv + 4 * j)) ≠ 0) (w : Working s t 0) :
    Sat (fetchArgs uargv n i) t (fun r u => Working s u 0 ∧ ∀ argv, r = some argv →
      ∀ arg ∈ argv, (∃ k, s.IsStr arg k) ∧ s.passes uargv arg) (CutEarly s) := by
  induction n generalizing i t with
  | zero => exact ⟨w, nofun⟩
  | succ n ih =>
    rw [fetchArgs]
    refine .bind (fetchint_spec sound _ w) ?_
    rintro r u ⟨w, value⟩
    cases r with
    | none => exact ⟨w, nofun⟩
    | some uarg =>
      obtain rfl := value uarg rfl
      dsimp only
      split
      · refine ⟨w, fun argv is arg member => ?_⟩
        cases is
        cases member
      · rename_i filled
        have upto : ∀ j ≤ i, s.word (uint (uargv + 4 * j)) ≠ 0 := by
          intro j hj
          obtain lt | rfl := Nat.lt_or_eq_of_le hj
          · exact before j lt
          · exact filled
        refine .bind (fetchstr_spec sound _ w) ?_
        rintro ok v ⟨w, str⟩
        cases ok with
        | false => exact ⟨w, nofun⟩
        | true =>
          rw [if_pos rfl]
          refine .bind (ih (i + 1) (by omega) (fun j hj => upto j (by omega)) w) ?_
          rintro rest x ⟨w, others⟩
          refine ⟨w, fun argv is arg member => ?_⟩
          cases rest with
          | none => cases is
          | some rest =>
            cases is
            obtain rfl | member := List.mem_cons.mp member
            · exact ⟨str rfl, i, by omega, rfl, upto⟩
            · exact others rest rfl arg member

end Fetching
end Xv6
