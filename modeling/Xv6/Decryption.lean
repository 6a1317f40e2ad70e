import Xv6.PageOwnership
import Xv6.Transparency

/-! Which encrypted pages `mdecrypt` opens. It looks for a null byte at the start
of the page as stored, to see whether the translation has failed, so a page whose
plaintext starts with `0xFF` is taken for a failure and ends the process. -/
namespace Xv6
open PteBit Control

/-- The page at `va` has been decrypted to `plaintext`. -/
def Opened (t : St) (va : Nat) (plaintext : Page) : Prop :=
  (t.proc.pgdir.flat (vpn va)).has PTE_E = false ∧ (t.proc.pgdir.flat (vpn va)).has PTE_P = true ∧
  t.phys.bytes (t.proc.pgdir.flat (vpn va)).ppn = plaintext

section Page
variable {s : St} {va : Nat} {plaintext : Page}

theorem plain_of_coded (coded : (s.proc.pgdir.flat (vpn va)).has PTE_E = true)
    (bytes : s.phys.bytes (s.proc.pgdir.flat (vpn va)).ppn = plaintext.flip) :
    s.plain (vpn va) = plaintext := by
  rw [St.plain, if_pos coded, bytes, Page.flip_flip]

theorem served_opened (sound : s.Sound) (user : (s.proc.pgdir.flat (vpn va)).has PTE_U = true)
    (coded : (s.proc.pgdir.flat (vpn va)).has PTE_E = true) (opens : s.Opens va)
    (plain : s.plain (vpn va) = plaintext) : Opened (s.served va) va plaintext := by
  have mapped : (s.proc.pgdir.flat (vpn va)).mapped = true := by simp [Pte.mapped, coded]
  have walk := PgDir.walk_of_mapped mapped
  have tidy := sound.dir.tidy (vpn va)
  have absent : (s.proc.pgdir.flat (vpn va)).has PTE_P = false := by
    obtain zero | ⟨exclusive, _⟩ := tidy
    · exact absurd zero (Pte.mapped_ne_zero mapped)
    · rw [exclusive, coded]
      rfl
  have fault : s.proc.resident true va = none := by
    rw [Proc.resident, walk, Option.filter_eq_none_iff]
    intro pte is
    cases is
    simp [absent]
  have recrypt := Recrypt.served sound fault (Pte.mapped_ne_zero mapped) opens
  have entry := PgDir.flat_of_walk (served_flat walk)
  have clear : ((s.served va).proc.pgdir.flat (vpn va)).has PTE_E = false := by
    rw [entry]
    simp
  refine ⟨clear, ?_, ?_⟩
  · rw [entry]
    simp
  · have same := recrypt.plain (vpn va) (sound.user_half user) mapped
    rwa [St.plain, clear, plain] at same

/-- `mdecrypt` and the page fault it serves, on an encrypted user page. -/
theorem mdecrypt_outcome (sound : s.Sound) (user : (s.proc.pgdir.flat (vpn va)).has PTE_U = true)
    (coded : (s.proc.pgdir.flat (vpn va)).has PTE_E = true)
    (plain : s.plain (vpn va) = plaintext) :
    Sat (mdecrypt va) s
      (fun r t => ¬ s.Stuck va ∧ (plaintext 0 ≠ 0xFF ∧ r = 0 ∧ Opened t va plaintext ∨
        plaintext 0 = 0xFF ∧ r = -1))
      (fun e _ => e = .nullPte ∧ s.Stuck va) := by
  have mapped : (s.proc.pgdir.flat (vpn va)).mapped = true := by simp [Pte.mapped, coded]
  have opens := opens_iff sound user coded
  rw [plain] at opens
  refine (mdecrypt_spec (PgDir.walk_of_mapped mapped) (Pte.mapped_ne_zero mapped)).mono ?_
    (fun _ _ failed => failed)
  rintro r t ⟨free, outcome⟩
  by_cases first : plaintext 0 = 0xFF
  · rw [if_neg (by rw [opens]; exact not_not.mpr first)] at outcome
    exact ⟨free, Or.inr ⟨first, outcome.1⟩⟩
  · have opens := opens.mpr first
    rw [if_pos opens] at outcome
    obtain ⟨rfl, rfl⟩ := outcome
    exact ⟨free, Or.inl ⟨first, rfl, served_opened sound user coded opens plain⟩⟩

end Page

/-- In every state a run reaches, a page fault on an encrypted user page is served,
with the plaintext back in the page, exactly when the plaintext does not start
with `0xFF` and the oldest clock entry, if it is to be expelled, has a page table.
It ends the process exactly when the plaintext does start so. -/
theorem decryption_succeeds_iff {pool lost : Multiset Nat} {s₀ s : Sys} {es : List Event}
    (owned : s₀.Owned pool lost) (run : Transition.Run Step s₀ es s) {i : Nat} (hi : i < NPROC)
    (live : (s.slots i).state.live = true) {va : Nat} {plaintext : Page}
    (user : ((s.view i).proc.pgdir.flat (vpn va)).has PTE_U = true)
    (coded : ((s.view i).proc.pgdir.flat (vpn va)).has PTE_E = true)
    (bytes : s.phys.bytes ((s.view i).proc.pgdir.flat (vpn va)).ppn = plaintext.flip) :
    ((∃ t, (mdecrypt va).run (s.view i) = .ok 0 t ∧ Opened t va plaintext) ↔
      plaintext 0 ≠ 0xFF ∧ ¬ (s.view i).Stuck va) ∧
    ((∃ t, (trapPgflt va).run (s.view i) = .error .exit t) ↔
      plaintext 0 = 0xFF ∧ ¬ (s.view i).Stuck va) := by
  obtain ⟨_, owned⟩ := run.kept (step_owned pool) ⟨lost, owned⟩
  have sound := owned.view hi (live_used live)
  have outcome := mdecrypt_outcome sound user coded (plain_of_coded coded bytes)
  constructor
  · constructor
    · rintro ⟨t, run, _⟩
      obtain ⟨free, ⟨first, _⟩ | ⟨_, failed⟩⟩ := outcome.of_ok run
      · exact ⟨first, free⟩
      · cases failed
    · rintro ⟨first, free⟩
      cases run : (mdecrypt va).run (s.view i) with
      | ok r t =>
        obtain ⟨_, ⟨_, rfl, opened⟩ | ⟨starts, _⟩⟩ := outcome.of_ok run
        · exact ⟨t, rfl, opened⟩
        · exact absurd starts first
      | error e t => exact absurd (outcome.of_error run).2 free
  · have trap : Sat (trapPgflt va) (s.view i)
        (fun _ _ => ¬ (s.view i).Stuck va ∧ plaintext 0 ≠ 0xFF)
        (fun e _ => e = .nullPte ∧ (s.view i).Stuck va ∨
          e = .exit ∧ ¬ (s.view i).Stuck va ∧ plaintext 0 = 0xFF) := by
      rw [trapPgflt, sat_bind]
      refine outcome.mono ?_ (fun e t failed => Or.inl failed)
      rintro r t ⟨free, ⟨first, rfl, _⟩ | ⟨first, rfl⟩⟩
      · exact ⟨free, first⟩
      · exact Or.inr ⟨rfl, free, first⟩
    constructor
    · rintro ⟨t, run⟩
      obtain ⟨null, _⟩ | ⟨_, free, first⟩ := trap.of_error run
      · cases null
      · exact ⟨first, free⟩
    · rintro ⟨first, free⟩
      cases run : (trapPgflt va).run (s.view i) with
      | ok r t => exact absurd first (trap.of_ok run).2
      | error e t =>
        obtain ⟨_, stuck⟩ | ⟨rfl, _⟩ := trap.of_error run
        · exact absurd stuck free
        · exact ⟨t, rfl⟩

/-- The process encrypts a page whose first byte is zero, and the page is opened. -/
theorem zero_page_opens :
    ∃ s t, Transition.Run Step twoPageSys [⟨0, .mencrypt 0 1, some 0⟩] s ∧
      (mdecrypt 5).run (s.view 0) = .ok 0 t ∧ Opened t 5 (s.phys.bytes 1010).flip := by
  have owned := twoPages_small.owned (m := twoPageSys.phys) (p := (twoPageSys.slots 0).proc)
    rfl rfl (by omega) (by decide)
  have step : Step twoPageSys ⟨0, .mencrypt 0 1, some 0⟩ (after 0 (.mencrypt 0 1) twoPageSys) :=
    step_after (by decide) rfl (by decide +kernel)
  obtain ⟨s, is⟩ : ∃ s, s = after 0 (.mencrypt 0 1) twoPageSys := ⟨_, rfl⟩
  rw [← is] at step
  have live : (s.slots 0).state.live = true := by
    rw [is]
    decide +kernel
  have user : ((s.view 0).proc.pgdir.flat (vpn 5)).has PTE_U = true := by
    rw [is]
    decide +kernel
  have coded : ((s.view 0).proc.pgdir.flat (vpn 5)).has PTE_E = true := by
    rw [is]
    decide +kernel
  have frame : ((s.view 0).proc.pgdir.flat (vpn 5)).ppn = 1010 := by
    rw [is]
    decide +kernel
  have first : (s.phys.bytes 1010).flip 0 ≠ 0xFF := by
    rw [is]
    decide +kernel
  have room : (emptySlot (s.view 0).proc).isSome = true := by
    rw [is]
    decide +kernel
  have free : ¬ (s.view 0).Stuck 5 := by
    rintro ⟨_, full, _⟩
    rw [full] at room
    cases room
  have run : Transition.Run Step twoPageSys [⟨0, .mencrypt 0 1, some 0⟩] s := .next step (.refl s)
  have bytes : s.phys.bytes ((s.view 0).proc.pgdir.flat (vpn 5)).ppn =
      (s.phys.bytes 1010).flip.flip := by
    rw [frame, Page.flip_flip]
  obtain ⟨t, done⟩ := (decryption_succeeds_iff owned run (by decide) live user coded bytes).1.mpr
    ⟨first, free⟩
  exact ⟨s, t, run, done⟩

/-- The process stores `0xFF` in the first byte of a page and encrypts the page:
`mdecrypt` fails, and the next load ends the process. -/
theorem ff_page_refused :
    allReturn [.store 0 0xFF, .mencrypt 0 1] twoPageSys = true ∧
    (((afterAll [.store 0 0xFF, .mencrypt 0 1] twoPageSys).view 0).proc.pgdir.flat 0).has PTE_U =
      true ∧
    (((afterAll [.store 0 0xFF, .mencrypt 0 1] twoPageSys).view 0).proc.pgdir.flat 0).has PTE_E =
      true ∧
    value (mdecrypt 0) ((afterAll [.store 0 0xFF, .mencrypt 0 1] twoPageSys).view 0) = some (-1) ∧
    value (perform 0 (.load 0)) (afterAll [.store 0 0xFF, .mencrypt 0 1] twoPageSys) =
      some none := by
  decide +kernel

end Xv6
