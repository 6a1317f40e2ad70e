import Xv6.AddressSpace
import Xv6.CryptProofs

/-! The plaintext of a user page: its bytes, flipped back where the entry says
that the page is encrypted. Encryption, decryption and the bookkeeping of the
clock keep the plaintext of every page of the process. -/
namespace Xv6
open PteBit Control
open Function (update update_of_ne update_self)

/-- The process has its frames to itself. -/
structure St.Sound (s : St) : Prop where
  dir : s.proc.pgdir.Sound
  size : s.proc.sz ≤ KERNBASE
  nodup : ((s.phys.freelist : Multiset Nat) + s.proc.pgdir.frames).Nodup

theorem St.Sound.free {s : St} (sound : s.Sound) : s.phys.freelist.Nodup :=
  Multiset.coe_nodup.mp (Multiset.nodup_add.mp sound.nodup).1

/-- The plaintext of a virtual page. -/
def St.plain (s : St) (v : Nat) : Page :=
  if (s.proc.pgdir.flat v).has PTE_E then (s.phys.bytes (s.proc.pgdir.flat v).ppn).flip
  else s.phys.bytes (s.proc.pgdir.flat v).ppn

theorem Pte.Tidy.mapped {pte : Pte} (tidy : pte.Tidy) (filled : pte ≠ .zero) :
    pte.mapped = true := by
  obtain zero | ⟨exclusive, _⟩ := tidy
  · contradiction
  · unfold Pte.mapped
    rw [exclusive]
    cases pte.has PTE_E <;> rfl

theorem Pte.Tidy.clear {pte : Pte} (tidy : pte.Tidy) (present : pte.has PTE_P = true) :
    pte.has PTE_E = false := by
  obtain rfl | ⟨exclusive, _⟩ := tidy
  · simp at present
  · rw [present] at exclusive
    simpa using exclusive

theorem Pte.mapped_of_present {pte : Pte} (present : pte.has PTE_P = true) : pte.mapped = true := by
  simp [Pte.mapped, present]

theorem Pte.mapped_ne_zero {pte : Pte} (mapped : pte.mapped = true) : pte ≠ .zero := by
  rintro rfl
  simp at mapped

theorem Pte.Tidy.unmark {pte : Pte} (tidy : pte.Tidy) : (pte.clear PTE_A).Tidy := by
  obtain rfl | facts := tidy
  · exact Or.inl rfl
  · exact Or.inr (by simpa using facts)

theorem Pte.Tidy.mark {pte : Pte} (tidy : pte.Tidy) (filled : pte ≠ .zero) :
    (pte.set PTE_A).Tidy := by
  obtain zero | facts := tidy
  · contradiction
  · exact Or.inr (by simpa using facts)

theorem Pte.Tidy.sealed {pte : Pte} (user : pte.has PTE_U = true) : pte.sealed.Tidy :=
  Or.inr ⟨by simp, fun _ => by simp [user]⟩

theorem Pte.Tidy.opened (pte : Pte) : pte.opened.Tidy :=
  Or.inr ⟨by simp, fun coded => by simp at coded⟩

/-- A change of the page table that leaves every page in place: the entries may
differ in whether a page is present, encrypted or referenced. -/
structure Remarks (d d' : PgDir) : Prop where
  frame : d'.frame = d.frame
  tabs : ∀ i, (d'.tabs i).map PgTab.frame = (d.tabs i).map PgTab.frame
  ppn : ∀ v, (d'.flat v).ppn = (d.flat v).ppn
  mapped : ∀ v, (d'.flat v).mapped = (d.flat v).mapped
  user : ∀ v, (d'.flat v).has PTE_U = (d.flat v).has PTE_U
  tidy : ∀ v, (d.flat v).Tidy → (d'.flat v).Tidy

namespace Remarks
variable {d d' d'' : PgDir}

theorem refl (d : PgDir) : Remarks d d :=
  ⟨rfl, fun _ => rfl, fun _ => rfl, fun _ => rfl, fun _ => rfl, fun _ tidy => tidy⟩

theorem trans (first : Remarks d d') (second : Remarks d' d'') : Remarks d d'' where
  frame := second.frame.trans first.frame
  tabs i := (second.tabs i).trans (first.tabs i)
  ppn v := (second.ppn v).trans (first.ppn v)
  mapped v := (second.mapped v).trans (first.mapped v)
  user v := (second.user v).trans (first.user v)
  tidy v tidy := second.tidy v (first.tidy v tidy)

/-- Rewriting the flags of one entry. -/
theorem setPte (d : PgDir) (a : Nat) (new : Pte) (ppn : new.ppn = (d.flat (vpn a)).ppn)
    (mapped : new.mapped = (d.flat (vpn a)).mapped)
    (user : new.has PTE_U = (d.flat (vpn a)).has PTE_U)
    (tidy : (d.flat (vpn a)).Tidy → new.Tidy) : Remarks d (d.setPte a new) := by
  cases walk : walkpgdir d a with
  | none =>
    have absent : d.tabs (pdx a) = none := by
      simpa only [walkpgdir, Option.map_eq_none_iff] using walk
    simp only [PgDir.setPte, absent]
    exact .refl d
  | some pte =>
    have flat := PgDir.setPte_flat walk new
    have cases : ∀ v, (d.setPte a new).flat v = new ∧ d.flat v = d.flat (vpn a) ∨
        (d.setPte a new).flat v = d.flat v := by
      intro v
      by_cases here : v = vpn a
      · exact Or.inl ⟨by rw [flat, here, update_self], by rw [here]⟩
      · exact Or.inr (by rw [flat, update_of_ne here])
    refine ⟨PgDir.setPte_frame new, PgDir.setPte_tabs d a new, fun v => ?_, fun v => ?_,
      fun v => ?_, fun v => ?_⟩
    all_goals
      obtain ⟨here, same⟩ | other := cases v
      · first
          | rw [here, same, ppn]
          | rw [here, same, mapped]
          | rw [here, same, user]
          | rw [here, same]; exact tidy
      · first
          | rw [other]; done
          | rw [other]; exact id

theorem frames (h : Remarks d d') : d'.frames = d.frames := by
  have tables : d'.tabFrame = d.tabFrame := by
    funext i
    have same := h.tabs i
    unfold PgDir.tabFrame
    cases after : d'.tabs i <;> cases before : d.tabs i <;> simp_all
  have pages : ∀ v, (d'.flat v).frames = (d.flat v).frames := by
    intro v
    simp only [Pte.frames, h.mapped v, h.ppn v]
  simp only [PgDir.frames, h.frame, tables, pages]

theorem sound (h : Remarks d d') (sound : d.Sound) : d'.Sound :=
  ⟨fun v => h.tidy v (sound.tidy v), fun v kernel => (h.user v).trans (sound.guarded v kernel)⟩

end Remarks

theorem PgDir.mem_frames {d : PgDir} {v : Nat} (user : v < 2 ^ 19)
    (mapped : (d.flat v).mapped = true) : (d.flat v).ppn ∈ d.frames := by
  have held : (d.flat v).ppn ∈ (d.flat v).frames := by simp [Pte.frames, mapped]
  exact Multiset.mem_add.mpr (Or.inr (Tally.mem_total.mpr ⟨v, user, held⟩))

theorem PgDir.page_unique {d : PgDir} (nodup : d.frames.Nodup) {u v : Nat} (hu : u < 2 ^ 19)
    (hv : v < 2 ^ 19) (mapped : (d.flat u).mapped = true) (mapped' : (d.flat v).mapped = true)
    (same : (d.flat u).ppn = (d.flat v).ppn) : u = v := by
  have pages := (Multiset.nodup_add.mp nodup).2.1
  refine Tally.owner_unique (a := (d.flat u).ppn) pages hu hv ?_ ?_
  · simp [Pte.frames, mapped]
  · simp [Pte.frames, mapped', same]

namespace St.Sound
variable {s : St} {u v : Nat}

theorem frames_nodup (sound : s.Sound) : s.proc.pgdir.frames.Nodup :=
  (Multiset.nodup_add.mp sound.nodup).2.1

theorem not_free (sound : s.Sound) (user : v < 2 ^ 19)
    (mapped : (s.proc.pgdir.flat v).mapped = true) :
    (s.proc.pgdir.flat v).ppn ∉ s.phys.freelist := by
  intro free
  have apart := (Multiset.nodup_add.mp sound.nodup).2.2
  exact Multiset.disjoint_left.mp apart (Multiset.mem_coe.mpr free) (PgDir.mem_frames user mapped)

/-- What user code may use lies in the user half. -/
theorem user_half (sound : s.Sound) (user : (s.proc.pgdir.flat v).has PTE_U = true) :
    v < 2 ^ 19 := by
  by_contra kernel
  rw [sound.dir.guarded v (by omega)] at user
  contradiction

end St.Sound

/-- The process keeps its pages and the rest of memory is as before. -/
structure Touches (s t : St) : Prop where
  dir : Remarks s.proc.pgdir t.proc.pgdir
  sz : t.proc.sz = s.proc.sz
  free : t.phys.freelist = s.phys.freelist
  image : t.phys.image = s.phys.image
  bytes : ∀ f, f ∉ s.proc.pgdir.frames → t.phys.bytes f = s.phys.bytes f

/-- The process also keeps the plaintext of every page. -/
structure Recrypt (s t : St) : Prop extends Touches s t where
  plain : ∀ v < 2 ^ 19, (s.proc.pgdir.flat v).mapped = true → t.plain v = s.plain v

namespace Touches
variable {s t u : St}

theorem trans (first : Touches s t) (second : Touches t u) : Touches s u where
  dir := first.dir.trans second.dir
  sz := second.sz.trans first.sz
  free := second.free.trans first.free
  image := second.image.trans first.image
  bytes f outside := (second.bytes f (by rwa [first.dir.frames])).trans (first.bytes f outside)

theorem moves (h : Touches s t) :
    Moves s.phys t.phys s.proc.pgdir.frames t.proc.pgdir.frames := by
  refine ⟨by rw [h.free, h.dir.frames], fun f outside => h.bytes f ?_, h.image⟩
  exact fun inside => outside (Multiset.mem_add.mpr (Or.inr inside))

theorem sound (h : Touches s t) (sound : s.Sound) : t.Sound := by
  refine ⟨h.dir.sound sound.dir, by rw [h.sz]; exact sound.size, ?_⟩
  rw [h.free, h.dir.frames]
  exact sound.nodup

end Touches

namespace Recrypt
variable {s t u : St}

theorem refl (s : St) : Recrypt s s :=
  ⟨⟨.refl _, rfl, rfl, rfl, fun _ _ => rfl⟩, fun _ _ _ => rfl⟩

theorem trans (first : Recrypt s t) (second : Recrypt t u) : Recrypt s u where
  toTouches := first.toTouches.trans second.toTouches
  plain v user mapped :=
    (second.plain v user (by rwa [first.dir.mapped])).trans (first.plain v user mapped)

/-- Only the page table changes, and no page is marked otherwise as encrypted. -/
theorem of_dir (phys : t.phys = s.phys) (sz : t.proc.sz = s.proc.sz)
    (dir : Remarks s.proc.pgdir t.proc.pgdir)
    (coded : ∀ v, (t.proc.pgdir.flat v).has PTE_E = (s.proc.pgdir.flat v).has PTE_E) :
    Recrypt s t := by
  refine ⟨⟨dir, sz, by rw [phys], by rw [phys], fun _ _ => by rw [phys]⟩, fun v _ _ => ?_⟩
  simp only [St.plain, coded, phys, dir.ppn]

/-- The bytes of one user page are flipped, and its entry changes sides. -/
theorem of_flip {a : Nat} (new : Pte) (sound : s.Sound) (user : vpn a < 2 ^ 19)
    (mapped : (s.proc.pgdir.flat (vpn a)).mapped = true)
    (phys : t.phys = s.phys.write (s.proc.pgdir.flat (vpn a)).ppn
      (s.phys.bytes (s.proc.pgdir.flat (vpn a)).ppn).flip)
    (dir : t.proc.pgdir = s.proc.pgdir.setPte a new) (sz : t.proc.sz = s.proc.sz)
    (remarks : Remarks s.proc.pgdir t.proc.pgdir)
    (coded : new.has PTE_E = !(s.proc.pgdir.flat (vpn a)).has PTE_E) : Recrypt s t := by
  refine ⟨⟨remarks, sz, by rw [phys]; rfl, by rw [phys]; rfl, fun f outside => ?_⟩,
    fun v half page => ?_⟩
  · have other : f ≠ (s.proc.pgdir.flat (vpn a)).ppn := by
      rintro rfl
      exact outside (PgDir.mem_frames user mapped)
    simp only [phys, Phys.write, update_of_ne other]
  · have flat : t.proc.pgdir.flat = update s.proc.pgdir.flat (vpn a) new := by
      rw [dir]
      exact PgDir.setPte_flat (PgDir.walk_of_mapped mapped) new
    have ppn : new.ppn = (s.proc.pgdir.flat (vpn a)).ppn := by
      have := remarks.ppn (vpn a)
      rwa [flat, update_self] at this
    unfold St.plain
    rw [flat, phys]
    by_cases here : v = vpn a
    · subst here
      simp only [update_self, coded, ppn, Phys.write]
      cases (s.proc.pgdir.flat (vpn a)).has PTE_E <;> simp
    · have other : (s.proc.pgdir.flat v).ppn ≠ (s.proc.pgdir.flat (vpn a)).ppn := by
        intro same
        exact here (PgDir.page_unique sound.frames_nodup half user page mapped same)
      simp only [update_of_ne here, Phys.write, update_of_ne other]

end Recrypt
namespace Recrypt
variable {s : St}

theorem encryptPage {a : Nat} (sound : s.Sound)
    (usable : (s.proc.pgdir.flat (vpn a)).usable = true)
    (clear : (s.proc.pgdir.flat (vpn a)).has PTE_E = false) : Recrypt s (s.encryptPage a) := by
  obtain ⟨mapped, user⟩ := Pte.usable_iff.mp usable
  have half := sound.user_half user
  refine of_flip (s.proc.pgdir.flat (vpn a)).sealed sound half mapped rfl rfl rfl ?_ ?_
  · refine Remarks.setPte _ a _ rfl ?_ ?_ (fun _ => .sealed user)
    · rw [mapped]
      simp [Pte.mapped]
    · simp
  · simp [clear]

theorem flushed (s : St) : Recrypt s s.flushed :=
  of_dir rfl rfl (.refl _) fun _ => rfl

theorem mencrypted (sound : s.Sound) (va : Nat) (len : Int) : Recrypt s (s.mencrypted va len) := by
  unfold St.mencrypted
  split
  · rename_i usable
    split
    · rename_i a picked
      obtain ⟨usable, clear⟩ := target_usable usable picked
      exact encryptPage sound usable clear
    · exact flushed s
  · exact .refl s

/-- Clearing the mark of one entry. -/
theorem unmark {t : St} {a : Nat} (phys : t.phys = s.phys) (sz : t.proc.sz = s.proc.sz)
    (dir : t.proc.pgdir = s.proc.pgdir.setPte a ((s.proc.pgdir.flat (vpn a)).clear PTE_A)) :
    Recrypt s t := by
  have remarks : Remarks s.proc.pgdir t.proc.pgdir := by
    rw [dir]
    refine Remarks.setPte _ a _ rfl ?_ ?_ (fun tidy => tidy.unmark)
    · simp [Pte.mapped]
    · simp
  refine of_dir phys sz remarks fun v => ?_
  rw [dir]
  obtain same | cleared := unmark_flat s.proc.pgdir a v
  · rw [same]
  · rw [cleared]
    simp

theorem aged (s : St) : Recrypt s s.aged := by
  unfold St.aged
  split
  · exact unmark rfl rfl rfl
  · exact .refl s

theorem setClock (s : St) (i va head : Nat) :
    Recrypt s { s with proc := s.proc.setClock i va head } :=
  of_dir rfl rfl (.refl _) fun _ => rfl

theorem evicted (sound : s.Sound) (va : Nat) : Recrypt s (s.evicted va) := by
  have aged := aged s
  have sealed := mencrypted (aged.sound sound) (s.proc.clock s.proc.head) 1
  exact (aged.trans sealed).trans (setClock _ _ _ _)

theorem admitted (sound : s.Sound) (va : Nat) : Recrypt s (s.admitted va) := by
  unfold St.admitted
  split
  · exact unmark rfl rfl rfl
  · exact evicted sound va

theorem recorded (sound : s.Sound) (va : Nat) : Recrypt s (s.recorded va) := by
  unfold St.recorded
  split
  · exact admitted sound va
  · exact .refl s

theorem decryptPage {va : Nat} (sound : s.Sound)
    (user : (s.proc.pgdir.flat (vpn va)).has PTE_U = true)
    (coded : (s.proc.pgdir.flat (vpn va)).has PTE_E = true) : Recrypt s (s.decryptPage va) := by
  have mapped : (s.proc.pgdir.flat (vpn va)).mapped = true := by simp [Pte.mapped, coded]
  refine of_flip ((s.proc.pgdir.flat (vpn va)).opened.set PTE_A) sound
    (sound.user_half user) mapped rfl rfl rfl ?_ ?_
  · refine Remarks.setPte _ va _ rfl ?_ ?_ (fun _ => (Pte.Tidy.opened _).mark ?_)
    · rw [mapped]
      simp [Pte.mapped]
    · simp
    · exact Pte.mapped_ne_zero (by simp [Pte.mapped])
  · simp [coded]

theorem touched {va : Nat} (present : (s.proc.pgdir.flat (vpn va)).has PTE_P = true) :
    Recrypt s (s.touched va) := by
  have mapped : (s.proc.pgdir.flat (vpn va)).mapped = true := Pte.mapped_of_present present
  have walk := PgDir.walk_of_mapped mapped
  refine of_dir rfl rfl (Remarks.setPte _ va _ rfl ?_ ?_ fun tidy => tidy.mark ?_) fun v => ?_
  · simp [Pte.mapped]
  · simp
  · exact Pte.mapped_ne_zero mapped
  · simp only [St.touched, Proc.use, Proc.setPte, PgDir.setPte_flat walk]
    by_cases here : v = vpn va
    · subst here
      simp
    · rw [update_of_ne here]

end Recrypt

/-- A page whose fault is served was encrypted. -/
theorem coded_of_fault {s : St} {user : Bool} {va : Nat} (sound : s.Sound)
    (fault : s.proc.resident user va = none) (filled : s.proc.pgdir.flat (vpn va) ≠ .zero)
    (open_ : (s.proc.pgdir.flat (vpn va)).has PTE_U = true) :
    (s.proc.pgdir.flat (vpn va)).has PTE_E = true := by
  have mapped := (sound.dir.tidy _).mapped filled
  have walk := PgDir.walk_of_mapped mapped
  rw [Proc.resident, walk, Option.filter_eq_none_iff] at fault
  have absent := fault _ rfl
  rw [open_] at absent
  simp only [Bool.or_true, Bool.and_true, Bool.not_eq_true] at absent
  simpa [Pte.mapped, absent] using mapped

theorem recorded_coded {s : St} {va : Nat} (v : Nat) (coded : (s.proc.pgdir.flat v).has PTE_E = true) :
    ((s.recorded va).proc.pgdir.flat v).has PTE_E = true := by
  rw [recorded_has s va v (by decide)]
  split
  · simp
  · exact coded

/-- `mdecrypt` refuses an encrypted page exactly when its plaintext starts with
the byte `0xFF`, which is stored as a zero. -/
theorem opens_iff {s : St} {va : Nat} (sound : s.Sound)
    (user : (s.proc.pgdir.flat (vpn va)).has PTE_U = true)
    (coded : (s.proc.pgdir.flat (vpn va)).has PTE_E = true) :
    s.Opens va ↔ s.plain (vpn va) 0 ≠ 0xFF := by
  have recorded := Recrypt.recorded sound va
  have mapped : (s.proc.pgdir.flat (vpn va)).mapped = true := by simp [Pte.mapped, coded]
  have flip : ∀ b : UInt8, b ^^^ 0xFF = 0xFF ↔ b = 0 := by
    intro b
    constructor
    · intro ones
      simpa [UInt8.xor_assoc] using congrArg (· ^^^ (0xFF : UInt8)) ones
    · rintro rfl
      rfl
  rw [St.Opens, recorded.dir.user, ← recorded.plain _ (sound.user_half user) mapped, St.plain,
    if_pos (recorded_coded _ coded), Page.flip, ne_eq, ne_eq, flip]
  simp [user]

/-- A page fault that is served keeps the plaintext of every page. -/
theorem Recrypt.served {s : St} {user : Bool} {va : Nat} (sound : s.Sound)
    (fault : s.proc.resident user va = none) (filled : s.proc.pgdir.flat (vpn va) ≠ .zero)
    (opens : s.Opens va) : Recrypt s (s.served va) := by
  have recorded := Recrypt.recorded sound va
  have open_ : (s.proc.pgdir.flat (vpn va)).has PTE_U = true := by
    rw [← recorded.dir.user]
    exact opens.1
  have coded := coded_of_fault sound fault filled open_
  exact recorded.trans
    (.decryptPage (recorded.sound sound) opens.1 (recorded_coded (vpn va) coded))

theorem mdecrypt_recrypt {s : St} {user : Bool} {va : Nat} (sound : s.Sound)
    (fault : s.proc.resident user va = none) :
    Sat (mdecrypt va) s (fun r t => r = 0 → Recrypt s t) (fun _ _ => True) := by
  cases walk : walkpgdir s.proc.pgdir va with
  | none =>
    rw [mdecrypt, sat_bind, sat_get]
    dsimp only
    rw [walk]
    rintro ⟨⟩
  | some pte =>
    have entry := PgDir.flat_of_walk walk
    by_cases empty : pte = .zero
    · rw [mdecrypt, sat_bind, sat_get]
      dsimp only
      rw [walk]
      dsimp only
      rw [if_pos empty]
      rintro ⟨⟩
    · refine (mdecrypt_spec walk empty).mono ?_ (fun _ _ _ => trivial)
      rintro r t ⟨_, outcome⟩ rfl
      by_cases opens : s.Opens va
      · rw [if_pos opens] at outcome
        obtain ⟨_, rfl⟩ := outcome
        exact .served sound fault (by rwa [entry]) opens
      · rw [if_neg opens] at outcome
        cases outcome.1

/-- A page fault that ends the process leaves its pages in place. -/
theorem Touches.revealed {s : St} {va : Nat} (sound : s.Sound)
    (filled : s.proc.pgdir.flat (vpn va) ≠ .zero) : Touches s ((s.recorded va).revealed va) := by
  have recorded := Recrypt.recorded sound va
  have mapped : ((s.recorded va).proc.pgdir.flat (vpn va)).mapped = true := by
    rw [recorded.dir.mapped]
    exact (sound.dir.tidy _).mapped filled
  have dir : Remarks (s.recorded va).proc.pgdir ((s.recorded va).revealed va).proc.pgdir := by
    refine Remarks.setPte _ va _ rfl ?_ ?_ (fun _ => .opened _)
    · rw [mapped]
      simp [Pte.mapped]
    · simp
  exact recorded.toTouches.trans ⟨dir, rfl, rfl, rfl, fun _ _ => rfl⟩

/-- After a completed access the page is present and in the clear. -/
theorem access_recrypt {s : St} (sound : s.Sound) (user : Bool) (va : Nat) :
    Sat (access user va) s
      (fun f t => Recrypt s t ∧ f = (t.proc.pgdir.flat (vpn va)).ppn ∧
        (t.proc.pgdir.flat (vpn va)).has PTE_P = true ∧
        (user = true → (t.proc.pgdir.flat (vpn va)).has PTE_U = true))
      (fun e t => e ≠ .exit ∨ Touches s t) := by
  have resident : ∀ u : St, (u.proc.resident user va).isSome →
      (u.proc.pgdir.flat (vpn va)).has PTE_P = true ∧
      (user = true → (u.proc.pgdir.flat (vpn va)).has PTE_U = true) := by
    intro u here
    obtain ⟨pte, here⟩ := Option.isSome_iff_exists.mp here
    rw [Proc.resident, Option.filter_eq_some_iff] at here
    rw [PgDir.flat_of_walk here.1]
    have bits := here.2
    simp only [Bool.and_eq_true, Bool.or_eq_true, Bool.not_eq_true'] at bits
    refine ⟨bits.1, fun user => ?_⟩
    rw [user] at bits
    simpa using bits.2
  refine (access_spec user s va).mono ?_ ?_
  · intro f t outcome
    have finish : ∀ u : St, (u.proc.pgdir.flat (vpn va)).has PTE_P = true ∧
        (user = true → (u.proc.pgdir.flat (vpn va)).has PTE_U = true) → Recrypt s u →
        Recrypt s (u.touched va) ∧ (u.proc.pgdir.flat (vpn va)).ppn =
          ((u.touched va).proc.pgdir.flat (vpn va)).ppn ∧
        ((u.touched va).proc.pgdir.flat (vpn va)).has PTE_P = true ∧
        (user = true → ((u.touched va).proc.pgdir.flat (vpn va)).has PTE_U = true) := by
      intro u bits before
      have after := Recrypt.touched bits.1
      have mapped : (u.proc.pgdir.flat (vpn va)).mapped = true := by simp [Pte.mapped, bits.1]
      have flat : (u.touched va).proc.pgdir.flat (vpn va) =
          (u.proc.pgdir.flat (vpn va)).set PTE_A := by
        simp only [St.touched, Proc.use, Proc.setPte,
          PgDir.setPte_flat (PgDir.walk_of_mapped mapped), update_self]
      refine ⟨before.trans after, by rw [flat]; rfl, ?_, fun user => ?_⟩
      · rw [flat]
        simp [bits.1]
      · rw [flat]
        simp [bits.2 user]
    obtain ⟨here, rfl, rfl⟩ | ⟨fault, filled, opens, _, rfl, rfl⟩ := outcome
    · exact finish s (resident s here) (.refl s)
    · have served := Recrypt.served sound fault filled opens
      have walk := PgDir.walk_of_mapped ((sound.dir.tidy _).mapped filled)
      refine finish (s.served va) ?_ served
      rw [PgDir.flat_of_walk (served_flat walk)]
      exact ⟨by simp, fun _ => by simp [opens.1]⟩
  · intro e t outcome
    obtain ⟨_, ⟨rfl, _⟩ | ⟨rfl, ⟨_, rfl⟩ | ⟨filled, _, rfl⟩⟩⟩ := outcome
    · exact Or.inl (by simp)
    · exact Or.inr (Recrypt.refl _).toTouches
    · exact Or.inr (.revealed sound filled)

/-- A load returns the plaintext byte. -/
theorem load_spec {s : St} (sound : s.Sound) (user : Bool) (va : Nat) :
    Sat (load user va) s
      (fun b t => Recrypt s t ∧ (s.proc.pgdir.flat (vpn va)).mapped = true ∧
        (user = true → vpn va < 2 ^ 19) ∧ (vpn va < 2 ^ 19 → b = s.plain (vpn va) (slot va)))
      (fun e t => e ≠ .exit ∨ Touches s t) := by
  rw [load]
  refine .bind (access_recrypt sound user va) ?_
  rintro f t ⟨recrypt, rfl, present, open_⟩
  have sound' := recrypt.sound sound
  have mapped : (s.proc.pgdir.flat (vpn va)).mapped = true := by
    rw [← recrypt.dir.mapped]
    exact Pte.mapped_of_present present
  refine ⟨recrypt, mapped, fun user => sound'.user_half (open_ user), fun half => ?_⟩
  have clear : (t.proc.pgdir.flat (vpn va)).has PTE_E = false :=
    (sound'.dir.tidy _).clear present
  rw [← recrypt.plain _ half mapped, St.plain, clear]
  rfl

/-- A store changes one plaintext byte. -/
structure Stores (s t : St) (va : Nat) (b : UInt8) : Prop extends Touches s t where
  plain : ∀ v < 2 ^ 19, (s.proc.pgdir.flat v).mapped = true → t.plain v =
    if v = vpn va then update (s.plain v) (slot va) b else s.plain v

theorem store_spec {s : St} (sound : s.Sound) (user : Bool) (va : Nat) (b : UInt8)
    (half : user = true ∨ vpn va < 2 ^ 19) :
    Sat (store user va b) s (fun _ t => Stores s t va b) (fun e t => e ≠ .exit ∨ Touches s t) := by
  rw [store]
  refine .bind (access_recrypt sound user va) ?_
  rintro f t ⟨recrypt, rfl, present, open_⟩
  have sound' := recrypt.sound sound
  have half : vpn va < 2 ^ 19 := half.elim (fun user => sound'.user_half (open_ user)) id
  have mapped : (t.proc.pgdir.flat (vpn va)).mapped = true := Pte.mapped_of_present present
  have clear := (sound'.dir.tidy (vpn va)).clear present
  rw [sat_modify]
  refine ⟨recrypt.toTouches.trans ⟨.refl _, rfl, rfl, rfl, fun f outside => ?_⟩, ?_⟩
  · have other : f ≠ (t.proc.pgdir.flat (vpn va)).ppn := by
      rintro rfl
      exact outside (PgDir.mem_frames half mapped)
    simp only [Phys.poke, Phys.write, update_of_ne other]
  · intro v user page
    rw [← recrypt.plain v user page]
    have page' : (t.proc.pgdir.flat v).mapped = true := by rwa [recrypt.dir.mapped]
    unfold St.plain
    by_cases here : v = vpn va
    · subst here
      simp [clear, Phys.poke, Phys.write]
    · have other : (t.proc.pgdir.flat v).ppn ≠ (t.proc.pgdir.flat (vpn va)).ppn := by
        intro same
        exact here (PgDir.page_unique sound'.frames_nodup user half page' mapped same)
      simp [here, Phys.poke, Phys.write, update_of_ne other]

end Xv6
