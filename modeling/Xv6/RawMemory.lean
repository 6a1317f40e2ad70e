import Xv6.ExecImage

/-! `dump_rawphymem`: a frame is copied as it is into a buffer of the process. The kernel
touches the first byte of the buffer, which brings in one page; the copy goes past the page
table, so that a second page of the buffer stays encrypted over its new bytes. -/
namespace Xv6
open PteBit Control Writes
open Function (update_of_ne update_self)

/-- A byte of the frame at a physical address, through the kernel's own mapping. -/
def rawByte (pa i : Nat) : K UInt8 := do return (← get).phys.bytes (pa / PGSIZE) (slot i)

def dumpRawphymem (pa buffer : Nat) : K Int := do
  store false buffer (← load false buffer)
  if ← copyout (← get).proc.pgdir buffer (rawByte pa) PGSIZE then
    return 0
  else return -1

/-- `sys_dump_rawphymem`, once it has fetched its arguments. -/
def sysDumpRawphymem (pa buffer : Nat) : K Int := do
  if argptr (← get).proc buffer PGSIZE = false then
    return -1
  else dumpRawphymem pa buffer

/-- The process reads `n` bytes from `a` on. -/
def readBytes : Nat → Nat → K (List UInt8)
  | _, 0 => return []
  | a, n + 1 => do
    let b ← load true a
    return b :: (← readBytes (a + 1) n)

/-- Reads of the buffer by the process return the bytes of the frame. -/
def ReadsRaw (t : St) (pa buffer : Nat) : Prop :=
  ∃ u, (readBytes buffer PGSIZE).run t =
    .ok ((List.range' 0 PGSIZE).map fun i => t.phys.bytes (pa / PGSIZE) (slot i)) u

section Reading
variable {s t : St} {a : Nat}

/-- What the process reads is the plaintext. -/
theorem readBytes_peek (sound : s.Sound) (recrypt : Recrypt s t) (n : Nat)
    (low : a + n ≤ 2 ^ 31) :
    Sat (readBytes a n) t (fun bs _ => bs = (List.range' a n).map s.peek) (fun _ _ => True) := by
  induction n generalizing a t with
  | zero => exact rfl
  | succ n ih =>
    have half : vpn a < 2 ^ 19 := by
      simp only [vpn, PGSIZE]
      omega
    rw [readBytes]
    refine .seq (load_spec (recrypt.sound sound) true a) ?_ (fun _ _ _ => trivial)
    rintro b u ⟨step, mapped, _, value⟩
    refine .bind (ih (recrypt.trans step) (by omega)) ?_
    rintro bs _ rfl
    rw [recrypt.dir.mapped] at mapped
    rw [sat_pure, List.range'_succ, List.map_cons, value half, recrypt.plain _ half mapped]
    rfl

/-- A page that is present is read without a page fault. -/
theorem load_user_present (user : (t.proc.pgdir.flat (vpn a)).has PTE_U = true)
    (here : (t.proc.pgdir.flat (vpn a)).has PTE_P = true) :
    Sat (load true a) t (fun _ u => u = t.touched a) (fun _ _ => False) := by
  have resident : t.proc.resident true a ≠ none := by
    rw [Proc.resident, PgDir.walk_of_mapped (Pte.mapped_of_present here), ne_eq,
      Option.filter_eq_none_iff]
    intro absent
    exact absent _ rfl (by simp [here, user])
  rw [load]
  refine .seq (access_spec true t a) ?_ (fun e u stop => resident stop.1)
  rintro f u (⟨_, rfl, _⟩ | ⟨fault, _⟩)
  · exact rfl
  · exact absurd fault resident

theorem readBytes_returns (n : Nat)
    (present : ∀ x, a ≤ x → x < a + n → (t.proc.pgdir.flat (vpn x)).has PTE_U = true ∧
      (t.proc.pgdir.flat (vpn x)).has PTE_P = true) :
    Sat (readBytes a n) t (fun _ _ => True) (fun _ _ => False) := by
  induction n generalizing a t with
  | zero => trivial
  | succ n ih =>
    obtain ⟨user, here⟩ := present a le_rfl (by omega)
    rw [readBytes]
    refine .bind (load_user_present user here) ?_
    rintro b u rfl
    refine .bind (ih fun x low high => ?_) fun _ _ _ => trivial
    rw [touched_has t _ _ (by decide), touched_has t _ _ (by decide)]
    exact present x (by omega) (by omega)

end Reading

/-- The process `u`, with other bytes on its pages: `img` says which. The frame `r` is as it
was. -/
structure Refilled (u : St) (r : Nat) (img : Nat → UInt8) (t : St) : Prop where
  proc : t.proc = u.proc
  bytes : ∀ x < 2 ^ 31, (u.proc.pgdir.flat (x / 4096)).mapped = true →
    t.phys.bytes (u.proc.pgdir.flat (x / 4096)).ppn (slot x) = img x
  raw : t.phys.bytes r = u.phys.bytes r
  free : t.phys.freelist = u.phys.freelist

/-- The bytes in the frames of the process. -/
def St.rawImage (s : St) (x : Nat) : UInt8 :=
  s.phys.bytes (s.proc.pgdir.flat (x / 4096)).ppn (slot x)

/-- The pages that are present after a touch of the page of `va`. -/
def Paged (s : St) (va : Nat) (u : St) : Prop :=
  ∀ v, (u.proc.pgdir.flat v).has PTE_P = true ↔ v = vpn va ∨
    (s.proc.pgdir.flat v).has PTE_P = true ∧
      ((s.proc.pgdir.flat (vpn va)).has PTE_P = true ∨ s.expels va ≠ some v)

section Touch
variable {s t : St} {va : Nat}

theorem access_paged : Sat (access false va) s (fun _ u => Paged s va u) (fun _ _ => True) := by
  refine (access_spec false s va).mono ?_ (fun _ _ _ => trivial)
  rintro f u (⟨resident, rfl, _⟩ | ⟨fault, filled, _, _, rfl, _⟩) v
  · have here := resident_present.mp resident
    rw [touched_has s va v (by decide)]
    refine ⟨fun present => Or.inr ⟨present, Or.inl here⟩, ?_⟩
    rintro (rfl | ⟨present, _⟩)
    · exact here
    · exact present
  · have absent : ¬ (s.proc.pgdir.flat (vpn va)).has PTE_P = true := by
      rw [← resident_present, fault]
      exact Bool.false_ne_true
    rw [touched_has _ va v (by decide), served_present filled]
    simp only [absent, Bool.false_eq_true, false_or]

/-- A second touch of the page finds it present. -/
theorem Paged.again (paged : Paged s va t) :
    Sat (access false va) t (fun _ u => Paged s va u) (fun _ _ => True) := by
  have here : (t.proc.pgdir.flat (vpn va)).has PTE_P = true := (paged (vpn va)).mpr (Or.inl rfl)
  refine (access_spec false t va).mono ?_ (fun _ _ _ => trivial)
  rintro f u (⟨_, rfl, _⟩ | ⟨fault, _⟩) v
  · rw [touched_has t va v (by decide)]
    exact paged v
  · have resident := resident_present.mpr here
    rw [fault] at resident
    cases resident

/-- `*buffer = *buffer`. -/
theorem touch_spec (sound : s.Sound) (half : vpn va < 2 ^ 19) :
    Sat (do store false va (← load false va)) s (fun _ u => Touches s u ∧ Paged s va u)
      (fun _ _ => True) := by
  have paged : Sat (load false va) s (fun _ u => Paged s va u) (fun _ _ => True) := by
    rw [load, sat_bind]
    exact access_paged
  refine .seq ((load_spec sound false va).and paged) ?_ (fun _ _ _ => trivial)
  rintro b t ⟨⟨recrypt, _⟩, paged⟩
  have again : Sat (store false va b) t (fun _ u => Paged s va u) (fun _ _ => True) := by
    rw [store, sat_bind]
    exact paged.again
  refine ((store_spec (recrypt.sound sound) false va b (Or.inr half)).and again).mono ?_
    (fun _ _ _ => trivial)
  rintro _ u ⟨stores, paged⟩
  exact ⟨recrypt.toTouches.trans stores.toTouches, paged⟩

end Touch

section Copy
variable {u : St} {r : Nat} {R : Nat → Prop}

theorem Refilled.follows (sound : u.Sound)
    (other : ∀ x, R x → (u.proc.pgdir.flat (x / 4096)).ppn ≠ r) :
    Follows (Refilled u r) u.proc.pgdir R := by
  intro img t x b among word usable filled
  obtain ⟨mapped, user⟩ := Pte.usable_iff.mp usable
  have half : x / 4096 < 2 ^ 19 := by
    by_contra kernel
    rw [sound.dir.guarded _ (by omega)] at user
    cases user
  refine ⟨filled.proc, fun y low there => ?_, ?_, filled.free⟩
  · by_cases same : (u.proc.pgdir.flat (y / 4096)).ppn = (u.proc.pgdir.flat (x / 4096)).ppn
    · have page := PgDir.page_unique sound.frames_nodup (by omega) half there mapped same
      simp only [Phys.poke, Phys.write, same, update_self]
      by_cases here : y = x
      · rw [here, update_self, update_self]
      · have apart : slot y ≠ slot x := by
          intro eq
          have slots := congrArg Fin.val eq
          simp only [slot] at slots
          omega
        rw [update_of_ne apart, update_of_ne here, ← same]
        exact filled.bytes y low there
    · have here : y ≠ x := by
        rintro rfl
        exact same rfl
      simp only [Phys.poke, Phys.write, update_of_ne same, update_of_ne here]
      exact filled.bytes y low there
  · simp only [Phys.poke, Phys.write, update_of_ne (other x among).symm]
    exact filled.raw

/-- The copy from the frame `r` to the buffer. -/
theorem copyout_raw {pa buffer : Nat} (sound : u.Sound) (low : buffer + PGSIZE ≤ 2 ^ 31)
    (backs : u.proc.pgdir.Backs buffer PGSIZE) (other : ∀ x, buffer ≤ x → x < buffer + PGSIZE →
      (u.proc.pgdir.flat (x / 4096)).ppn ≠ pa / PGSIZE) :
    Sat (copyout u.proc.pgdir buffer (rawByte pa) PGSIZE) u (fun ok t => ok = true ∧
      Refilled u (pa / PGSIZE) (splice u.rawImage buffer ((List.range' 0 PGSIZE).map fun i =>
        u.phys.bytes (pa / PGSIZE) (slot i))) t) (fun _ _ => False) := by
  have delivers : Delivers (Refilled u (pa / PGSIZE)) (fun _ _ => False) (rawByte pa)
      (fun i => u.phys.bytes (pa / PGSIZE) (slot i)) PGSIZE := by
    intro i _ img t filled
    rw [rawByte, sat_bind, sat_get, sat_pure, filled.raw]
    exact ⟨rfl, filled⟩
  have follows : Follows (Refilled u (pa / PGSIZE)) u.proc.pgdir
      fun x => buffer ≤ x ∧ x < buffer + PGSIZE :=
    Refilled.follows sound fun x among => other x among.1 among.2
  have start : Refilled u (pa / PGSIZE) u.rawImage u := ⟨rfl, fun _ _ _ => rfl, rfl, rfl⟩
  refine (copyout_keeps sound.dir delivers follows (fun x low high => ⟨low, high⟩)
    (fun stray => absurd stray backs.not_strays) (by omega) start).imp (fun ok t done => ?_)
  have yes : ok = true := by
    rw [done.backs, List.length_map, List.length_range']
    exact backs
  obtain ⟨img, filled, same⟩ := done.kept
  rw [same yes] at filled
  exact ⟨yes, filled⟩

end Copy

/-- What a call that returns 0 leaves: the process of the touched state, with the raw bytes in
the buffer. -/
structure Dumped (s : St) (pa buffer : Nat) (t : St) : Prop where
  sound : t.Sound
  dir : Remarks s.proc.pgdir t.proc.pgdir
  paged : Paged s buffer t
  bytes : ∀ i < PGSIZE, t.phys.bytes (t.proc.pgdir.flat ((buffer + i) / 4096)).ppn (slot (buffer + i)) =
    t.phys.bytes (pa / PGSIZE) (slot i)

section Dump
variable {s t : St} {pa buffer : Nat}

theorem sysDump_dumped {E : Stop → St → Prop} (sound : s.Sound)
    (touches : Sat (do store false buffer (← load false buffer)) s (fun _ _ => True) E)
    (user : ∀ x, buffer ≤ x → x < buffer + PGSIZE → (s.proc.pgdir.flat (vpn x)).usable = true)
    (other : ∀ x, buffer ≤ x → x < buffer + PGSIZE →
      (s.proc.pgdir.flat (vpn x)).ppn ≠ pa / PGSIZE) :
    Sat (sysDumpRawphymem pa buffer) s (fun r t => (argptr s.proc buffer PGSIZE = true → r = 0) ∧
      (r = 0 → buffer + PGSIZE ≤ 2 ^ 31 ∧ Dumped s pa buffer t)) E := by
  have size : s.proc.sz ≤ 2 ^ 31 := sound.size
  rw [sysDumpRawphymem, sat_bind, sat_get]
  split
  · rename_i outside
    refine ⟨fun inside => ?_, nofun⟩
    rw [outside] at inside
    cases inside
  rename_i inside
  rw [Bool.not_eq_false, argptr, decide_eq_true_eq] at inside
  have low : buffer + PGSIZE ≤ 2 ^ 31 := by
    simp only [uint, PGSIZE] at inside ⊢
    omega
  have page : ∀ x, buffer ≤ x → x < buffer + PGSIZE → vpn x = x / 4096 := by
    intro x _ high
    simp only [vpn, PGSIZE] at low high ⊢
    omega
  have half : vpn buffer < 2 ^ 19 := by
    simp only [vpn, PGSIZE] at low ⊢
    omega
  have assoc : dumpRawphymem pa buffer = (do store false buffer (← load false buffer)) >>= fun _ =>
      (do
        if ← copyout (← get).proc.pgdir buffer (rawByte pa) PGSIZE then
          return (0 : Int)
        else return -1) := by
    rw [dumpRawphymem, bind_assoc]
  rw [assoc]
  refine .seq (touches.and (touch_spec sound half)) ?_ (fun _ _ stop => stop.1)
  rintro _ u ⟨_, touches, paged⟩
  have backs : u.proc.pgdir.Backs buffer PGSIZE := by
    intro x above below _
    rw [Pte.usable_iff, touches.dir.mapped, touches.dir.user, ← Pte.usable_iff, ← page x above below]
    exact user x above below
  have apart : ∀ x, buffer ≤ x → x < buffer + PGSIZE →
      (u.proc.pgdir.flat (x / 4096)).ppn ≠ pa / PGSIZE := by
    intro x above below
    rw [touches.dir.ppn, ← page x above below]
    exact other x above below
  rw [sat_bind, sat_get]
  refine .seq (copyout_raw (touches.sound sound) low backs apart) ?_ (fun _ _ stop => stop.elim)
  rintro ok t ⟨rfl, filled⟩
  obtain ⟨dir, size, nodup⟩ := touches.sound sound
  refine ⟨fun _ => rfl, fun _ => ⟨low, ⟨by rwa [filled.proc], by rwa [filled.proc], ?_⟩, ?_,
    fun v => ?_, fun i inside => ?_⟩⟩
  · rwa [filled.proc, filled.free]
  · rw [filled.proc]
    exact touches.dir
  · rw [filled.proc]
    exact paged v
  · have mapped : (u.proc.pgdir.flat ((buffer + i) / 4096)).mapped = true := by
      rw [touches.dir.mapped, ← page (buffer + i) (by omega) (by omega)]
      exact (Pte.usable_iff.mp (user _ (by omega) (by omega))).1
    have length : ((List.range' 0 PGSIZE).map fun i =>
        u.phys.bytes (pa / PGSIZE) (slot i)).length = PGSIZE := by
      rw [List.length_map, List.length_range']
    rw [filled.proc, filled.bytes _ (by omega) mapped, filled.raw,
      splice_inside _ _ (by omega) 0 (by omega), Nat.add_sub_cancel_left,
      List.getD_eq_getElem _ _ (by omega), List.getElem_map, List.getElem_range', Nat.one_mul,
      Nat.zero_add]

/-- What the process sees of the buffer: the raw byte where the page is present, and the byte
flipped where it is encrypted. -/
theorem Dumped.peek (dumped : Dumped s pa buffer t) (low : buffer + PGSIZE ≤ 2 ^ 31)
    {i : Nat} (inside : i < PGSIZE)
    (mapped : (s.proc.pgdir.flat ((buffer + i) / 4096)).mapped = true) :
    t.peek (buffer + i) = if (t.proc.pgdir.flat ((buffer + i) / 4096)).has PTE_P then
      t.phys.bytes (pa / PGSIZE) (slot i) else t.phys.bytes (pa / PGSIZE) (slot i) ^^^ 0xFF := by
  have page : vpn (buffer + i) = (buffer + i) / 4096 := by
    simp only [vpn, PGSIZE] at low inside ⊢
    omega
  have filled : t.proc.pgdir.flat ((buffer + i) / 4096) ≠ .zero := by
    rw [← dumped.dir.mapped] at mapped
    intro zero
    rw [zero, Pte.zero_mapped] at mapped
    cases mapped
  have exclusive := ((dumped.sound.dir.tidy _).resolve_left filled).1
  rw [St.peek, page, St.plain]
  cases present : (t.proc.pgdir.flat ((buffer + i) / 4096)).has PTE_P with
  | true =>
    rw [present] at exclusive
    rw [if_pos rfl, if_neg (by simpa using exclusive)]
    exact dumped.bytes i inside
  | false =>
    rw [present] at exclusive
    rw [if_neg Bool.false_ne_true, if_pos (by simpa using exclusive), Page.flip, dumped.bytes i inside]

/-- The second page of the buffer is present, and stays so when the first is touched. -/
def St.SecondStays (s : St) (buffer : Nat) : Prop :=
  (s.proc.pgdir.flat (vpn buffer + 1)).has PTE_P = true ∧
    ((s.proc.pgdir.flat (vpn buffer)).has PTE_P = true ∨ s.expels buffer ≠ some (vpn buffer + 1))

/-- Each page of the buffer is the first one or the second. -/
theorem Dumped.present_iff (dumped : Dumped s pa buffer t) (low : buffer + PGSIZE ≤ 2 ^ 31) :
    (∀ i < PGSIZE, (t.proc.pgdir.flat ((buffer + i) / 4096)).has PTE_P = true) ↔
      buffer % PGSIZE = 0 ∨ s.SecondStays buffer := by
  have page : vpn buffer = buffer / 4096 := by
    simp only [vpn, PGSIZE] at low ⊢
    omega
  have second := dumped.paged (vpn buffer + 1)
  rw [or_iff_right (Nat.succ_ne_self _)] at second
  constructor
  · intro present
    by_cases aligned : buffer % PGSIZE = 0
    · exact Or.inl aligned
    · right
      have last := present (PGSIZE - 1) (by decide)
      rw [show (buffer + (PGSIZE - 1)) / 4096 = vpn buffer + 1 by
        simp only [PGSIZE] at aligned ⊢; omega] at last
      exact second.mp last
  · intro safe i inside
    by_cases first : (buffer + i) / 4096 = vpn buffer
    · rw [first]
      exact (dumped.paged _).mpr (Or.inl rfl)
    · have next : (buffer + i) / 4096 = vpn buffer + 1 := by
        simp only [PGSIZE] at inside
        omega
      have stays := safe.resolve_left fun aligned => first (by
        simp only [PGSIZE] at aligned inside
        omega)
      rw [next]
      exact second.mpr stays

theorem ReadsRaw.peek (reads : ReadsRaw t pa buffer) (sound : t.Sound)
    (low : buffer + PGSIZE ≤ 2 ^ 31) {i : Nat} (inside : i < PGSIZE) :
    t.peek (buffer + i) = t.phys.bytes (pa / PGSIZE) (slot i) := by
  obtain ⟨u, run⟩ := reads
  have bytes := (readBytes_peek sound (.refl t) PGSIZE low).of_ok run
  have byte := congrArg (fun bs => bs.getD i 0) bytes
  rw [List.getD_eq_getElem _ _ (by rwa [List.length_map, List.length_range']),
    List.getD_eq_getElem _ _ (by rwa [List.length_map, List.length_range']), List.getElem_map,
    List.getElem_map, List.getElem_range', List.getElem_range', Nat.one_mul, Nat.zero_add] at byte
  exact byte.symm

theorem readsRaw_of_peek (sound : t.Sound) (low : buffer + PGSIZE ≤ 2 ^ 31)
    (present : ∀ x, buffer ≤ x → x < buffer + PGSIZE →
      (t.proc.pgdir.flat (vpn x)).has PTE_U = true ∧ (t.proc.pgdir.flat (vpn x)).has PTE_P = true)
    (bytes : ∀ i < PGSIZE, t.peek (buffer + i) = t.phys.bytes (pa / PGSIZE) (slot i)) :
    ReadsRaw t pa buffer := by
  obtain ⟨bs, u, run, is, _⟩ := (((readBytes_peek sound (.refl t) PGSIZE low).and
    (readBytes_returns PGSIZE present)).mono (fun _ _ done => done) (fun _ _ stop => stop.2)).returns
  refine ⟨u, ?_⟩
  rw [run, is]
  refine congrArg (fun bs => EStateM.Result.ok bs u) (List.ext_getElem ?_ fun i inside _ => ?_)
  · simp only [List.length_map, List.length_range']
  · simp only [List.getElem_map, List.getElem_range', Nat.one_mul, Nat.zero_add]
    exact bytes i (by simpa only [List.length_map, List.length_range'] using inside)

theorem flipped_ne (b : UInt8) : b ^^^ 0xFF ≠ b := by
  intro same
  have zero : b ^^^ (b ^^^ 0xFF) = b ^^^ b := congrArg (b ^^^ ·) same
  rw [← UInt8.xor_assoc, UInt8.xor_self, UInt8.zero_xor] at zero
  cases zero

/-- The process reads the frame back when no page of the buffer is left encrypted. -/
theorem Dumped.readsRaw_iff (dumped : Dumped s pa buffer t) (low : buffer + PGSIZE ≤ 2 ^ 31)
    (user : ∀ x, buffer ≤ x → x < buffer + PGSIZE → (s.proc.pgdir.flat (vpn x)).usable = true) :
    ReadsRaw t pa buffer ↔ buffer % PGSIZE = 0 ∨ s.SecondStays buffer := by
  have page : ∀ x, buffer ≤ x → x < buffer + PGSIZE → vpn x = x / 4096 := by
    intro x _ high
    simp only [vpn, PGSIZE] at low high ⊢
    omega
  have usable : ∀ i < PGSIZE, (s.proc.pgdir.flat ((buffer + i) / 4096)).usable = true := by
    intro i inside
    rw [← page (buffer + i) (by omega) (by omega)]
    exact user _ (by omega) (by omega)
  rw [← dumped.present_iff low]
  constructor
  · intro reads i inside
    by_contra absent
    have byte := reads.peek dumped.sound low inside
    rw [dumped.peek low inside (Pte.usable_iff.mp (usable i inside)).1, if_neg absent] at byte
    exact flipped_ne _ byte
  · intro present
    refine readsRaw_of_peek dumped.sound low (fun x above below => ?_) fun i inside => ?_
    · obtain ⟨i, rfl⟩ := Nat.exists_eq_add_of_le above
      rw [page _ above below, dumped.dir.user]
      exact ⟨(Pte.usable_iff.mp (usable i (by omega))).2, present i (by omega)⟩
    · rw [dumped.peek low inside (Pte.usable_iff.mp (usable i inside)).1, if_pos (present i inside)]

end Dump

theorem touches_any (s : St) (buffer : Nat) :
    Sat (do store false buffer (← load false buffer)) s (fun _ _ => True) (fun _ _ => True) :=
  (sat_self _ _).mono (fun _ _ _ => trivial) (fun _ _ _ => trivial)

/-- After a call that returns 0 the process reads the raw bytes of the frame exactly when the
buffer is one page, or when its second page is present and is not the one that the touch of the
first page expels. -/
theorem dump_rawphymem_reads_iff {s t : St} (sound : s.Sound) {pa buffer : Nat}
    (user : ∀ x, buffer ≤ x → x < buffer + PGSIZE → (s.proc.pgdir.flat (vpn x)).usable = true)
    (other : ∀ x, buffer ≤ x → x < buffer + PGSIZE →
      (s.proc.pgdir.flat (vpn x)).ppn ≠ pa / PGSIZE)
    (run : (sysDumpRawphymem pa buffer).run s = .ok 0 t) :
    ReadsRaw t pa buffer ↔ buffer % PGSIZE = 0 ∨ s.SecondStays buffer := by
  obtain ⟨low, dumped⟩ := ((sysDump_dumped sound (touches_any s buffer) user other).of_ok run).2 rfl
  exact dumped.readsRaw_iff low user

/-- A call whose first page is present returns. -/
theorem sysDump_returns {s : St} (sound : s.Sound) {pa buffer : Nat}
    (inside : argptr s.proc buffer PGSIZE = true)
    (user : ∀ x, buffer ≤ x → x < buffer + PGSIZE → (s.proc.pgdir.flat (vpn x)).usable = true)
    (other : ∀ x, buffer ≤ x → x < buffer + PGSIZE →
      (s.proc.pgdir.flat (vpn x)).ppn ≠ pa / PGSIZE)
    (here : (s.proc.pgdir.flat (vpn buffer)).has PTE_P = true) :
    ∃ t, (sysDumpRawphymem pa buffer).run s = .ok 0 t := by
  have size : s.proc.sz ≤ 2 ^ 31 := sound.size
  have below := inside
  rw [argptr, decide_eq_true_eq] at below
  have touches : Sat (do store false buffer (← load false buffer)) s (fun _ _ => True)
      (fun _ _ => False) := by
    have step : Sat (load false (uint buffer)) s _ _ := load_of_present (by omega) here
    rw [show uint buffer = buffer from Nat.mod_eq_of_lt (by omega)] at step
    rw [sat_bind]
    refine step.imp ?_
    rintro b t ⟨same, _⟩
    have resident : (t.proc.resident false buffer).isSome := by
      rw [resident_present, same]
      exact here
    rw [store]
    refine .seq (access_spec false t buffer) (fun _ _ _ => trivial) ?_
    rintro e u ⟨fault, _⟩
    rw [fault] at resident
    cases resident
  obtain ⟨r, t, run, done, _⟩ := (sysDump_dumped sound touches user other).returns
  obtain rfl := done inside
  exact ⟨t, run⟩

section Example

/-- The dump of a free frame into a buffer on the two pages of the process, of which the first is
present. -/
theorem two_pages_dumped {s : St} (sound : s.Sound) (size : s.proc.sz = 0x2000)
    (pages : ∀ v < 2, (s.proc.pgdir.flat v).usable = true ∧
      (s.proc.pgdir.flat v).ppn ≠ 0x7D0000 / PGSIZE)
    (here : (s.proc.pgdir.flat (vpn 0x800)).has PTE_P = true) :
    (∀ x, 0x800 ≤ x → x < 0x800 + PGSIZE → (s.proc.pgdir.flat (vpn x)).usable = true) ∧
      (∀ x, 0x800 ≤ x → x < 0x800 + PGSIZE →
        (s.proc.pgdir.flat (vpn x)).ppn ≠ 0x7D0000 / PGSIZE) ∧
      ∃ t, (sysDumpRawphymem 0x7D0000 0x800).run s = .ok 0 t := by
  have page : ∀ x, 0x800 ≤ x → x < 0x800 + PGSIZE → vpn x < 2 := by
    intro x above below
    simp only [vpn, PGSIZE] at below ⊢
    omega
  have user := fun x above below => (pages (vpn x) (page x above below)).1
  have other := fun x above below => (pages (vpn x) (page x above below)).2
  refine ⟨user, other, sysDump_returns sound ?_ user other here⟩
  rw [argptr, size]
  decide

/-- A free frame is dumped into a buffer on two pages that are both present. -/
theorem dump_read_back :
    ∃ t, (sysDumpRawphymem 0x7D0000 0x800).run launchSt = .ok 0 t ∧ ReadsRaw t 0x7D0000 0x800 := by
  obtain ⟨user, other, t, run⟩ := two_pages_dumped launchSt_sound rfl (by decide +kernel)
    (by decide +kernel)
  refine ⟨t, run, (dump_rawphymem_reads_iff launchSt_sound user other run).mpr (Or.inr ?_)⟩
  exact ⟨by decide +kernel, Or.inl (by decide +kernel)⟩

theorem sysMencrypt_done (s : St) (va : Nat) (len : Int) :
    Sat (sysMencrypt va len) s (fun r t => r = 0 → t = s.mencrypted va len) (fun _ _ => True) := by
  rw [sysMencrypt]
  split
  · rintro ⟨⟩
  rw [sat_bind, sat_get]
  split
  · rintro ⟨⟩
  split
  · rintro ⟨⟩
  · exact (mencrypt_spec va len s).mono (fun _ _ done _ => done.2) (fun _ _ _ => trivial)

/-- The process encrypts its second page and dumps a frame into a buffer that ends there: it does
not read the frame's bytes. -/
theorem dump_lost_on_second_page :
    ∃ s t, (sysMencrypt 0x1000 1).run launchSt = .ok 0 s ∧
      (sysDumpRawphymem 0x7D0000 0x800).run s = .ok 0 t ∧ ¬ ReadsRaw t 0x7D0000 0x800 := by
  have done : value (sysMencrypt 0x1000 1) launchSt = some 0 := by decide +kernel
  have pages : ∀ v < 2, ((launchSt.mencrypted 0x1000 1).proc.pgdir.flat v).usable = true ∧
      ((launchSt.mencrypted 0x1000 1).proc.pgdir.flat v).ppn ≠ 0x7D0000 / PGSIZE := by
    decide +kernel
  have here : ((launchSt.mencrypted 0x1000 1).proc.pgdir.flat (vpn 0x800)).has PTE_P = true := by
    decide +kernel
  have gone : ((launchSt.mencrypted 0x1000 1).proc.pgdir.flat (vpn 0x800 + 1)).has PTE_P ≠ true := by
    decide +kernel
  have size : (launchSt.mencrypted 0x1000 1).proc.sz = 0x2000 := mencrypted_sz launchSt _ _
  have sound := (Recrypt.mencrypted launchSt_sound 0x1000 1).sound launchSt_sound
  obtain ⟨s, ran⟩ : ∃ s, (sysMencrypt 0x1000 1).run launchSt = .ok 0 s := ⟨_, run_of_value done⟩
  rw [← (sysMencrypt_done launchSt 0x1000 1).of_ok ran rfl] at pages here gone size sound
  obtain ⟨user, other, t, run⟩ := two_pages_dumped sound size pages here
  obtain ⟨low, dumped⟩ := ((sysDump_dumped sound (touches_any _ _) user other).of_ok run).2 rfl
  refine ⟨s, t, ran, run, fun reads => ?_⟩
  rcases (dumped.readsRaw_iff low user).mp reads with aligned | stays
  · cases aligned
  · exact gone stays.1

end Example

end Xv6
