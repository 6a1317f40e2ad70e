import Xv6.ExecProofs
import Xv6.GetPgTable

/-! The writes of `getpgtable`. What a member of an entry holds after them is the same
whether or not the buffer had to be paged in. Where the buffer is present, the writes only
mark its pages as referenced. -/
namespace Xv6
open PteBit Control Fields
open Function (update update_of_ne update_self)

section Bytes
variable {s t u : St} {a x : Nat}

/-- The byte at `a` is on a mapped page. -/
abbrev St.backs (s : St) (a : Nat) : Prop := (s.proc.pgdir.flat (vpn a)).mapped = true

theorem uint_of_half (low : a < 2 ^ 31) : uint a = a := Nat.mod_eq_of_lt (by omega)

theorem Recrypt.peek (recrypt : Recrypt s t) (low : a < 2 ^ 31) (backed : s.backs a) :
    t.peek a = s.peek a := by
  rw [St.peek, recrypt.plain _ (vpn_half low) backed, St.peek]

theorem Stores.peek {b : UInt8} (stores : Stores s t a b) (low : a < 2 ^ 31) (below : x < 2 ^ 31)
    (backed : s.backs x) : t.peek x = if x = a then b else s.peek x := by
  rw [St.peek, stores.plain _ (vpn_half below) backed]
  by_cases here : x = a
  · rw [if_pos here, here, if_pos rfl, update_self]
  · rw [if_neg here]
    by_cases page : vpn x = vpn a
    · have apart : slot x ≠ slot a := by
        intro same
        have same := congrArg Fin.val same
        simp only [slot, vpn, PGSIZE] at same page
        omega
      rw [if_pos page, update_of_ne apart, St.peek]
    · rw [if_neg page, St.peek]

/-- A load in the middle of others. -/
theorem load_peek (sound : s.Sound) (before : Recrypt s t) (low : x < 2 ^ 31) :
    Sat (load false (uint x)) t (fun b u => Recrypt s u ∧ b = s.peek x ∧ s.backs x)
      (fun _ _ => True) := by
  rw [uint_of_half low]
  refine (load_spec (before.sound sound) false x).mono ?_ (fun _ _ _ => trivial)
  rintro b u ⟨after, mapped, _, value⟩
  have backed : s.backs x := by rwa [before.dir.mapped] at mapped
  refine ⟨before.trans after, ?_, backed⟩
  rw [value (vpn_half low), before.plain _ (vpn_half low) backed, St.peek]

theorem loadWord_spec (sound : s.Sound) (low : a + 4 ≤ 2 ^ 31) :
    Sat (loadWord a) s (fun w t => Recrypt s t ∧ w = s.word a ∧ ∀ k < 4, s.backs (a + k))
      (fun _ _ => True) := by
  rw [loadWord]
  refine .seq (load_peek sound (.refl s) (by omega)) ?_ (fun _ _ _ => trivial)
  rintro _ t ⟨r₀, rfl, first⟩
  refine .seq (load_peek sound r₀ (by omega)) ?_ (fun _ _ _ => trivial)
  rintro _ t ⟨r₁, rfl, second⟩
  refine .seq (load_peek sound r₁ (by omega)) ?_ (fun _ _ _ => trivial)
  rintro _ t ⟨r₂, rfl, third⟩
  refine .seq (load_peek sound r₂ (by omega)) ?_ (fun _ _ _ => trivial)
  rintro _ t ⟨r₃, rfl, fourth⟩
  refine ⟨r₃, rfl, fun k below => ?_⟩
  obtain rfl | rfl | rfl | rfl : k = 0 ∨ k = 1 ∨ k = 2 ∨ k = 3 := by omega
  · exact first
  · exact second
  · exact third
  · exact fourth

/-- The first `k` bytes of the word `v` have been stored at `a`. -/
structure Poked (s t : St) (a v k : Nat) : Prop where
  touches : Touches s t
  bytes : ∀ x < 2 ^ 31, s.backs x → t.peek x =
    if a ≤ x ∧ x < a + k then (v / 2 ^ (8 * (x - a))).toUInt8 else s.peek x

theorem Poked.store {v k : Nat} (sound : s.Sound) (before : Poked s t a v k)
    (low : a + k < 2 ^ 31) :
    Sat (store false (uint (a + k)) (v / 2 ^ (8 * k)).toUInt8) t
      (fun _ u => Poked s u a v (k + 1)) (fun _ _ => True) := by
  rw [uint_of_half low]
  refine (store_spec (before.touches.sound sound) false _ _ (Or.inr (vpn_half low))).mono
    (fun _ u stores => ?_) (fun _ _ _ => trivial)
  refine ⟨before.touches.trans stores.toTouches, fun x below backed => ?_⟩
  have backed' : t.backs x := by rwa [St.backs, before.touches.dir.mapped]
  rw [stores.peek low below backed', before.bytes x below backed]
  by_cases here : x = a + k
  · rw [if_pos here, if_pos (by omega), here, Nat.add_sub_cancel_left]
  · rw [if_neg here]
    by_cases inside : a ≤ x ∧ x < a + k
    · rw [if_pos inside, if_pos (by omega)]
    · rw [if_neg inside, if_neg (by omega)]

theorem storeInt_poked (sound : s.Sound) {v : Nat} (low : a + 4 ≤ 2 ^ 31) :
    Sat (storeInt a v) s (fun _ t => Poked s t a v 4) (fun _ _ => True) := by
  have start : Poked s s a v 0 :=
    ⟨(Recrypt.refl s).toTouches, fun x _ _ => by rw [if_neg (by omega)]⟩
  have first := start.store sound (k := 0) (by omega)
  rw [Nat.mul_zero, Nat.pow_zero, Nat.div_one] at first
  rw [storeInt, sat_bind]
  refine first.mono (fun _ t one => ?_) (fun _ _ _ => trivial)
  refine .seq (one.store sound (by omega)) (fun _ t two => ?_) (fun _ _ _ => trivial)
  refine .seq (two.store sound (by omega)) (fun _ t three => ?_) (fun _ _ _ => trivial)
  exact three.store sound (by omega)

theorem word_of_bytes {v : Nat} (small : v < 2 ^ 32)
    (bytes : ∀ k < 4, t.peek (a + k) = (v / 2 ^ (8 * k)).toUInt8) : t.word a = v := by
  have zero := bytes 0 (by omega)
  have one := bytes 1 (by omega)
  have two := bytes 2 (by omega)
  have three := bytes 3 (by omega)
  rw [Nat.add_zero] at zero
  simp only [St.word, le, zero, one, two, three, List.getD_cons_zero, List.getD_cons_succ,
    Nat.toUInt8, UInt8.toNat_ofNat']
  omega

end Bytes

/-- The entry at `entry` has been written to: the members in `vals` hold their new values,
the others what they held, and nothing else has changed for the process. -/
structure Written (s t : St) (entry : Nat) (vals : PtEntry → Option Nat) : Prop where
  touches : Touches s t
  outside : ∀ a < 2 ^ 31, a < entry ∨ entry + 8 ≤ a → s.backs a → t.peek a = s.peek a
  member : ∀ m : PtEntry, (∀ k < 4, s.backs (entry + 4 * m.word + k)) → t.member entry m =
    (vals m).elim (s.member entry m) fun x => x % 2 ^ m.field.width

theorem PtEntry.word_le (m : PtEntry) : m.word ≤ 1 := by
  cases m <;> decide

section Members
variable {s t : St} {entry : Nat} {vals : PtEntry → Option Nat}

theorem Written.refl (s : St) (entry : Nat) : Written s s entry fun _ => none :=
  ⟨(Recrypt.refl s).toTouches, fun _ _ _ _ => rfl, fun _ _ => rfl⟩

theorem Written.setMember (sound : s.Sound) (before : Written s t entry vals)
    (low : entry + 8 ≤ 2 ^ 31) (m : PtEntry) (x : Nat) :
    Sat (setMember entry m x) t (fun _ u => Written s u entry (update vals m (some x)) ∧
      ∀ k < 4, s.backs (entry + 4 * m.word + k)) (fun _ _ => True) := by
  have wide := m.word_le
  have sound' := before.touches.sound sound
  have same : ∀ a, t.backs a ↔ s.backs a := fun a => by
    rw [St.backs, before.touches.dir.mapped]
  rw [Xv6.setMember]
  refine .seq (loadWord_spec sound' (by omega)) ?_ (fun _ _ _ => trivial)
  rintro w u ⟨loaded, rfl, backed⟩
  refine (storeInt_poked (loaded.sound sound') (by omega)).mono (fun _ v poked => ?_)
    (fun _ _ _ => trivial)
  have peek : ∀ b < 2 ^ 31, s.backs b → ¬ (entry + 4 * m.word ≤ b ∧ b < entry + 4 * m.word + 4) →
      v.peek b = t.peek b := by
    intro b below backed outside
    have backed := (same b).mpr backed
    rw [poked.bytes b below (by rwa [St.backs, loaded.dir.mapped]), if_neg outside,
      loaded.peek below backed]
  refine ⟨⟨before.touches.trans (loaded.toTouches.trans poked.touches), fun b below apart back => ?_,
    fun n held => ?_⟩, fun k below => (same _).mp (backed k below)⟩
  · rw [peek b below back (by omega)]
    exact before.outside b below apart back
  · by_cases other : n.word = m.word
    · have stored : v.word (entry + 4 * m.word) =
          m.field.put (t.word (entry + 4 * m.word)) x := by
        refine word_of_bytes (Field.put_lt m.inside (le_lt _ _ _)) fun k small => ?_
        have backed := backed k small
        rw [poked.bytes _ (by omega) (by rwa [St.backs, loaded.dir.mapped]), if_pos (by omega),
          Nat.add_sub_cancel_left]
      have old := before.member n held
      rw [St.member, other] at old ⊢
      rw [stored]
      by_cases here : n = m
      · rw [here, Field.get_put, update_self]
        rfl
      · rw [Field.get_put_of_apart (PtEntry.apart here other), update_of_ne here, old]
    · have kept : v.word (entry + 4 * n.word) = t.word (entry + 4 * n.word) := by
        have wide' := n.word_le
        have byte : ∀ k < 4, v.peek (entry + 4 * n.word + k) = t.peek (entry + 4 * n.word + k) :=
          fun k small => peek _ (by omega) (held k small) (by omega)
        have zero := byte 0 (by omega)
        rw [Nat.add_zero] at zero
        rw [St.word, St.word, zero, byte 1 (by omega), byte 2 (by omega), byte 3 (by omega)]
      rw [St.member, kept, update_of_ne (fun is => other (congrArg _ is))]
      exact before.member n held

theorem Written.setFromPte (sound : s.Sound) (before : Written s t entry vals)
    (low : entry + 8 ≤ 2 ^ 31) (uva : Nat) (m : PtEntry) (x : Pte → Nat) :
    Sat (setFromPte entry uva m x) t (fun _ u =>
      (∃ y, Written s u entry (update vals m (some y))) ∧
      ∀ k < 4, s.backs (entry + 4 * m.word + k)) (fun _ _ => True) := by
  rw [Xv6.setFromPte, sat_bind, sat_get, sat_bind, sat_derefPte]
  cases walkpgdir t.proc.pgdir uva with
  | none => trivial
  | some pte =>
    exact (before.setMember sound low m _).mono (fun _ u after => ⟨⟨_, after.1⟩, after.2⟩)
      (fun _ _ _ => trivial)

/-- An entry that has been written names its page, and holds the member `user` it held. -/
theorem writeEntry_written (sound : s.Sound) (low : entry + 8 ≤ 2 ^ 31) (uva : Nat) :
    Sat (writeEntry entry uva) s (fun _ t => ∃ vals, Written s t entry vals ∧
      vals .pdx = some (pdx uva) ∧ vals .ptx = some (ptx uva) ∧ vals .user = none ∧
      ∀ k < 8, s.backs (entry + k)) (fun _ _ => True) := by
  rw [writeEntry]
  refine .seq ((Written.refl s entry).setMember sound low _ _) ?_ (fun _ _ _ => trivial)
  rintro _ _ ⟨first, head⟩
  refine .seq (first.setMember sound low _ _) ?_ (fun _ _ _ => trivial)
  rintro _ _ ⟨second, _⟩
  refine .seq (second.setFromPte sound low uva _ _) ?_ (fun _ _ _ => trivial)
  rintro _ _ ⟨⟨_, third⟩, tail⟩
  refine .seq (third.setFromPte sound low uva _ _) ?_ (fun _ _ _ => trivial)
  rintro _ _ ⟨⟨_, fourth⟩, _⟩
  refine .seq (fourth.setFromPte sound low uva _ _) ?_ (fun _ _ _ => trivial)
  rintro _ _ ⟨⟨_, fifth⟩, _⟩
  refine .seq (fifth.setFromPte sound low uva _ _) ?_ (fun _ _ _ => trivial)
  rintro _ _ ⟨⟨_, sixth⟩, _⟩
  refine (sixth.setFromPte sound low uva _ _).mono ?_ (fun _ _ _ => trivial)
  rintro _ _ ⟨⟨_, seventh⟩, _⟩
  refine ⟨_, seventh, rfl, rfl, rfl, fun k below => ?_⟩
  by_cases low : k < 4
  · exact head k low
  · have place := tail (k - 4) (by omega)
    rwa [show entry + 4 * PtEntry.ppage.word + (k - 4) = entry + k by
      simp only [PtEntry.word]; omega] at place

end Members

/-- The kernel has used the translations of the pages in `A`, and nothing else has changed
in the page table and the clock. -/
structure Marks (s t : St) (A : Nat → Prop) : Prop where
  marked : ∀ v, A v → t.proc.pgdir.flat v = (s.proc.pgdir.flat v).set PTE_A
  kept : ∀ v, ¬ A v → t.proc.pgdir.flat v = s.proc.pgdir.flat v
  tabs : ∀ a, (walkpgdir t.proc.pgdir a).isSome = (walkpgdir s.proc.pgdir a).isSome
  clock : t.proc.clock = s.proc.clock
  head : t.proc.head = s.proc.head
  sz : t.proc.sz = s.proc.sz

namespace Marks
variable {s t u : St} {A B : Nat → Prop}

theorem refl (s : St) : Marks s s fun _ => False :=
  ⟨fun _ no => no.elim, fun _ _ => rfl, fun _ => rfl, rfl, rfl, rfl⟩

theorem trans (first : Marks s t A) (second : Marks t u B) : Marks s u fun v => A v ∨ B v := by
  refine ⟨fun v either => ?_, fun v neither => ?_, fun a => (second.tabs a).trans (first.tabs a),
    second.clock.trans first.clock, second.head.trans first.head, second.sz.trans first.sz⟩
  · by_cases later : B v
    · rw [second.marked v later]
      by_cases earlier : A v
      · rw [first.marked v earlier, Pte.set_of_has (by simp)]
      · rw [first.kept v earlier]
    · rw [second.kept v later]
      exact first.marked v (either.resolve_right later)
  · rw [second.kept v fun later => neither (Or.inr later),
      first.kept v fun earlier => neither (Or.inl earlier)]

theorem congr (marks : Marks s t A) (same : ∀ v, A v ↔ B v) : Marks s t B := by
  obtain rfl : A = B := funext fun v => propext (same v)
  exact marks

theorem has (marks : Marks s t A) (v : Nat) {f : PteBit} (other : f ≠ PTE_A) :
    (t.proc.pgdir.flat v).has f = (s.proc.pgdir.flat v).has f := by
  by_cases inside : A v
  · rw [marks.marked v inside]
    simp [Ne.symm other]
  · rw [marks.kept v inside]

theorem ppn (marks : Marks s t A) (v : Nat) :
    (t.proc.pgdir.flat v).ppn = (s.proc.pgdir.flat v).ppn := by
  by_cases inside : A v
  · rw [marks.marked v inside, Pte.set_ppn]
  · rw [marks.kept v inside]

end Marks

section Present
variable {s t : St} {a : Nat}

/-- The byte at `a` is on a page that is present. -/
abbrev St.holds (s : St) (a : Nat) : Prop := (s.proc.pgdir.flat (vpn a)).has PTE_P = true

theorem Marks.touched (present : s.holds a) : Marks s (s.touched a) (· = vpn a) := by
  have walk := PgDir.walk_of_mapped (Pte.mapped_of_present present)
  have flat : (s.touched a).proc.pgdir.flat = update s.proc.pgdir.flat (vpn a)
      ((s.proc.pgdir.flat (vpn a)).set PTE_A) := PgDir.setPte_flat walk _
  refine ⟨fun v here => ?_, fun v away => ?_, fun b => PgDir.walk_setPte_isSome _ _ _ _, rfl, rfl,
    rfl⟩
  · rw [flat, here, update_self]
  · rw [flat, update_of_ne away]

theorem access_marks (present : s.holds a) :
    Sat (access false a) s (fun _ t => Marks s t (· = vpn a)) (fun _ _ => False) := by
  have resident := Option.isSome_iff_ne_none.mp (resident_present.mpr present)
  refine (access_spec false s a).mono ?_ (fun e u stop => resident stop.1)
  rintro f u (⟨_, rfl, _⟩ | ⟨fault, _⟩)
  · exact .touched present
  · exact absurd fault resident

theorem load_marks (present : s.holds a) :
    Sat (load false a) s (fun _ t => Marks s t (· = vpn a)) (fun _ _ => False) := by
  rw [load, sat_bind]
  exact access_marks present

theorem store_marks (present : s.holds a) (b : UInt8) :
    Sat (store false a b) s (fun _ t => Marks s t (· = vpn a)) (fun _ _ => False) := by
  rw [store]
  exact .bind (access_marks present) fun _ t marks => ⟨marks.marked, marks.kept, marks.tabs,
    marks.clock, marks.head, marks.sz⟩

/-- The pages of the `n` bytes at `a`. -/
def pagesOf (a n v : Nat) : Prop := ∃ k < n, v = vpn (a + k)

instance decidablePagesOf (a n v : Nat) : Decidable (pagesOf a n v) :=
  inferInstanceAs (Decidable (∃ k < n, v = vpn (a + k)))

/-- The next of several bytes is accessed. -/
theorem Marks.next {n : Nat} (before : Marks s t (pagesOf a n)) {u : St}
    (marks : Marks t u (· = vpn (a + n))) : Marks s u (pagesOf a (n + 1)) := by
  refine (before.trans marks).congr fun v => ⟨?_, ?_⟩
  · rintro (⟨k, below, page⟩ | here)
    · exact ⟨k, by omega, page⟩
    · exact ⟨n, by omega, here⟩
  · rintro ⟨k, below, page⟩
    by_cases last : k = n
    · exact Or.inr (last ▸ page)
    · exact Or.inl ⟨k, by omega, page⟩

theorem Marks.start (s : St) (a : Nat) : Marks s s (pagesOf a 0) := by
  refine (Marks.refl s).congr fun v => ⟨fun no => no.elim, ?_⟩
  rintro ⟨k, below, _⟩
  omega

theorem loadWord_present (low : a + 4 ≤ 2 ^ 31) (present : ∀ k < 4, s.holds (a + k)) :
    Sat (loadWord a) s (fun _ t => Marks s t (pagesOf a 4)) (fun _ _ => False) := by
  have step : ∀ {k : Nat} {t : St}, k < 4 → Marks s t (pagesOf a k) →
      Sat (load false (uint (a + k))) t (fun _ u => Marks s u (pagesOf a (k + 1)))
        (fun _ _ => False) := by
    intro k t below before
    rw [uint_of_half (by omega)]
    refine (load_marks ?_).imp (fun _ u marks => before.next marks)
    rw [St.holds, before.has _ (by decide)]
    exact present k below
  rw [loadWord, sat_bind]
  refine (step (by omega) (.start s a)).imp (fun _ t one => ?_)
  rw [sat_bind]
  refine (step (by omega) one).imp (fun _ t two => ?_)
  rw [sat_bind]
  refine (step (by omega) two).imp (fun _ t three => ?_)
  rw [sat_bind]
  exact (step (by omega) three).imp (fun _ t four => four)

theorem storeInt_present (low : a + 4 ≤ 2 ^ 31) (present : ∀ k < 4, s.holds (a + k)) (v : Nat) :
    Sat (storeInt a v) s (fun _ t => Marks s t (pagesOf a 4)) (fun _ _ => False) := by
  have step : ∀ {k : Nat} {t : St} (b : UInt8), k < 4 → Marks s t (pagesOf a k) →
      Sat (store false (uint (a + k)) b) t (fun _ u => Marks s u (pagesOf a (k + 1)))
        (fun _ _ => False) := by
    intro k t b below before
    rw [uint_of_half (by omega)]
    refine (store_marks ?_ b).imp (fun _ u marks => before.next marks)
    rw [St.holds, before.has _ (by decide)]
    exact present k below
  rw [storeInt, sat_bind]
  refine (step _ (by omega) (.start s a)).imp (fun _ t one => ?_)
  rw [sat_bind]
  refine (step _ (by omega) one).imp (fun _ t two => ?_)
  rw [sat_bind]
  refine (step _ (by omega) two).imp (fun _ t three => ?_)
  exact step _ (by omega) three

theorem setMember_present {entry : Nat} (low : entry + 8 ≤ 2 ^ 31) (m : PtEntry) (x : Nat)
    (present : ∀ k < 8, s.holds (entry + k)) :
    Sat (setMember entry m x) s (fun _ t => Marks s t (pagesOf (entry + 4 * m.word) 4))
      (fun _ _ => False) := by
  have wide := m.word_le
  have held : ∀ k < 4, s.holds (entry + 4 * m.word + k) := by
    intro k below
    rw [Nat.add_assoc]
    exact present _ (by omega)
  rw [setMember, sat_bind]
  refine (loadWord_present (by omega) held).imp (fun w t marks => ?_)
  refine (storeInt_present (by omega) (fun k below => ?_) _).imp (fun _ u marks' => ?_)
  · rw [St.holds, marks.has _ (by decide)]
    exact held k below
  · exact (marks.trans marks').congr fun v => or_self_iff

end Present

/-- What `getpgtable` writes about a page: the member `user` is left as it is. -/
def entryValues (uva : Nat) (pte : Pte) : PtEntry → Option Nat
  | .pdx => some (pdx uva)
  | .ptx => some (ptx uva)
  | .ppage => some pte.ppn
  | .present => some (pte.has PTE_P).toNat
  | .writable => some (pte.has PTE_W).toNat
  | .user => none
  | .encrypted => some (pte.has PTE_E).toNat
  | .ref => some (pte.has PTE_A).toNat

/-- The entry of page `v` once the kernel has used the `n` bytes at `a`. -/
def St.pteAfter (s : St) (a n v : Nat) : Pte :=
  if pagesOf a n v then (s.proc.pgdir.flat v).set PTE_A else s.proc.pgdir.flat v

section Entry
variable {s t : St} {entry uva : Nat} {vals : PtEntry → Option Nat} {A : Nat → Prop}

theorem setMember_filled (sound : s.Sound) (low : entry + 8 ≤ 2 ^ 31)
    (present : ∀ k < 8, s.holds (entry + k)) (written : Written s t entry vals)
    (marks : Marks s t A) (m : PtEntry) (x : Nat) :
    Sat (setMember entry m x) t (fun _ u => Written s u entry (update vals m (some x)) ∧
      Marks s u fun v => A v ∨ pagesOf (entry + 4 * m.word) 4 v) (fun _ _ => False) := by
  have held : ∀ k < 8, t.holds (entry + k) := by
    intro k below
    rw [St.holds, marks.has _ (by decide)]
    exact present k below
  exact ((written.setMember sound low m x).and (setMember_present low m x held)).mono
    (fun _ u done => ⟨done.1.1, marks.trans done.2⟩) (fun _ _ stop => stop.2)

theorem setFromPte_filled (sound : s.Sound) (low : entry + 8 ≤ 2 ^ 31)
    (present : ∀ k < 8, s.holds (entry + k)) (table : (walkpgdir s.proc.pgdir uva).isSome)
    (written : Written s t entry vals) (marks : Marks s t A) (m : PtEntry) (x : Pte → Nat) :
    Sat (setFromPte entry uva m x) t (fun _ u =>
      Written s u entry (update vals m (some (x (t.proc.pgdir.flat (vpn uva))))) ∧
      Marks s u fun v => A v ∨ pagesOf (entry + 4 * m.word) 4 v) (fun _ _ => False) := by
  rw [← marks.tabs] at table
  obtain ⟨pte, walk⟩ := Option.isSome_iff_exists.mp table
  rw [setFromPte, sat_bind, sat_get, sat_bind, sat_derefPte, walk, PgDir.flat_of_walk walk]
  exact setMember_filled sound low present written marks m (x pte)

/-- The entry of a page, written to a buffer that is present. The page may be one of the
buffer, and is then marked by the time its mark is read. -/
theorem writeEntry_present (entry uva : Nat) (sound : s.Sound) (low : entry + 8 ≤ 2 ^ 31)
    (present : ∀ k < 8, s.holds (entry + k)) (table : (walkpgdir s.proc.pgdir uva).isSome) :
    Sat (writeEntry entry uva) s (fun _ t =>
      Written s t entry (entryValues uva (s.pteAfter entry 8 (vpn uva))) ∧
      Marks s t (pagesOf entry 8)) (fun _ _ => False) := by
  rw [writeEntry]
  refine .bind (setMember_filled sound low present (.refl s entry) (.refl s) _ _) ?_
  rintro _ _ ⟨first, a⟩
  refine .bind (setMember_filled sound low present first a _ _) ?_
  rintro _ t₂ ⟨second, b⟩
  refine .bind (setFromPte_filled sound low present table second b _ _) ?_
  rintro _ t₃ ⟨third, c⟩
  refine .bind (setFromPte_filled sound low present table third c _ _) ?_
  rintro _ t₄ ⟨fourth, d⟩
  refine .bind (setFromPte_filled sound low present table fourth d _ _) ?_
  rintro _ t₅ ⟨fifth, e⟩
  refine .bind (setFromPte_filled sound low present table fifth e _ _) ?_
  rintro _ t₆ ⟨sixth, f⟩
  refine (setFromPte_filled sound low present table sixth f _ _).imp ?_
  rintro _ t₇ ⟨seventh, g⟩
  have pages : ∀ v, pagesOf entry 8 v ↔ pagesOf entry 4 v ∨ pagesOf (entry + 4) 4 v := by
    intro v
    constructor
    · rintro ⟨k, below, page⟩
      by_cases low : k < 4
      · exact Or.inl ⟨k, low, page⟩
      · exact Or.inr ⟨k - 4, by omega, by rw [page]; congr 1; omega⟩
    · rintro (⟨k, below, page⟩ | ⟨k, below, page⟩)
      · exact ⟨k, by omega, page⟩
      · exact ⟨4 + k, by omega, by rw [page, Nat.add_assoc]⟩
  have f : Marks s t₆ (pagesOf entry 8) := f.congr fun v => by
    rw [pages]
    simp only [PtEntry.word, Nat.mul_zero, Nat.add_zero, Nat.mul_one]
    tauto
  have g : Marks s t₇ (pagesOf entry 8) := g.congr fun v => by
    rw [pages]
    simp only [PtEntry.word, Nat.mul_zero, Nat.add_zero, Nat.mul_one]
    tauto
  refine ⟨?_, g⟩
  have after : ∀ v, t₆.proc.pgdir.flat v = s.pteAfter entry 8 v := by
    intro v
    rw [St.pteAfter]
    split
    · rename_i inside
      exact f.marked v inside
    · rename_i outside
      exact f.kept v outside
  convert seventh using 1
  funext m
  have same := after (vpn uva)
  have has : ∀ {A : Nat → Prop} {t : St} (marks : Marks s t A) {f : PteBit}, f ≠ PTE_A →
      (s.pteAfter entry 8 (vpn uva)).has f = (t.proc.pgdir.flat (vpn uva)).has f := by
    intro A t marks bit other
    rw [← same, f.has _ other, marks.has _ other]
  cases m with
  | pdx => rfl
  | ptx => rfl
  | ppage => exact congrArg some (by rw [← same, f.ppn, b.ppn])
  | present => exact congrArg (fun b => some (Bool.toNat b)) (has c (by decide))
  | writable => exact congrArg (fun b => some (Bool.toNat b)) (has d (by decide))
  | user => rfl
  | encrypted => exact congrArg (fun b => some (Bool.toNat b)) (has e (by decide))
  | ref => exact congrArg (fun pte => some (Pte.has pte PTE_A).toNat) same.symm

end Entry

end Xv6
