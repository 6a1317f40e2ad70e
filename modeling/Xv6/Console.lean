import Xv6.CryptProofs
import Xv6.Transparency

/-! The console lock: `cprintf`, `consoleread` and `consolewrite` of `console.c`,
with the page faults they take on user buffers and the messages of the fault
handler. The locks of the inode and the ring behind the input are left out: the
input is the list of characters between `input.r` and `input.w`. -/
namespace Xv6
open Control PteBit

/-- What happens while `consoleread` sleeps: characters arrive, or it is killed. -/
structure Wake where
  input : List UInt8
  killed : Bool

/-- The console as one processor sees it. `held` says whether this processor holds
`cons.lock`; `copied` lists the characters copied from or to a user buffer, each with
whether the lock was held then. -/
structure Console where
  st : St
  held : Bool
  locking : Bool
  input : List UInt8
  killed : Bool
  copied : List (UInt8 × Bool)

abbrev C := EStateM Stop Console

def onSt {α : Type} (m : K α) : C α := zoom Console.st (fun s st => { s with st := st }) m

def acquire : C Unit := do
  if (← get).held then
    throw (.panic "acquire")
  else modify fun s => { s with held := true }

def release : C Unit := do
  if (← get).held then
    modify fun s => { s with held := false }
  else throw (.panic "release")

/-- What `cprintf` does to the lock. -/
def cprintf : C Unit := do
  let s ← get
  if s.locking = true ∧ s.held = false then
    acquire
  if s.locking then
    release

/-- The messages of `trap` and of `mdecrypt` before it touches memory. Those that
follow find the lock as these two leave it. -/
def faultMessages (va : Nat) : C Unit := do
  if ((← get).st.proc.resident false va).isNone then
    cprintf
    cprintf

/-- A character of a user buffer is copied. -/
def copy (c : UInt8) : C Unit := modify fun s => { s with copied := s.copied ++ [(c, s.held)] }

/-- `consputc(*buf)`. -/
def loadChar (buf : Nat) : C Unit := do
  faultMessages buf
  let c ← onSt (load false buf)
  copy c

/-- `*dst = c`. -/
def storeChar (dst : Nat) (c : UInt8) : C Unit := do
  faultMessages dst
  onSt (store false dst c)
  copy c

def consolewriteLoop : Nat → Nat → C Unit
  | 0, _ => return ()
  | n + 1, buf => do
    loadChar buf
    consolewriteLoop n (uint (buf + 1))

def consolewrite (buf : Nat) (n : Int) : C Int := do
  acquire
  consolewriteLoop n.toNat buf
  release
  return n

/-- The loop `while(input.r == input.w)`. `sleep` gives the lock up and takes it again.
The list says what happens in one sleep after another; after that the process sleeps on. -/
def awaitInput (wakes : List Wake) : C (Option (List Wake)) := do
  let s ← get
  if s.input ≠ [] then
    return some wakes
  else if s.killed then
    release
    return none
  else
    release
    match wakes with
    | [] => throw .sleep
    | wake :: rest =>
      modify fun s => { s with input := wake.input, killed := wake.killed }
      acquire
      awaitInput rest

abbrev CTRL_D : UInt8 := 4
abbrev NEWLINE : UInt8 := 10

def consolereadLoop (target : Nat) : Nat → Nat → List Wake → C Int
  | 0, _, _ => do
    release
    return target
  | n + 1, dst, wakes => do
    match ← awaitInput wakes with
    | none => return -1
    | some wakes =>
      let c := (← get).input.headD 0
      modify fun s => { s with input := s.input.tail }
      if c = CTRL_D then
        if n + 1 < target then
          modify fun s => { s with input := c :: s.input }
        release
        return (target : Int) - (n + 1)
      else
        storeChar dst c
        if c = NEWLINE then
          release
          return (target : Int) - n
        else consolereadLoop target n (uint (dst + 1)) wakes

def consoleread (dst : Nat) (n : Int) (wakes : List Wake) : C Int := do
  acquire
  consolereadLoop n.toNat n.toNat dst wakes

section Lock
variable (s : Console)

theorem acquire_spec (free : s.held = false) :
    Sat acquire s (fun _ t => t = { s with held := true }) (fun _ _ => False) := by
  rw [acquire, sat_bind, sat_get, free]
  exact rfl

theorem release_spec (held : s.held = true) :
    Sat release s (fun _ t => t = { s with held := false }) (fun _ _ => False) := by
  rw [release, sat_bind, sat_get, held]
  exact rfl

/-- While it locks, `cprintf` leaves the lock free, whether it took it or not. -/
theorem cprintf_spec :
    Sat cprintf s (fun _ t => t = { s with held := s.held && !s.locking }) (fun _ _ => False) := by
  obtain ⟨st, held, locking, input, killed, copied⟩ := s
  cases locking <;> cases held <;> exact rfl

/-- `cprintf` leaves the lock as it found it, unless it locks and the lock is held. -/
theorem cprintf_balanced_iff :
    Sat cprintf s (fun _ t => t.held = s.held) (fun _ _ => False) ↔
      ¬ (s.locking = true ∧ s.held = true) := by
  constructor
  · intro balanced both
    refine ((cprintf_spec s).and balanced).absurd ?_ (fun _ _ no => no.1)
    rintro _ t ⟨rfl, same⟩
    simp [both.1, both.2] at same
  · intro free
    refine (cprintf_spec s).imp ?_
    rintro _ t rfl
    revert free
    cases s.locking <;> cases s.held <;> simp

end Lock

section Faults
variable {s : Console}

/-- The page of an address is present. -/
def Console.Present (s : Console) (va : Nat) : Prop :=
  (s.st.proc.pgdir.flat (vpn va)).has PTE_P = true

theorem resident_iff (p : Proc) (va : Nat) :
    (p.resident false va).isSome ↔ (p.pgdir.flat (vpn va)).has PTE_P = true := by
  constructor
  · intro found
    obtain ⟨pte, found⟩ := Option.isSome_iff_exists.mp found
    rw [Proc.resident, Option.filter_eq_some_iff] at found
    rw [PgDir.flat_of_walk found.1]
    simpa using found.2
  · intro present
    have filled : p.pgdir.flat (vpn va) ≠ .zero := by
      intro zero
      rw [zero] at present
      simp at present
    rw [Proc.resident, PgDir.walk_of_filled filled]
    simp [present]

/-- Nothing is said when the page is there. -/
theorem faultMessages_present {va : Nat} (present : s.Present va) :
    Sat (faultMessages va) s (fun _ t => t = s) (fun _ _ => False) := by
  have found := (resident_iff s.st.proc va).mpr present
  rw [faultMessages, sat_bind, sat_get, if_neg (by rw [← Option.not_isSome]; simp [found])]
  exact rfl

/-- Otherwise the lock is free afterwards. -/
theorem faultMessages_absent {va : Nat} (absent : ¬ s.Present va) (locking : s.locking = true) :
    Sat (faultMessages va) s (fun _ t => t = { s with held := false }) (fun _ _ => False) := by
  have none : (s.st.proc.resident false va).isNone = true := by
    rw [← Option.not_isSome, Bool.not_eq_true']
    rw [Console.Present, ← resident_iff] at absent
    simpa using absent
  rw [faultMessages, sat_bind, sat_get, if_pos none]
  refine .bind (cprintf_spec s) ?_
  rintro _ t rfl
  refine (cprintf_spec _).imp ?_
  rintro _ t rfl
  simp [locking]

/-- A computation on the memory that leaves every page present or absent as it was. -/
def KeepsPresent {α : Type} (m : K α) (st : St) : Prop :=
  Sat m st (fun _ t => ∀ v, (t.proc.pgdir.flat v).has PTE_P = (st.proc.pgdir.flat v).has PTE_P)
    (fun _ _ => False)

theorem access_present {va : Nat} (present : s.Present va) : KeepsPresent (access false va) s.st := by
  have found := (resident_iff s.st.proc va).mpr present
  refine (access_spec false s.st va).mono ?_ ?_
  · rintro f t (⟨_, rfl, _⟩ | ⟨none, _⟩) v
    · exact touched_has s.st va v (by decide)
    · rw [none] at found
      cases found
  · rintro e t ⟨none, _⟩
    rw [none] at found
    cases found

theorem load_present {va : Nat} (present : s.Present va) : KeepsPresent (load false va) s.st := by
  rw [KeepsPresent, load]
  exact .bind (access_present present) fun _ _ same => same

theorem store_present {va : Nat} (present : s.Present va) (b : UInt8) :
    KeepsPresent (store false va b) s.st := by
  rw [KeepsPresent, store]
  exact .bind (access_present present) fun _ _ same => same

end Faults

/-! A character that was copied without the lock stays in the record. -/
section Record
variable {α β : Type} {s : Console}

def Console.Orderly (s : Console) : Prop := ∀ c ∈ s.copied, c.2 = true

/-- The computation only adds to the record, however it ends. -/
def Records (m : C α) : Prop := ∀ s : Console,
  Sat m s (fun _ t => s.copied ⊆ t.copied) (fun _ t => s.copied ⊆ t.copied)

theorem Records.bind {m : C α} {f : α → C β} (first : Records m) (second : ∀ a, Records (f a)) :
    Records (m >>= f) := by
  intro s
  refine .bind (first s) fun a t old => ?_
  exact (second a t).mono (fun _ _ new => List.Subset.trans old new)
    (fun _ _ new => List.Subset.trans old new)

theorem Records.pure (a : α) : Records (pure a : C α) := fun _ => List.Subset.refl _

theorem Records.throw (e : Stop) : Records (throw e : C α) := fun _ => List.Subset.refl _

theorem Records.get : Records (get : C Console) := fun _ => List.Subset.refl _

theorem Records.modify {f : Console → Console} (keeps : ∀ s, s.copied ⊆ (f s).copied) :
    Records (modify f : C PUnit) := keeps

theorem Records.ite {c : Prop} [Decidable c] {m n : C α} (yes : Records m) (no : Records n) :
    Records (if c then m else n) := by
  split
  · exact yes
  · exact no

theorem Records.onSt (m : K α) : Records (onSt m) := by
  intro s
  rw [Xv6.onSt, sat_zoom]
  exact (sat_self m s.st).mono (fun _ _ _ => List.Subset.refl _) (fun _ _ _ => List.Subset.refl _)

theorem acquire_records : Records acquire :=
  .bind .get fun _ => .ite (.throw _) (.modify fun _ => List.Subset.refl _)

theorem release_records : Records release :=
  .bind .get fun _ => .ite (.modify fun _ => List.Subset.refl _) (.throw _)

theorem cprintf_records : Records cprintf := by
  refine .bind .get fun s => .ite (.bind acquire_records fun _ => ?_) (.bind (.pure _) fun _ => ?_)
  · exact .ite release_records (.pure _)
  · exact .ite release_records (.pure _)

theorem faultMessages_records (va : Nat) : Records (faultMessages va) :=
  .bind .get fun _ => .ite (.bind cprintf_records fun _ => cprintf_records) (.pure _)

theorem copy_records (c : UInt8) : Records (copy c) := .modify fun _ => List.subset_append_left _ _

theorem loadChar_records (buf : Nat) : Records (loadChar buf) :=
  .bind (faultMessages_records _) fun _ => .bind (.onSt _) fun _ => copy_records _

theorem storeChar_records (dst : Nat) (c : UInt8) : Records (storeChar dst c) :=
  .bind (faultMessages_records _) fun _ => .bind (.onSt _) fun _ => copy_records _

theorem consolewriteLoop_records (n buf : Nat) : Records (consolewriteLoop n buf) := by
  induction n generalizing buf with
  | zero => exact .pure _
  | succ n ih =>
    exact .bind (loadChar_records _) fun _ => ih _

theorem awaitInput_records (wakes : List Wake) : Records (awaitInput wakes) := by
  induction wakes with
  | nil =>
    unfold awaitInput
    exact .bind .get fun _ => .ite (.pure _) (.ite (.bind release_records fun _ => .pure _)
      (.bind release_records fun _ => .throw _))
  | cons wake rest ih =>
    unfold awaitInput
    exact .bind .get fun _ => .ite (.pure _) (.ite (.bind release_records fun _ => .pure _)
      (.bind release_records fun _ => .bind (.modify fun _ => List.Subset.refl _) fun _ =>
        .bind acquire_records fun _ => ih))

theorem consolereadLoop_records (target n dst : Nat) (wakes : List Wake) :
    Records (consolereadLoop target n dst wakes) := by
  induction n generalizing dst wakes with
  | zero => exact .bind release_records fun _ => .pure _
  | succ n ih =>
    rw [consolereadLoop]
    refine .bind (awaitInput_records wakes) fun r => ?_
    cases r with
    | none => exact .pure _
    | some wakes =>
      refine .bind .get fun s => .bind (.modify fun _ => List.Subset.refl _) fun _ => .ite ?_ ?_
      · refine .ite (.bind (.modify fun _ => List.Subset.refl _) fun _ => ?_) ?_
        · exact .bind release_records fun _ => .pure _
        · exact .bind release_records fun _ => .pure _
      · exact .bind (storeChar_records _ _) fun _ =>
          .ite (.bind release_records fun _ => .pure _) (ih _ _)

theorem Records.disorderly {m : C α} (records : Records m) (bad : ¬ s.Orderly) :
    Sat m s (fun _ t => ¬ t.Orderly) (fun _ t => ¬ t.Orderly) :=
  (records s).mono (fun _ _ old orderly => bad fun c member => orderly c (old member))
    (fun _ _ old orderly => bad fun c member => orderly c (old member))

end Record

/-! What `consolewrite` and `consoleread` do with the lock. -/
section Routines
variable {s : Console}

/-- A character is copied. -/
structure CharCopied (s t : Console) (c : UInt8) : Prop where
  present : ∀ va, t.Present va ↔ s.Present va
  rest : t = { s with st := t.st, copied := s.copied ++ [(c, s.held)] }

theorem CharCopied.orderly {t : Console} {c : UInt8} (copied : CharCopied s t c) (held : s.held = true)
    (orderly : s.Orderly) : t.Orderly := by
  intro x member
  rw [copied.rest, List.mem_append, List.mem_singleton] at member
  obtain old | rfl := member
  · exact orderly x old
  · exact held

/-- The next address of the buffer. -/
theorem CharCopied.next {t : Console} {c : UInt8} (copied : CharCopied s t c) (a i : Nat) :
    t.Present (uint (a + 1) + i) ↔ s.Present (a + (i + 1)) := by
  rw [copied.present, Console.Present, show vpn (uint (a + 1) + i) = vpn (a + (i + 1)) by
    simp only [vpn, uint, PGSIZE]; omega]
  exact Iff.rfl

theorem onSt_copied {α : Type} {m : K α} (keeps : KeepsPresent m s.st) (char : α → UInt8) :
    Sat (onSt m >>= fun a => copy (char a)) s (fun _ t => ∃ c, CharCopied s t c) (fun _ _ => False) := by
  rw [sat_bind, onSt, sat_zoom]
  refine Sat.mono keeps (fun a t same => ⟨char a, fun va => ?_, rfl⟩) (fun _ _ no => no)
  rw [Console.Present, Console.Present]
  exact iff_of_eq (congrArg (· = true) (same _))

theorem onSt_free {α : Type} (m : K α) (char : α → UInt8) (free : s.held = false)
    (stops : Sat m s.st (fun _ _ => True) (fun e _ => e ≠ .sleep)) :
    Sat (onSt m >>= fun a => copy (char a)) s (fun _ t => ¬ t.Orderly) (fun e _ => e ≠ .sleep) := by
  rw [sat_bind, onSt, sat_zoom]
  refine stops.imp (fun a t _ => ?_)
  rw [copy, sat_modify]
  intro orderly
  have last := orderly (char a, s.held) (by simp)
  rw [free] at last
  cases last

theorem access_stops (st : St) (va : Nat) :
    Sat (access false va) st (fun _ _ => True) (fun e _ => e ≠ .sleep) := by
  refine (access_spec false st va).mono (fun _ _ _ => trivial) ?_
  rintro e t ⟨_, ⟨rfl, _⟩ | ⟨rfl, _⟩⟩
  · exact nofun
  · exact nofun

theorem loadChar_present {buf : Nat} (here : s.Present buf) :
    Sat (loadChar buf) s (fun _ t => ∃ c, CharCopied s t c) (fun _ _ => False) := by
  rw [loadChar]
  refine .bind (faultMessages_present here) ?_
  rintro _ t rfl
  exact onSt_copied (load_present here) id

theorem loadChar_absent {buf : Nat} (absent : ¬ s.Present buf) (locking : s.locking = true) :
    Sat (loadChar buf) s (fun _ t => ¬ t.Orderly) (fun e _ => e ≠ .sleep) := by
  rw [loadChar]
  refine .seq (faultMessages_absent absent locking) ?_ (fun _ _ no => no.elim)
  rintro _ t rfl
  refine onSt_free _ id rfl ?_
  rw [load]
  exact .bind (access_stops _ buf) fun _ _ _ => trivial

theorem storeChar_present {dst : Nat} (here : s.Present dst) (c : UInt8) :
    Sat (storeChar dst c) s (fun _ t => ∃ c, CharCopied s t c) (fun _ _ => False) := by
  rw [storeChar]
  refine .bind (faultMessages_present here) ?_
  rintro _ t rfl
  exact onSt_copied (store_present here c) fun _ => c

theorem storeChar_absent {dst : Nat} (absent : ¬ s.Present dst) (locking : s.locking = true)
    (c : UInt8) : Sat (storeChar dst c) s (fun _ t => ¬ t.Orderly) (fun e _ => e ≠ .sleep) := by
  rw [storeChar]
  refine .seq (faultMessages_absent absent locking) ?_ (fun _ _ no => no.elim)
  rintro _ t rfl
  refine onSt_free _ (fun _ => c) rfl ?_
  rw [store]
  exact .bind (access_stops _ dst) fun _ _ _ => trivial

theorem consolewriteLoop_kept (n buf : Nat) (held : s.held = true) (orderly : s.Orderly)
    (present : ∀ i < n, s.Present (buf + i)) :
    Sat (consolewriteLoop n buf) s (fun _ t => t.held = true ∧ t.Orderly) (fun _ _ => False) := by
  induction n generalizing s buf with
  | zero => exact ⟨held, orderly⟩
  | succ n ih =>
    rw [consolewriteLoop]
    refine .bind (loadChar_present (present 0 (Nat.succ_pos n))) ?_
    rintro _ t ⟨c, copied⟩
    apply ih
    · rw [copied.rest]
      exact held
    · exact copied.orderly held orderly
    · intro i below
      exact (copied.next buf i).mpr (present (i + 1) (by omega))

theorem consolewriteLoop_lost (n buf : Nat) (locking : s.locking = true)
    (absent : ∃ i < n, ¬ s.Present (buf + i)) :
    Sat (consolewriteLoop n buf) s (fun _ t => ¬ t.Orderly) (fun _ _ => True) := by
  induction n generalizing s buf with
  | zero =>
    obtain ⟨i, below, _⟩ := absent
    omega
  | succ n ih =>
    rw [consolewriteLoop, sat_bind]
    by_cases here : s.Present buf
    · refine (loadChar_present here).mono ?_ (fun _ _ no => no.elim)
      rintro _ t ⟨c, copied⟩
      apply ih
      · rw [copied.rest]
        exact locking
      · obtain ⟨i, below, absent⟩ := absent
        cases i with
        | zero => exact absurd here absent
        | succ i => exact ⟨i, by omega, fun present => absent ((copied.next buf i).mp present)⟩
    · refine (loadChar_absent here locking).mono (fun _ t bad => ?_) (fun _ _ _ => trivial)
      exact ((consolewriteLoop_records _ _).disorderly bad).mono (fun _ _ bad => bad)
        (fun _ _ _ => trivial)

theorem consolewrite_kept_iff (buf : Nat) (n : Int) (free : s.held = false)
    (locking : s.locking = true) (orderly : s.Orderly) :
    Sat (consolewrite buf n) s (fun _ t => t.held = false ∧ t.Orderly) (fun _ _ => False) ↔
      ∀ i < n.toNat, s.Present (buf + i) := by
  constructor
  · intro kept
    by_contra absent
    push Not at absent
    have lost : Sat (consolewrite buf n) s (fun _ t => ¬ t.Orderly) (fun _ _ => True) := by
      rw [consolewrite]
      refine .seq (acquire_spec s free) ?_ (fun _ _ no => no.elim)
      rintro _ t rfl
      refine .seq (consolewriteLoop_lost (s := { s with held := true }) n.toNat buf locking absent) (fun _ u bad => ?_)
        (fun _ _ _ => trivial)
      exact ((release_records.bind fun _ => .pure n).disorderly bad).mono (fun _ _ bad => bad)
        (fun _ _ _ => trivial)
    exact (kept.and lost).absurd (fun _ _ both => both.2 both.1.2) (fun _ _ both => both.1)
  · intro present
    rw [consolewrite]
    refine .bind (acquire_spec s free) ?_
    rintro _ t rfl
    refine .bind (consolewriteLoop_kept (s := { s with held := true }) n.toNat buf rfl orderly present) ?_
    rintro _ u ⟨held, orderly⟩
    refine .bind (release_spec u held) ?_
    rintro _ v rfl
    exact ⟨rfl, orderly⟩

/-- What `consoleread` will find: the input, once there is some, and the sleeps left. -/
def await (input : List UInt8) (killed : Bool) (wakes : List Wake) :
    Option (List UInt8 × Bool × List Wake) :=
  if input ≠ [] then some (input, killed, wakes)
  else if killed then none
  else match wakes with
    | [] => none
    | wake :: rest => await wake.input wake.killed rest

/-- The characters `consoleread` stores. -/
def delivered : Nat → List UInt8 → Bool → List Wake → List UInt8
  | 0, _, _, _ => []
  | n + 1, input, killed, wakes =>
    match await input killed wakes with
    | none => []
    | some (input, killed, wakes) =>
      let c := input.headD 0
      if c = CTRL_D then []
      else if c = NEWLINE then [c]
      else c :: delivered n input.tail killed wakes

theorem awaitInput_spec (wakes : List Wake) (held : s.held = true) :
    Sat (awaitInput wakes) s
      (fun r t => ∃ input killed, t = { s with held := r.isSome, input := input, killed := killed } ∧
        await s.input s.killed wakes = r.map fun rest => (input, killed, rest))
      (fun e t => e = .sleep ∧ t.held = false ∧ t.copied = s.copied ∧
        await s.input s.killed wakes = none) := by
  induction wakes generalizing s with
  | nil =>
    unfold awaitInput await
    rw [sat_bind, sat_get]
    split
    · exact ⟨s.input, s.killed, by rw [Option.isSome_some, ← held], rfl⟩
    · split
      · refine .seq (release_spec s held) ?_ (fun _ _ no => no.elim)
        rintro _ t rfl
        exact ⟨s.input, s.killed, rfl, rfl⟩
      · refine .seq (release_spec s held) ?_ (fun _ _ no => no.elim)
        rintro _ t rfl
        exact ⟨rfl, rfl, rfl, rfl⟩
  | cons wake rest ih =>
    unfold awaitInput await
    rw [sat_bind, sat_get]
    split
    · exact ⟨s.input, s.killed, by rw [Option.isSome_some, ← held], rfl⟩
    · split
      · refine .seq (release_spec s held) ?_ (fun _ _ no => no.elim)
        rintro _ t rfl
        exact ⟨s.input, s.killed, rfl, rfl⟩
      · refine .seq (release_spec s held) ?_ (fun _ _ no => no.elim)
        rintro _ t rfl
        rw [sat_bind, sat_modify]
        refine .seq (acquire_spec _ rfl) ?_ (fun _ _ no => no.elim)
        rintro _ t rfl
        exact ih rfl

theorem consolereadLoop_kept (target n dst : Nat) (wakes : List Wake) (held : s.held = true)
    (orderly : s.Orderly)
    (present : ∀ i < (delivered n s.input s.killed wakes).length, s.Present (dst + i)) :
    Sat (consolereadLoop target n dst wakes) s (fun _ t => t.held = false ∧ t.Orderly)
      (fun e t => e = .sleep ∧ t.held = false ∧ t.Orderly) := by
  -- Each way out of the loop ends with the release.
  have leave : ∀ (t : Console) (r : Int), t.held = true → t.Orderly →
      Sat (release >>= fun _ => pure r) t (fun _ t => t.held = false ∧ t.Orderly)
        (fun e t => e = .sleep ∧ t.held = false ∧ t.Orderly) := by
    intro t r held orderly
    refine .seq (release_spec t held) ?_ (fun _ _ no => no.elim)
    rintro _ u rfl
    exact ⟨rfl, orderly⟩
  induction n generalizing s dst wakes with
  | zero => exact leave s target held orderly
  | succ n ih =>
    rw [consolereadLoop]
    refine .seq (awaitInput_spec wakes held) ?_ ?_
    · rintro r t ⟨input, killed, rfl, found⟩
      cases r with
      | none => exact ⟨rfl, orderly⟩
      | some rest =>
        simp only [delivered, found, Option.map_some] at present
        dsimp only
        rw [sat_bind, sat_get, sat_bind, sat_modify]
        by_cases eof : input.headD 0 = CTRL_D
        · rw [if_pos eof]
          split
          · rw [sat_bind, sat_modify]
            exact leave _ _ rfl orderly
          · exact leave _ _ rfl orderly
        · rw [if_neg eof] at present
          rw [if_neg eof, sat_bind]
          have here : s.Present dst := present 0 (by split <;> simp)
          refine (storeChar_present (s := { s with held := true, input := input.tail, killed := killed })
            here _).mono ?_ (fun _ _ no => no.elim)
          rintro _ u ⟨c, copied⟩
          have held' : u.held = true := by rw [copied.rest]
          have orderly' := copied.orderly rfl orderly
          by_cases line : input.headD 0 = NEWLINE
          · rw [if_pos line]
            exact leave u _ held' orderly'
          · rw [if_neg line] at present ⊢
            refine ih (uint (dst + 1)) rest held' orderly' fun i below => ?_
            rw [copied.rest] at below
            exact (copied.next dst i).mpr (present (i + 1) (by simpa using below))
    · rintro e t ⟨rfl, free, same, _⟩
      refine ⟨rfl, free, ?_⟩
      rw [Console.Orderly, same]
      exact orderly

theorem consolereadLoop_lost (target n dst : Nat) (wakes : List Wake) (held : s.held = true)
    (locking : s.locking = true)
    (absent : ∃ i < (delivered n s.input s.killed wakes).length, ¬ s.Present (dst + i)) :
    Sat (consolereadLoop target n dst wakes) s (fun _ t => ¬ t.Orderly)
      (fun e t => e = .sleep → ¬ t.Orderly) := by
  induction n generalizing s dst wakes with
  | zero =>
    obtain ⟨i, below, _⟩ := absent
    simp [delivered] at below
  | succ n ih =>
    rw [consolereadLoop]
    refine .seq (awaitInput_spec wakes held) ?_ ?_
    · rintro r t ⟨input, killed, rfl, found⟩
      obtain ⟨i, below, absent⟩ := absent
      cases r with
      | none => simp [delivered, found] at below
      | some rest =>
        simp only [delivered, found, Option.map_some] at below
        dsimp only
        rw [sat_bind, sat_get, sat_bind, sat_modify]
        by_cases eof : input.headD 0 = CTRL_D
        · rw [if_pos eof] at below
          cases below
        · rw [if_neg eof] at below
          rw [if_neg eof, sat_bind]
          obtain ⟨u, is⟩ : ∃ u : Console, u =
            { s with held := true, input := input.tail, killed := killed } := ⟨_, rfl⟩
          have same : ∀ va, u.Present va ↔ s.Present va := by
            rw [is]
            exact fun va => Iff.rfl
          change Sat (storeChar dst _) { s with held := true, input := input.tail, killed := killed } _ _
          rw [← is]
          by_cases here : s.Present dst
          · refine (storeChar_present ((same dst).mpr here) _).mono ?_ (fun _ _ no => no.elim)
            rintro _ v ⟨c, copied⟩
            have later : 0 < i := by
              refine Nat.pos_of_ne_zero ?_
              rintro rfl
              exact absent here
            obtain ⟨j, rfl⟩ := Nat.exists_eq_succ_of_ne_zero later.ne'
            by_cases line : input.headD 0 = NEWLINE
            · rw [if_pos line] at below
              simp at below
            · rw [if_neg line] at below ⊢
              refine ih (uint (dst + 1)) rest ?_ ?_ ⟨j, ?_, fun present => ?_⟩
              · rw [copied.rest, is]
              · rw [copied.rest, is]
                exact locking
              · rw [copied.rest, is]
                simpa using below
              · exact absent ((same _).mp ((copied.next dst j).mp present))
          · refine (storeChar_absent (fun present => here ((same dst).mp present))
              (by rw [is]; exact locking) _).mono (fun _ v bad => ?_)
              (fun _ _ other asleep => absurd asleep other)
            have records : Records (if input.headD 0 = NEWLINE then release >>= fun _ =>
                pure ((target : Int) - n) else consolereadLoop target n (uint (dst + 1)) rest) :=
              .ite (.bind release_records fun _ => .pure _) (consolereadLoop_records _ _ _ _)
            exact (records.disorderly bad).mono (fun _ _ bad => bad) (fun _ _ bad _ => bad)
    · rintro e t ⟨rfl, free, same, none⟩
      obtain ⟨i, below, _⟩ := absent
      simp [delivered, none] at below

theorem consoleread_kept_iff (dst : Nat) (n : Int) (wakes : List Wake) (free : s.held = false)
    (locking : s.locking = true) (orderly : s.Orderly) :
    Sat (consoleread dst n wakes) s (fun _ t => t.held = false ∧ t.Orderly)
        (fun e t => e = .sleep ∧ t.held = false ∧ t.Orderly) ↔
      ∀ i < (delivered n.toNat s.input s.killed wakes).length, s.Present (dst + i) := by
  constructor
  · intro kept
    by_contra absent
    push Not at absent
    have lost : Sat (consoleread dst n wakes) s (fun _ t => ¬ t.Orderly)
        (fun e t => e = .sleep → ¬ t.Orderly) := by
      rw [consoleread]
      refine .seq (acquire_spec s free) ?_ (fun _ _ no => no.elim)
      rintro _ t rfl
      exact consolereadLoop_lost (s := { s with held := true }) _ _ _ _ rfl locking absent
    exact (kept.and lost).absurd (fun _ _ both => both.2 both.1.2)
      (fun _ _ both => both.2 both.1.1 both.1.2.2)
  · intro present
    rw [consoleread]
    refine .seq (acquire_spec s free) ?_ (fun _ _ no => no.elim)
    rintro _ t rfl
    exact consolereadLoop_kept (s := { s with held := true }) _ _ _ _ rfl orderly present

/-- With the lock free and in use, `consolewrite` and `consoleread` hold it from their
own acquire to their own release (or give it up in order to sleep) exactly if every
page they copy from or to is present; and `cprintf` leaves the lock as it found it
exactly if it does not lock or the lock was not held. -/
theorem console_lock_kept_iff (free : s.held = false) (locking : s.locking = true)
    (orderly : s.Orderly) (buf : Nat) (n : Int) (wakes : List Wake) :
    (Sat (consolewrite buf n) s (fun _ t => t.held = false ∧ t.Orderly) (fun _ _ => False) ↔
      ∀ i < n.toNat, s.Present (buf + i)) ∧
    (Sat (consoleread buf n wakes) s (fun _ t => t.held = false ∧ t.Orderly)
        (fun e t => e = .sleep ∧ t.held = false ∧ t.Orderly) ↔
      ∀ i < (delivered n.toNat s.input s.killed wakes).length, s.Present (buf + i)) ∧
    ∀ u : Console, Sat cprintf u (fun _ t => t.held = u.held) (fun _ _ => False) ↔
      ¬ (u.locking = true ∧ u.held = true) :=
  ⟨consolewrite_kept_iff buf n free locking orderly,
    consoleread_kept_iff buf n wakes free locking orderly, cprintf_balanced_iff⟩

/-- The console of a process of the two-page machine, with the lock free. -/
def twoPageConsole (calls : List Call) : Console :=
  ⟨(afterAll calls twoPageSys).view 0, false, true, [65, 66, 10], false, []⟩

/-- The page has been used, so it is present: its characters are written and read
under the lock. -/
theorem present_page_locked :
    Sat (consolewrite 0x100 3) (twoPageConsole [.load 0]) (fun _ t => t.held = false ∧ t.Orderly)
      (fun _ _ => False) ∧
    Sat (consoleread 0x100 3 []) (twoPageConsole [.load 0]) (fun _ t => t.held = false ∧ t.Orderly)
      (fun e t => e = .sleep ∧ t.held = false ∧ t.Orderly) := by
  have kept := console_lock_kept_iff (s := twoPageConsole [.load 0]) rfl rfl nofun 0x100 3 []
  constructor
  · refine kept.1.mpr ?_
    unfold Console.Present
    decide +kernel
  · refine kept.2.1.mpr ?_
    unfold Console.Present
    decide +kernel

/-- The page is encrypted: the character is written without the lock, and the release
panics. -/
theorem encrypted_page_unlocked :
    stopped (consolewrite 0 1) (twoPageConsole [.mencrypt 0 1]) = some (.panic "release") ∧
    (final (consolewrite 0 1) (twoPageConsole [.mencrypt 0 1])).copied = [(0, false)] ∧
    stopped (consoleread 0 3 []) (twoPageConsole [.mencrypt 0 1]) = some (.panic "release") ∧
    (final cprintf { twoPageConsole [] with held := true }).held = false := by
  decide +kernel

end Routines

end Xv6
