import Xv6.ClockTables
import Xv6.ExecImage
import Xv6.NullEntries

/-! An `exec` that fails. It has reset the head of the clock before it looked at anything;
from there on it only reads the strings it was given, and works beside the process. -/
namespace Xv6
open PteBit Control

/-- A byte of one of the strings. -/
def St.StringByte (s : St) (strings : List Nat) (a : Nat) : Prop :=
  ∃ arg ∈ strings, ∃ len, s.IsStr arg len ∧ ∃ k ≤ len, a = arg + k

/-- Between `s` and `t` nothing has happened to the process but reads of bytes in `A`, with the
page faults they take: all else leaves the process and the bytes of its frames as they are. -/
inductive Untouched (A : Nat → Prop) (s : St) : St → Prop where
  | refl : Untouched A s s
  | read {t u : St} {a : Nat} {b : UInt8} : Untouched A s t → A a →
      (load false a).run t = .ok b u → Untouched A s u
  | beside {t : St} {m : Phys} : Untouched A s t →
      (∀ f ∈ t.proc.pgdir.frames, m.bytes f = t.phys.bytes f) →
      Untouched A s { t with phys := m }

/-- The process as `exec` finds it once it has reset the head of the clock. -/
def St.rewound (s : St) : St := { s with proc := { s.proc with head := 0 } }

theorem St.rewound_isStr (s : St) (a len : Nat) : s.rewound.IsStr a len ↔ s.IsStr a len :=
  ⟨fun str => ⟨str.below, str.mapped, str.body, str.stop⟩,
    fun str => ⟨str.below, str.mapped, str.body, str.stop⟩⟩

/-- The kernel works for the process, and has touched nothing of it. -/
structure Aloof (s : St) (A : Nat → Prop) (t : St) (X : Multiset Nat) : Prop where
  work : Working s t X
  untouched : Untouched A s t

namespace Aloof
variable {s t : St} {A : Nat → Prop} {X Y : Multiset Nat}

theorem phys (aloof : Aloof s A t X) (sound : s.Sound) {m : Phys} (moves : Moves t.phys m X Y) :
    Aloof s A { t with phys := m } Y :=
  ⟨aloof.work.phys sound moves, aloof.untouched.beside (aloof.work.bytes sound moves)⟩

theorem reads (sound : s.Sound) {a len : Nat} (str : s.IsStr a len)
    (bytes : ∀ k ≤ len, A (a + k)) (X : Multiset Nat) :
    Reads s (fun t => Aloof s A t X) (fun _ _ => True) a len := by
  intro k inside t aloof
  have size : s.proc.sz ≤ 2 ^ 31 := sound.size
  have below := str.below
  have same : uint (a + k) = a + k := Nat.mod_eq_of_lt (by omega)
  rw [same]
  have value := load_str sound str aloof.work inside
  rw [same] at value
  refine (value.and (sat_self _ _)).mono ?_ (fun _ _ _ => trivial)
  rintro b u ⟨⟨rfl, work⟩, run⟩
  exact ⟨rfl, work, aloof.untouched.read (bytes k inside) run⟩

theorem follows (sound : s.Sound) {d : PgDir} (dir : d.Sound) {R : Nat → Prop} :
    Follows (fun _ t => Aloof s A t d.frames) d R := by
  intro _ t x b _ word usable aloof
  obtain ⟨mapped, user⟩ := Pte.usable_iff.mp usable
  have half : x / 4096 < 2 ^ 19 := by
    by_contra kernel
    rw [dir.guarded _ (by omega)] at user
    cases user
  exact aloof.phys sound (poke_moves t.phys (PgDir.mem_frames half mapped) x b)

end Aloof

/-- At whatever point `exec` fails, since it has reset the head of the clock it has read the
strings and touched nothing else of the process. -/
theorem exec_aloof {s : St} (sound : s.Sound) (namei : List UInt8 → Option Inode) {path : Nat}
    {argv : List Nat} (args : ∀ arg ∈ path :: argv, ∃ len, s.IsStr arg len) :
    Sat (exec namei path argv) s
      (fun r t => r = -1 → Untouched (s.StringByte (path :: argv)) s.rewound t)
      (fun _ _ => True) := by
  have rewound : s.rewound.Sound := ⟨sound.dir, sound.size, sound.nodup⟩
  simp only [← s.rewound_isStr] at args
  obtain ⟨n, name⟩ := args path List.mem_cons_self
  obtain ⟨strs, spells⟩ := St.Spells.of_strings fun arg member =>
    args arg (List.mem_cons_of_mem _ member)
  have reads : ∀ arg ∈ path :: argv, ∀ len, s.rewound.IsStr arg len → ∀ X,
      Reads s.rewound (fun t => Aloof s.rewound (s.StringByte (path :: argv)) t X)
        (fun _ _ => True) arg len := fun arg member len str X =>
    Aloof.reads rewound str
      (fun k inside => ⟨arg, member, len, (s.rewound_isStr arg len).mp str, k, inside, rfl⟩) X
  refine exec_through rewound name (reads path List.mem_cons_self n name 0)
    ⟨.refl _, .refl⟩ (fun u aloof _ _ => aloof.untouched) fun u ip aloof found _ => ?_
  refine execImage_through rewound (W := Aloof s.rewound (s.StringByte (path :: argv)))
    (fun _ _ aloof => aloof.work) (fun _ _ _ _ aloof => aloof.phys rewound) aloof rfl
    (fun _ _ _ => trivial) (fun u aloof _ => aloof.untouched) fun u d stacked aloof _ => ?_
  refine (execStack_keeps (fun _ => 0) rewound stacked.sound (Aloof.follows rewound stacked.sound)
    name spells (fun arg member len str _ => reads arg member len str d.frames) _
    (fun _ _ _ _ => trivial) aloof).mono (fun r v built => ?_) (fun _ _ _ => trivial)
  obtain ⟨_, aloof, _⟩ := built.kept
  refine ⟨fun _ => aloof, fun sp called _ => ?_⟩
  exact (sat_self _ _).mono (fun _ _ _ => nofun) (fun _ _ _ => trivial)

section Head
variable {s t : St} {A : Nat → Prop}

/-- Reads of pages that are present do not move the head of the clock. -/
theorem Untouched.head (untouched : Untouched A s t) (low : ∀ a, A a → a < 2 ^ 32)
    (present : ∀ a, A a → (s.proc.pgdir.flat (vpn a)).has PTE_P = true) :
    t.proc.head = s.proc.head ∧
      ∀ v, (t.proc.pgdir.flat v).has PTE_P = (s.proc.pgdir.flat v).has PTE_P := by
  induction untouched with
  | refl => exact ⟨rfl, fun _ => rfl⟩
  | @read t u a b _ among run ih =>
    obtain ⟨head, same⟩ := ih
    have here : (t.proc.pgdir.flat (vpn a)).has PTE_P = true := by
      rw [same]
      exact present a among
    have step := load_of_present (low a among) here
    rw [show uint a = a from Nat.mod_eq_of_lt (low a among)] at step
    obtain ⟨still, kept, _⟩ := step.of_ok run
    exact ⟨kept.trans head, fun v => (still v).trans (same v)⟩
  | beside _ _ ih => exact ih

end Head

/-- An `exec` that fails without reading through a null pointer leaves the process untouched if
the head of the clock is 0, and, when the strings are present, only then. It does not read
through a null pointer when the clock has its page tables and no string is too long. -/
theorem failed_exec_untouched (N : NullPte) {s t : St} (sound : s.Sound)
    {namei : List UInt8 → Option Inode} {path : Nat} {argv : List Nat}
    (args : ∀ arg ∈ path :: argv, ∃ len, s.IsStr arg len)
    (run : (exec namei path argv).run s = .ok (-1) t) :
    (¬ HitsNull (@exec .stop namei path argv) s →
      (s.proc.head = 0 → Untouched (s.StringByte (path :: argv)) s t) ∧
      ((∀ arg ∈ path :: argv, ∀ len, s.IsStr arg len → s.Present arg len) →
        Untouched (s.StringByte (path :: argv)) s t → s.proc.head = 0)) ∧
    (s.proc.Tabled → ∀ n strs, s.IsStr path n → List.Forall₂ s.Spells argv strs →
      (∀ ip, namei (s.text path 0 n) = some ip → ¬ ip.TooLong strs) →
      ¬ HitsNull (@exec .stop namei path argv) s) := by
  refine ⟨fun clear => ?_, fun tabled n strs name spells fits hits => ?_⟩
  swap
  · obtain ⟨ip, found, long⟩ :=
      (exec_null_overlong sound tabled name spells).of_error (run_of_stopped hits) rfl
    exact fits ip found long
  rw [(exec_steady (E := Stop.Any) (fun _ _ => trivial) trivial namei path argv).run_eq clear N] at run
  have untouched := (exec_aloof sound namei args).of_ok run rfl
  refine ⟨fun zero => ?_, fun present mine => ?_⟩
  · have same : s.rewound = s := by
      rw [St.rewound, ← zero]
    rwa [same] at untouched
  · have size : s.proc.sz ≤ 2 ^ 31 := sound.size
    have low : ∀ a, s.StringByte (path :: argv) a → a < 2 ^ 32 := by
      rintro _ ⟨arg, _, len, str, k, inside, rfl⟩
      have below := str.below
      omega
    have here : ∀ a, s.StringByte (path :: argv) a →
        (s.proc.pgdir.flat (vpn a)).has PTE_P = true := by
      rintro _ ⟨arg, member, len, str, k, inside, rfl⟩
      exact present arg member len str k inside
    exact (mine.head low here).1.symm.trans (untouched.head low here).1

/-- A process whose clock is empty asks for a file that does not exist. -/
theorem missing_file_untouched :
    ∃ t, (exec (fun _ => none) 0x1000 []).run launchSt = .ok (-1) t ∧
      Untouched (launchSt.StringByte [0x1000]) launchSt t := by
  have refused : value (exec (fun _ => none) 0x1000 []) launchSt = some (-1) := by decide +kernel
  have args : ∀ arg ∈ [0x1000], ∃ len, launchSt.IsStr arg len := by
    intro arg member
    rw [List.mem_singleton.mp member]
    exact ⟨1, launchSt_name⟩
  have clear : ¬ HitsNull (exec (fun _ => none) 0x1000 []) launchSt := by
    rw [HitsNull, stopped, run_of_value refused]
    rintro ⟨⟩
  exact ⟨_, run_of_value refused,
    ((failed_exec_untouched .stop launchSt_sound args (run_of_value refused)).1 clear).1 rfl⟩

/-- Nine pages are used one after the other: the ninth takes the place of the first in the
clock, and the head moves on. -/
def nineLoads : List Call :=
  [.load 0x1000, .load 0x2000, .load 0x3000, .load 0x4000, .load 0x5000, .load 0x6000,
    .load 0x7000, .load 0x8000, .load 0x9000]

/-- After that the process asks for a file that does not exist, and the head of its clock is
back at 0. -/
theorem head_rewound :
    ((afterAll nineLoads elevenPageSys).view 0).proc.head = 2 ∧
    ∃ t, (exec (fun _ => none) 0x2000 []).run ((afterAll nineLoads elevenPageSys).view 0) =
        .ok (-1) t ∧
      ¬ Untouched (((afterAll nineLoads elevenPageSys).view 0).StringByte [0x2000])
        ((afterAll nineLoads elevenPageSys).view 0) t := by
  have head : ((afterAll nineLoads elevenPageSys).view 0).proc.head = 2 := by decide +kernel
  have stop : ((afterAll nineLoads elevenPageSys).view 0).peek 0x2001 = 0 := by decide +kernel
  have present : (((afterAll nineLoads elevenPageSys).view 0).proc.pgdir.flat 2).has PTE_P = true := by
    decide +kernel
  have refused : value (exec (fun _ => none) 0x2000 []) ((afterAll nineLoads elevenPageSys).view 0) =
      some (-1) := by decide +kernel
  have zero : (final (exec (fun _ => none) 0x2000 [])
      ((afterAll nineLoads elevenPageSys).view 0)).proc.head = 0 := by decide +kernel
  generalize (afterAll nineLoads elevenPageSys).view 0 = s at *
  refine ⟨head, _, run_of_value refused, fun untouched => ?_⟩
  have bytes : ∀ a, s.StringByte [0x2000] a → 0x2000 ≤ a ∧ a ≤ 0x2001 := by
    rintro _ ⟨arg, member, len, str, k, inside, rfl⟩
    obtain rfl := List.mem_singleton.mp member
    have short : len ≤ 1 := by
      by_contra long
      exact str.body 1 (by omega) stop
    omega
  have same := (untouched.head (fun a among => by have := bytes a among; omega) fun a among => ?_).1
  · rw [zero, head] at same
    cases same
  · have page : vpn a = 2 := by
      have := bytes a among
      simp only [vpn, PGSIZE]
      omega
    rw [page]
    exact present

end Xv6
