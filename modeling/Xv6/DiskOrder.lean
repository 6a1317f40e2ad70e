import Mathlib.Data.List.Infix
import Xv6.DiskQueue

/-! The disk serves the requests in the order in which they were queued, one at a time,
and a process waits until its own request is done. -/
namespace Xv6.DiskQueue
open Monitor Transition Ring
open Function (update update_of_ne update_self)

section Queue
variable {B D : Type} {x y : Ide B D} {b : B} {pp : Option B} {l : List B} {k : Nat}

/-- The list behind `idequeue` is what is still to be done. -/
structure Ide.Lined (x : Ide B D) : Prop where
  order : x.queued = x.finished ++ x.pending
  path : Path x.next none (x.pending.map some) none
  once : x.pending.Nodup

/-- The first request of the queue is the active command, and there is no other. -/
structure Ide.Busy (x : Ide B D) : Prop extends x.Lined where
  active : x.started = x.finished ++ x.pending.take 1

/-- Commands are started in the order of the queue, each after the end of the one before. -/
structure Ide.Ordered (x : Ide B D) : Prop where
  ended : x.finished <+: x.started
  begun : x.started <+: x.queued
  single : x.started.length ≤ x.finished.length + 1

theorem Ide.pending_of (order : x.queued = x.finished ++ l) : x.pending = l := by
  rw [Ide.pending, order, List.drop_left]

theorem Ide.Busy.ordered (busy : x.Busy) : x.Ordered := by
  constructor
  · rw [busy.active]
    exact List.prefix_append ..
  · rw [busy.active, busy.order]
    exact List.prefix_append_right_inj _ |>.mpr (List.take_prefix 1 _)
  · rw [busy.active, List.length_append]
    have := List.length_take_le 1 x.pending
    omega

theorem Ide.Lined.ordered (lined : x.Lined) (idle : x.started = x.finished) : x.Ordered := by
  constructor
  · rw [idle]
  · rw [idle, lined.order]
    exact List.prefix_append ..
  · rw [idle]
    exact Nat.le_succ _

theorem Ide.Lined.nodes (lined : x.Lined) : (none :: x.pending.map some).Nodup := by
  rw [List.nodup_cons]
  constructor
  · simp
  · exact lined.once.map (Option.some_injective B)

theorem Ide.Lined.first (lined : x.Lined) (first : x.next none = some b) :
    ∃ rest, x.pending = b :: rest := by
  have path := lined.path
  cases listed : x.pending with
  | nil =>
    rw [listed] at path
    exact nomatch first.symm.trans path
  | cons c rest =>
    rw [listed] at path
    exact ⟨rest, by rw [Option.some.inj (first.symm.trans path.1)]⟩

theorem Ide.Lined.empty (lined : x.Lined) (none : x.next none = none) : x.pending = [] := by
  have path := lined.path
  cases listed : x.pending with
  | nil => rfl
  | cons c rest =>
    rw [listed] at path
    exact nomatch none.symm.trans path.1

/-- `idestart` only hands the command to the disk. -/
theorem idestart_some (begun : idestart x b = some y) : y.next = x.next ∧ y.buf = x.buf ∧
    y.queued = x.queued ∧ y.finished = x.finished ∧ y.started = x.started ++ [b] := by
  obtain ⟨_, same⟩ := Option.ite_none_left_eq_some.mp begun
  cases same
  exact ⟨rfl, rfl, rfl, rfl, rfl⟩

theorem idestart_pending (begun : idestart x b = some y) : y.pending = x.pending := by
  obtain ⟨_, _, queued, finished, _⟩ := idestart_some begun
  rw [Ide.pending, Ide.pending, queued, finished]

theorem Ide.Lined.idestart (lined : x.Lined) (begun : idestart x b = some y) : y.Lined := by
  obtain ⟨next, _, queued, finished, _⟩ := idestart_some begun
  have pending := idestart_pending begun
  constructor
  · rw [queued, finished, pending]
    exact lined.order
  · rw [next, pending]
    exact lined.path
  · rw [pending]
    exact lined.once

variable [DecidableEq B]

theorem Ide.Lined.take (lined : x.Lined) (new : b ∉ x.pending) (buf : Buf D) : (x.take b buf).Lined where
  order := lined.order
  once := lined.once
  path := by
    refine lined.path.congr fun node member => update_of_ne ?_ _ _
    rintro rfl
    simp [new] at member

theorem Ide.Lined.link (lined : x.Lined) (new : b ∉ x.pending) (last : x.next (some b) = none)
    (member : pp ∈ none :: x.pending.map some) (ends : x.next pp = none) :
    (x.link pp b).Lined ∧ (x.link pp b).pending = x.pending ++ [b] := by
  have order : (x.link pp b).queued = (x.link pp b).finished ++ (x.pending ++ [b]) := by
    rw [← List.append_assoc]
    exact congrArg (· ++ [b]) lined.order
  have pending := Ide.pending_of order
  refine ⟨⟨by rw [pending]; exact order, ?_, ?_⟩, pending⟩
  · have here : pp = (x.pending.map some).getLastD none := lined.path.last (by simp) member ends
    have turned := lined.path.retarget lined.nodes (some b)
    rw [← here] at turned
    rw [pending, List.map_append, List.map_singleton, path_append]
    refine ⟨turned, ?_⟩
    have other : some b ≠ pp := by
      rintro rfl
      simp [new] at member
    exact (update_of_ne other _ _).trans last
  · rw [pending]
    exact List.nodup_append.mpr ⟨lined.once, List.nodup_singleton b, by
      rintro a mem c single rfl
      exact new (List.mem_singleton.mp single ▸ mem)⟩

theorem Ide.Lined.finish {rest : List B} (lined : x.Lined) (pending : x.pending = b :: rest) :
    (x.finish b).Lined ∧ (x.finish b).pending = rest := by
  have order : (x.finish b).queued = (x.finish b).finished ++ rest := by
    change x.queued = (x.finished ++ [b]) ++ rest
    rw [lined.order, pending, List.append_assoc]
    rfl
  have left := Ide.pending_of order
  have path := lined.path
  have nodes := lined.nodes
  have once := lined.once
  rw [pending] at path nodes once
  refine ⟨⟨by rw [left]; exact order, ?_, ?_⟩, left⟩
  · rw [left]
    exact Path.skip (l := []) path nodes
  · rw [left]
    exact (List.nodup_cons.mp once).2

end Queue

section Rules
variable {P B D : Type} {x y : Ide B D} {b : B} {k : Nat}

/-- Request `k` is for `b`, and it is done or still to be done. -/
def Waiting (x : Ide B D) (b : B) (k : Nat) : Prop :=
  x.queued[k]? = some b ∧ (k < x.finished.length ∧ (x.buf b).Synced ∧ b ∉ x.pending ∨
    x.finished.length ≤ k ∧ ¬ (x.buf b).Synced)

def Outside (x : Ide B D) : Call B D → Pc B → Prop
  | .rw b _, .start => b ∉ x.pending
  | .rw b _, .wait k => Waiting x b k
  | .intr, .start => True
  | _, _ => False

def Inside (x : Ide B D) : Call B D → Pc B → Prop
  | .rw b _, .start => x.Busy ∧ b ∉ x.pending
  | .rw b _, .walk pp => x.Busy ∧ b ∉ x.pending ∧ ¬ (x.buf b).Synced ∧ x.next (some b) = none ∧
      pp ∈ none :: x.pending.map some
  | .rw b _, .begin k => x.Lined ∧ ¬ (x.buf b).Synced ∧ ∃ l, x.pending = l ++ [b] ∧
      k = x.finished.length + l.length ∧ x.started = x.finished ++ l.take 1
  | .rw b _, .wait k => x.Busy ∧ Waiting x b k
  | .rw b _, .nap k => x.Busy ∧ Waiting x b k ∧ b ∈ x.pending
  | .rw b _, .ret k => x.Busy ∧ x.queued[k]? = some b ∧ k < x.finished.length ∧ (x.buf b).Synced ∧
      b ∉ x.pending
  | .intr, .start | .intr, .done => x.Busy
  | .intr, .stir b => x.Lined ∧ x.started = x.finished ∧ b ∉ x.pending
  | .intr, .again => x.Lined ∧ x.started = x.finished
  | _, .panic => x.Ordered
  | _, _ => False

def Apart : Call B D → Call B D → Prop
  | .rw b _, .rw c _ => b ≠ c
  | _, _ => True

def orders (P B D : Type) : Spec P (Ide B D) B (Call B D) (Pc B) where
  inv := Ide.Busy
  cond := fun b x => b ∈ x.pending
  owes := fun op pc b => op = .intr ∧ pc = .stir b
  sleeps := fun op b => ∃ buf, op = .rw b buf
  apart := Apart
  outside := fun _ op pc x => Outside x op pc
  inside := fun _ op pc x => Inside x op pc

theorem waiting_pending (order : x.queued = x.finished ++ x.pending) (asked : x.queued[k]? = some b)
    (todo : x.finished.length ≤ k) : b ∈ x.pending := by
  rw [order, List.getElem?_append_right todo] at asked
  exact List.mem_of_getElem? asked

theorem Inside.ordered {op : Call B D} {pc : Pc B} (inside : Inside x op pc) : x.Ordered := by
  cases op with
  | rw b buf =>
    cases pc with
    | start | walk | wait | nap | ret => exact inside.1.ordered
    | begin k =>
      obtain ⟨lined, _, l, pending, _, active⟩ := inside
      constructor
      · rw [active]
        exact List.prefix_append ..
      · rw [active, lined.order, pending, List.prefix_append_right_inj]
        exact (List.take_prefix 1 l).trans (List.prefix_append ..)
      · rw [active, List.length_append]
        have := List.length_take_le 1 l
        omega
    | panic => exact inside
    | _ => exact inside.elim
  | intr =>
    cases pc with
    | start | done => exact Ide.Busy.ordered inside
    | stir c => exact inside.1.ordered inside.2.1
    | again => exact inside.1.ordered inside.2
    | panic => exact inside
    | _ => exact inside.elim

/-- A step that leaves a buffer and the finished requests alone is none of its process's
business. -/
theorem Outside.frame {op : Call B D} {pc : Pc B} (outside : Outside x op pc)
    (finished : y.finished = x.finished) (queued : x.queued <+: y.queued)
    (same : ∀ b buf, op = .rw b buf → y.buf b = x.buf b ∧ (b ∈ y.pending → b ∈ x.pending)) :
    Outside y op pc := by
  cases op with
  | intr => cases pc <;> exact outside
  | rw b buf =>
    obtain ⟨buffer, listed⟩ := same b buf rfl
    cases pc with
    | start => exact mt listed outside
    | wait k =>
      obtain ⟨asked, state⟩ := outside
      obtain ⟨more, grown⟩ := queued
      have inside := (List.getElem?_eq_some_iff.mp asked).1
      refine ⟨by rw [← grown, List.getElem?_append_left inside, asked], ?_⟩
      rw [finished, buffer]
      exact state.imp_left fun ⟨done, synced, out⟩ => ⟨done, synced, mt listed out⟩
    | _ => exact outside

theorem Waiting.finish [DecidableEq B] {c : B} {rest : List B} (waiting : Waiting x b k) (lined : x.Lined)
    (pending : x.pending = c :: rest) : Waiting (x.finish c) b k := by
  obtain ⟨asked, state⟩ := waiting
  have left := (lined.finish pending).2
  have once := lined.once
  rw [pending, List.nodup_cons] at once
  refine ⟨asked, ?_⟩
  rw [left]
  change k < (x.finished ++ [c]).length ∧ _ ∨ (x.finished ++ [c]).length ≤ k ∧ _
  rw [List.length_append, List.length_singleton]
  rcases state with ⟨done, synced, out⟩ | ⟨todo, unsynced⟩
  · have other : b ≠ c ∧ b ∉ rest := by simpa [pending] using out
    have same : (x.finish c).buf b = x.buf b := update_of_ne other.1 _ _
    exact .inl ⟨by omega, by rwa [same], other.2⟩
  · -- The request at the head is the one that has just ended.
    rw [lined.order, List.getElem?_append_right todo, pending] at asked
    rcases Nat.eq_or_lt_of_le todo with head | later
    · rw [head, Nat.sub_self] at asked
      cases asked
      have same : (x.finish b).buf b = _ := update_self ..
      exact .inl ⟨by omega, by rw [same]; exact ⟨rfl, rfl⟩, once.1⟩
    · rw [show k - x.finished.length = (k - x.finished.length - 1) + 1 by omega, List.getElem?_cons_succ] at asked
      have member := List.mem_of_getElem? asked
      have other : b ≠ c := fun same => once.1 (same ▸ member)
      have same : (x.finish c).buf b = x.buf b := update_of_ne other _ _
      exact .inr ⟨by omega, by rwa [same]⟩

section Requests
variable {i : P} {buf : Buf D} {pc : Pc B} {f : Ide B D → Ide B D × Pc B}

/-- A step of `iderw` leaves the other buffers where they are. -/
theorem request_act (pc' : Pc B) (result : f x = (y, pc')) (own : Inside y (.rw b buf) pc')
    (finished : y.finished = x.finished) (queued : x.queued <+: y.queued)
    (kept : ∀ c, c ∈ x.pending → c ∈ y.pending)
    (same : ∀ c, c ≠ b → y.buf c = x.buf c ∧ (c ∈ y.pending → c ∈ x.pending)) :
    (orders P B D).Correct i (.rw b buf) pc x (.act f) := by
  refine Spec.correct_act result own ?_ ?_
  · rintro c (listed | ⟨request, _⟩)
    · exact .inl (kept c listed)
    · exact nomatch request
  · intro q op' pc' _ apart outside
    refine Outside.frame outside finished queued ?_
    rintro c buf' rfl
    exact same c (Ne.symm apart)

theorem request_stays (pc' : Pc B) (result : f x = (x, pc')) (own : Inside x (.rw b buf) pc') :
    (orders P B D).Correct i (.rw b buf) pc x (.act f) :=
  request_act pc' result own rfl (List.prefix_refl _) (fun _ => id) fun _ _ => ⟨rfl, id⟩

variable [DecidableEq B]

theorem iderw_start (busy : x.Busy) (new : b ∉ x.pending) :
    (orders P B D).Correct i (.rw b buf) .start x (iderw b buf .start) := by
  by_cases synced : buf.Synced
  · exact request_stays .panic (if_pos synced) busy.ordered
  · by_cases missing : buf.dev ≠ 0 ∧ x.havedisk1 = false
    · exact request_stays .panic ((if_neg synced).trans (if_pos missing)) busy.ordered
    · refine request_act (.walk none) ((if_neg synced).trans (if_neg missing)) ?_ rfl (List.prefix_refl _) (fun _ => id) ?_
      · refine ⟨⟨busy.toLined.take new buf, busy.active⟩, new, ?_, update_self .., List.mem_cons_self⟩
        have here : (x.take b buf).buf b = buf := update_self ..
        rwa [here]
      · exact fun c other => ⟨update_of_ne other _ _, id⟩

theorem iderw_walk {pp : Option B} (inside : Inside x (.rw b buf) (.walk pp)) :
    (orders P B D).Correct i (.rw b buf) (.walk pp) x (iderw b buf (.walk pp)) := by
  obtain ⟨busy, new, unsynced, last, member⟩ := inside
  cases next : x.next pp with
  | some c =>
    refine request_stays (.walk (some c)) (by simp only [next]) ⟨busy, new, unsynced, last, ?_⟩
    have onward := busy.path.onward member (by rw [next]; nofun)
    rw [next] at onward
    exact List.mem_cons_of_mem _ onward
  | none =>
    obtain ⟨lined, pending⟩ := busy.toLined.link new last member next
    refine request_act (.begin x.queued.length) (y := x.link pp b) (by simp only [next]) ?_ rfl
      (List.prefix_append ..) ?_ ?_
    · refine ⟨lined, unsynced, x.pending, pending, ?_, busy.active⟩
      rw [busy.order, List.length_append]
      rfl
    · intro c listed
      rw [pending]
      exact List.mem_append_left _ listed
    · intro c other
      refine ⟨rfl, fun listed => ?_⟩
      rw [pending] at listed
      rcases List.mem_append.mp listed with old | new
      · exact old
      · exact absurd (List.mem_singleton.mp new) other

theorem iderw_begin (inside : Inside x (.rw b buf) (.begin k)) :
    (orders P B D).Correct i (.rw b buf) (.begin k) x (iderw b buf (.begin k)) := by
  obtain ⟨lined, unsynced, l, pending, number, active⟩ := inside
  have asked : x.queued[k]? = some b := by
    rw [lined.order, pending, number, ← List.append_assoc,
      List.getElem?_append_right (by simp), List.length_append, Nat.sub_self]
    rfl
  have waiting : Waiting x b k := ⟨asked, .inr ⟨by omega, unsynced⟩⟩
  by_cases first : x.next none = some b
  · -- The queue was empty, since no buffer is in it twice.
    obtain ⟨rest, head⟩ := lined.first first
    have alone : l = [] := by
      have once := lined.once
      cases l with
      | nil => rfl
      | cons c l =>
        rw [pending] at head once
        cases (List.cons.inj head).1
        simp at once
    subst alone
    cases begun : idestart x b with
    | none =>
      have idle : x.started = x.finished := by simpa using active
      exact request_stays .panic (by simp only [if_pos first, begun]) (lined.ordered idle)
    | some y =>
      obtain ⟨_, buffer, queued, finished, started⟩ := idestart_some begun
      have still := idestart_pending begun
      have frame : ∀ c, y.buf c = x.buf c ∧ (c ∈ y.pending → c ∈ x.pending) := fun c =>
        ⟨congrFun buffer c, fun listed => still ▸ listed⟩
      refine request_act (.wait k) (by simp only [if_pos first, begun]) ⟨⟨lined.idestart begun, ?_⟩, ?_⟩ finished
        (queued ▸ List.prefix_refl _) (fun c listed => still.symm ▸ listed) fun c _ => frame c
      · rw [started, finished, active, still, pending]
        simp
      · have before : Outside x (.rw b buf) (.wait k) := waiting
        exact before.frame finished (queued ▸ List.prefix_refl _) fun c _ _ => frame c
  · have behind : x.pending.take 1 = l.take 1 := by
      have path := lined.path
      rw [pending] at path ⊢
      cases l with
      | nil => exact absurd path.1 first
      | cons c l => rfl
    exact request_stays (.wait k) (if_neg first) ⟨⟨lined, by rw [active, behind]⟩, waiting⟩

theorem iderw_orders (inside : Inside x (.rw b buf) pc) :
    (orders P B D).Correct i (.rw b buf) pc x (iderw b buf pc) := by
  cases pc with
  | start => exact iderw_start inside.1 inside.2
  | walk pp => exact iderw_walk inside
  | begin k => exact iderw_begin inside
  | wait k =>
    obtain ⟨busy, asked, state⟩ := inside
    rcases state with ⟨done, synced, out⟩ | ⟨todo, unsynced⟩
    · exact request_stays (.ret k) (if_pos synced) ⟨busy, asked, done, synced, out⟩
    · exact request_stays (.nap k) (if_neg unsynced)
        ⟨busy, ⟨asked, .inr ⟨todo, unsynced⟩⟩, waiting_pending busy.order asked todo⟩
  | nap k =>
    obtain ⟨busy, waiting, listed⟩ := inside
    exact ⟨busy, waiting, ⟨buf, rfl⟩, listed, fun _ owed => nomatch owed.1⟩
  | ret k => exact inside.1
  | _ => trivial

end Requests

section Interrupts
variable {i : P} {pc : Pc B} {f : Ide B D → Ide B D × Pc B}

theorem interrupt_act (pc' : Pc B) (result : f x = (y, pc')) (own : Inside y .intr pc')
    (debts : ∀ c, c ∈ x.pending → c ∈ y.pending ∨ pc' = .stir c) (settled : ∀ c, pc ≠ .stir c)
    (stable : ∀ op pc, Outside x op pc → Outside y op pc) :
    (orders P B D).Correct i .intr pc x (.act f) := by
  refine Spec.correct_act result own ?_ fun _ op pc _ _ => stable op pc
  rintro c (listed | ⟨_, owed⟩)
  · exact (debts c listed).imp_right fun stirs => ⟨rfl, stirs⟩
  · exact absurd owed (settled c)

variable [DecidableEq B]

theorem ideintr_again (lined : x.Lined) (idle : x.started = x.finished) :
    (orders P B D).Correct i .intr .again x (ideintr .again) := by
  cases next : x.next none with
  | none =>
    have none : x.pending = [] := lined.empty next
    refine interrupt_act .done (by simp only [next]) ⟨lined, ?_⟩ (fun _ => .inl) nofun fun _ _ => id
    rw [idle, none, List.take_nil, List.append_nil]
  | some b =>
    obtain ⟨rest, pending⟩ := lined.first next
    cases begun : idestart x b with
    | none =>
      exact interrupt_act .panic (by simp only [next, begun]) (lined.ordered idle) (fun _ => .inl) nofun
        fun _ _ => id
    | some y =>
      obtain ⟨_, buffer, queued, finished, started⟩ := idestart_some begun
      have still := idestart_pending begun
      refine interrupt_act .done (by simp only [next, begun]) ⟨lined.idestart begun, ?_⟩
        (fun c listed => .inl (still.symm ▸ listed)) nofun fun op pc outside => ?_
      · rw [started, finished, idle, still, pending]
        rfl
      · exact outside.frame finished (queued ▸ List.prefix_refl _) fun c _ _ =>
          ⟨congrFun buffer c, fun listed => still ▸ listed⟩

theorem ideintr_start (busy : x.Busy) :
    (orders P B D).Correct i .intr .start x (ideintr .start) := by
  cases next : x.next none with
  | none => exact interrupt_act .done (by simp only [next]) busy (fun _ => .inl) nofun fun _ _ => id
  | some b =>
    obtain ⟨rest, pending⟩ := busy.toLined.first next
    obtain ⟨lined, left⟩ := busy.toLined.finish pending
    have once := busy.once
    rw [pending, List.nodup_cons] at once
    refine interrupt_act (.stir b) (by simp only [next]) ⟨lined, ?_, left ▸ once.1⟩ ?_ nofun ?_
    · change x.started = x.finished ++ [b]
      rw [busy.active, pending]
      rfl
    · intro c listed
      rw [pending] at listed
      rw [left]
      rcases List.mem_cons.mp listed with rfl | later
      · exact .inr rfl
      · exact .inl later
    · intro op pc outside
      cases op with
      | intr => cases pc <;> exact outside
      | rw c buf =>
        cases pc with
        | start =>
          have out : c ∉ x.pending := outside
          rw [pending] at out
          exact fun listed => out (List.mem_cons_of_mem b (left ▸ listed))
        | wait k => exact Waiting.finish outside busy.toLined pending
        | _ => exact outside

theorem ideintr_orders (inside : Inside x .intr pc) :
    (orders P B D).Correct i .intr pc x (ideintr pc) := by
  cases pc with
  | start => exact ideintr_start inside
  | stir b =>
    refine ⟨⟨inside.1, inside.2.1⟩, fun c other owed => ?_⟩
    cases owed.2
    exact absurd rfl other
  | again => exact ideintr_again inside.1 inside.2
  | done => exact inside
  | _ => trivial

end Interrupts

variable [DecidableEq B]

/-- Every request in the queue has its process in `iderw`. -/
def InFlight (s : Pool P B D) : Prop :=
  Carried (fun x b => b ∈ x.pending) (fun op b => ∃ buf, op = .rw b buf) s

theorem instr_orders {i : P} {op : Call B D} {pc : Pc B} (inside : Inside x op pc) :
    (orders P B D).Correct i op pc x (instr op pc) := by
  cases op with
  | rw b buf => exact iderw_orders inside
  | intr => exact ideintr_orders inside

theorem orders_valid : (orders P B D).Valid code fun s _ => InFlight s where
  call := by
    intro s i op sound inFlight admitted
    cases op with
    | rw b buf =>
      constructor
      · intro listed
        obtain ⟨q, u, at_q, other, same⟩ := inFlight b listed
        exact admitted q u at_q (same ▸ rfl)
      · intro q u at_q
        have differ := admitted q u at_q
        cases op : u.op with
        | intr => exact ⟨trivial, trivial⟩
        | rw c other =>
          rw [op] at differ
          have apart : b ≠ c := fun same => differ (same ▸ rfl)
          exact ⟨apart, apart.symm⟩
    | intr =>
      constructor
      · trivial
      · intro q u at_q
        cases u.op <;> exact ⟨trivial, trivial⟩
  enter := by
    intro i op pc x busy outside
    cases op with
    | rw b buf =>
      cases pc with
      | start => exact ⟨busy, outside⟩
      | wait k => exact ⟨busy, outside⟩
      | _ => exact outside.elim
    | intr =>
      cases pc with
      | start => exact busy
      | _ => exact outside.elim
  correct := fun _ _ _ _ _ _ => instr_orders
  leave := by
    rintro s i op pc - - - leaves c q u - - ⟨rfl, rfl⟩
    cases leaves

variable [DecidableEq P]

theorem inFlight_keeps {s s' : Pool P B D} {e : Label P (Call B D)} (sound : (orders P B D).Sound s)
    (inFlight : InFlight s) (step : code.Step s e s') : InFlight s' := by
  refine sound.carried step inFlight ?_ ?_
  · intro i op pc x f c inside acts listed
    -- To any other process the step looks as if it left `c` out of the queue.
    have correct := instr_orders (P := Bool) (i := true) inside
    rw [show instr op pc = .act f from acts] at correct
    by_contra neither
    rw [not_or] at neither
    have apart : Apart op (.rw c (x.buf c)) := by
      cases op with
      | intr => trivial
      | rw b buf => exact fun same => neither.2 ⟨buf, same ▸ rfl⟩
    exact correct.2.2 false (.rw c (x.buf c)) .start nofun apart neither.1 listed
  · rintro i op pc x c inside leaves ⟨buf, rfl⟩
    cases pc with
    | ret k => exact inside.2.2.2.2
    | _ => cases leaves

/-- The disk queue: commands are started in the order of the requests, each once and one
at a time; `iderw` returns when its own request is done, with a valid clean buffer; and a
process that sleeps in `iderw` has its buffer in the queue, or is about to be woken by the
handler that has just taken it out. While `idelock` is free, the queue holds exactly what
is still to be done, and its head is the active command. -/
theorem disk_serves_in_order (links : Option B → Option B) (buf : B → Buf D) (havedisk1 : Bool)
    (disk : Nat → Nat → D) {es : List (Label P (Call B D))} {s : Pool P B D}
    (run : Run code.Step (.start (.init links buf havedisk1 disk)) es s) :
    (s.shared.finished <+: s.shared.started ∧ s.shared.started <+: s.shared.queued ∧
      s.shared.started.length ≤ s.shared.finished.length + 1) ∧
    (∀ p b buf k, s.thread p = some ⟨.rw b buf, .ret k, .inside⟩ → s.shared.finished[k]? = some b ∧
      (s.shared.buf b).Synced) ∧
    (∀ p t b, s.thread p = some t → t.place.Waits b → (∃ buf, t.op = .rw b buf) ∧
      (b ∈ s.shared.pending ∨ ∃ q, s.thread q = some ⟨.intr, .stir b, .inside⟩)) ∧
    (s.lock = none → Path s.shared.next none (s.shared.pending.map some) none ∧
      s.shared.started = s.shared.finished ++ s.shared.pending.take 1 ∧
      ∀ p t b, s.thread p = some t → t.place.Waits b → b ∈ s.shared.pending) := by
  have both : (orders P B D).Sound s ∧ InFlight s := by
    refine run.kept (P := fun s => (orders P B D).Sound s ∧ InFlight s) ?_ ⟨?_, ?_⟩
    · rintro s e s' step ⟨sound, inFlight⟩
      exact ⟨orders_valid.keeps s e s' ⟨inFlight, step⟩ sound, inFlight_keeps sound inFlight step⟩
    · apply Spec.sound_start
      have empty : Path (update links none none) none [] none := update_self ..
      exact ⟨⟨rfl, empty, List.nodup_nil⟩, rfl⟩
    · exact nofun
  obtain ⟨sound, _⟩ := both
  have ordered : s.shared.Ordered :=
    sound.always (fun _ => Ide.Busy.ordered) fun _ _ _ _ => Inside.ordered
  refine ⟨⟨ordered.ended, ordered.begun, ordered.single⟩, ?_, ?_, ?_⟩
  · intro p b buf k returns
    obtain ⟨busy, asked, done, synced, _⟩ : Inside s.shared (.rw b buf) (.ret k) := sound.at_ p _ returns
    rw [busy.order, List.getElem?_append_left done] at asked
    exact ⟨asked, synced⟩
  · intro p t b here waiting
    refine ⟨(sound.sleeper here waiting).2, ?_⟩
    rcases sound.heard p t b here waiting with listed | ⟨q, ⟨op, pc, place⟩, at_q, inside, owed, stirs⟩
    · exact .inl listed
    · cases inside
      cases owed
      cases stirs
      exact .inr ⟨q, at_q⟩
  · intro free
    have busy := sound.free free
    exact ⟨busy.path, busy.active, fun p t b here waiting => sound.waits free here waiting⟩

instance {n m : Nat} (s : Pool (Fin n) (Fin m) Unit) (p : Fin n) (op : Call (Fin m) Unit) :
    Decidable (code.admits s p op) := by
  cases op with
  | rw b buf => exact inferInstanceAs (Decidable (∀ q, ∀ t ∈ s.thread q, t.op.target ≠ some b))
  | intr => exact inferInstanceAs (Decidable (_ ∧ ∀ q, ∀ t ∈ s.thread q, t.op.target = none → t.pc ≠ .start))

/-- Two processes ask for a block each, the second while the first command is active, and
the disk interrupts twice. -/
def twoRequests : List (Label (Fin 3) (Call (Fin 2) Unit)) :=
  .call 0 (.rw 0 ⟨false, false, 0, 5, ()⟩) :: List.replicate 8 (.move 0) ++
    .call 1 (.rw 1 ⟨true, true, 0, 6, ()⟩) :: List.replicate 9 (.move 1) ++
    .call 2 .intr :: List.replicate 5 (.move 2) ++ List.replicate 5 (.move 0) ++
    .call 2 .intr :: List.replicate 5 (.move 2) ++ List.replicate 4 (.move 1)

def twoBuffers : Ide (Fin 2) Unit := .init id (fun _ => ⟨false, false, 0, 0, ()⟩) false fun _ _ => ()

theorem two_requests_served : ∃ s : Pool (Fin 3) (Fin 2) Unit,
    Run code.Step (.start twoBuffers) twoRequests s ∧
    s.shared.finished = [0, 1] ∧ s.shared.finished <+: s.shared.started := by
  obtain ⟨s, walk, served⟩ := Code.run_of_any
    (q := fun s : Pool (Fin 3) (Fin 2) Unit => s.shared.finished == [0, 1])
    (show (code.walk (fun _ _ => true) (.start twoBuffers) twoRequests).any _ = true by decide +kernel)
  have run := walk.of_restrict
  exact ⟨s, run, beq_iff_eq.mp served, (disk_serves_in_order _ _ _ _ run).1.1⟩

end Rules
end Xv6.DiskQueue
