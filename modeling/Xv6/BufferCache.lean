import Mathlib.Data.Fintype.Card
import Mathlib.Data.List.Count
import Xv6.Bio
import Xv6.Lib.Run

/-! The buffer cache under any sequence of requests by any number of processes. -/
namespace Xv6
open Control Transition
open Function (update update_apply update_of_ne update_self)

/-- What a process does with a buffer: it waits for the lock, it has the lock and the
disk is at work, the content is there or has been changed, or it has given the lock
back and is about to drop its reference. -/
inductive Stage where
  | waiting
  | locked
  | io
  | ready
  | changed
  | leaving
  deriving DecidableEq

/-- The process has the lock of the buffer. -/
def Stage.holds : Stage → Bool
  | .waiting | .leaving => false
  | .locked | .io | .ready | .changed => true

structure Ticket where
  pid : Nat
  buf : Fin NBUF
  stage : Stage
  deriving DecidableEq

/-- The cache, with what each process does with its buffers. The last two fields
record when a buffer was last released for good: `released` is 0 before that. -/
structure BioUse where
  cache : Bcache
  tickets : List Ticket
  now : Nat
  released : Fin NBUF → Nat

namespace BioUse

def restage (s : BioUse) (t : Ticket) (stage : Stage) : List Ticket :=
  { t with stage := stage } :: s.tickets.erase t

/-- The last reference to a buffer goes. -/
def finish (s : BioUse) (b : Fin NBUF) (cache : Bcache) (tickets : List Ticket) : BioUse :=
  if (cache.buf b).refcnt = 0 then
    ⟨cache, tickets, s.now + 1, update s.released b (s.now + 1)⟩
  else ⟨cache, tickets, s.now, s.released⟩

end BioUse

inductive BioAct where
  | bget (pid dev blockno : Nat)
  | lock (t : Ticket)
  | touch (t : Ticket) (stage : Stage) (valid dirty : Bool) (data : Block)
  | unlock (t : Ticket)
  | drop (t : Ticket)

/-- The steps. Who has the lock of a buffer may change its flags and its content. -/
inductive BioUse.Step : BioUse → BioAct → BioUse → Prop where
  | taken {s : BioUse} {pid dev blockno : Nat} {b : Fin NBUF} {c : Bcache} :
      (bget dev blockno).run s.cache = .ok b c →
      Step s (.bget pid dev blockno) { s with cache := c, tickets := ⟨pid, b, .waiting⟩ :: s.tickets }
  | locked {s : BioUse} {t : Ticket} {c : Bcache} : t ∈ s.tickets → t.stage = .waiting →
      (acquiresleep t.pid t.buf).run s.cache = .ok () c →
      Step s (.lock t) { s with cache := c, tickets := s.restage t .locked }
  | touched {s : BioUse} {t : Ticket} {stage : Stage} {valid dirty : Bool} {data : Block} :
      t ∈ s.tickets → t.stage.holds = true → stage.holds = true →
      Step s (.touch t stage valid dirty data) { s with
        cache := s.cache.setBuf t.buf
          { s.cache.buf t.buf with valid := valid, dirty := dirty, data := data }
        tickets := s.restage t stage }
  | unlocked {s : BioUse} {t : Ticket} {c : Bcache} : t ∈ s.tickets → t.stage.holds = true →
      (brelseUnlock t.pid t.buf).run s.cache = .ok () c →
      Step s (.unlock t) { s with cache := c, tickets := s.restage t .leaving }
  | dropped {s : BioUse} {t : Ticket} {c : Bcache} : t ∈ s.tickets → t.stage = .leaving →
      (brelseDrop t.buf).run s.cache = .ok () c →
      Step s (.drop t) (s.finish t.buf c (s.tickets.erase t))

/-- The list of the cache, from the most recently used buffer on. -/
structure Bcache.Ordered (c : Bcache) (xs : List (Fin NBUF)) : Prop where
  around : c.links.Around .head (xs.map .buf)
  all : ∀ b, b ∈ xs

namespace Bcache.Ordered
variable {c : Bcache} {xs : List (Fin NBUF)}

theorem nodup (ordered : c.Ordered xs) : xs.Nodup :=
  List.Nodup.of_map _ (List.nodup_cons.mp ordered.around.once).2

theorem length (ordered : c.Ordered xs) : (xs.map Node.buf).length < NBUF + 1 := by
  have card := ordered.nodup.length_le_card
  rw [Fintype.card_fin] at card
  rw [List.length_map]
  omega

theorem seek_next (ordered : c.Ordered xs) (test : Node → Bool) :
    Ring.seek c.links.next .head test (NBUF + 1) (c.links.next .head) =
      some ((xs.find? fun b => test (.buf b)).map .buf) := by
  rw [Ring.seek_path test ordered.around.forward (List.nodup_cons.mp ordered.around.once).1
    ordered.length, List.find?_map]
  rfl

theorem seek_prev (ordered : c.Ordered xs) (test : Node → Bool) :
    Ring.seek c.links.prev .head test (NBUF + 1) (c.links.prev .head) =
      some ((xs.reverse.find? fun b => test (.buf b)).map .buf) := by
  have away : Node.head ∉ (xs.map Node.buf).reverse := by
    rw [List.mem_reverse]
    exact (List.nodup_cons.mp ordered.around.once).1
  have enough := ordered.length
  rw [← List.length_reverse] at enough
  rw [Ring.seek_path test ordered.around.backward away enough, ← List.map_reverse, List.find?_map]
  rfl

end Bcache.Ordered

/-- The buffer is last among those that nobody uses, and gets the block. -/
structure Recycled (c : Bcache) (xs : List (Fin NBUF)) (dev blockno : Nat) (b : Fin NBUF)
    (c' : Bcache) : Prop where
  absent : ∀ x, ¬ ((c.buf x).dev = dev ∧ (c.buf x).blockno = blockno)
  idle : (c.buf b).refcnt = 0
  clean : (c.buf b).dirty = false
  last : ∃ l r, xs = l ++ b :: r ∧ ∀ x ∈ r, ¬ ((c.buf x).refcnt = 0 ∧ (c.buf x).dirty = false)
  is : c' = c.setBuf b { c.buf b with
    dev := dev, blockno := blockno, valid := false, dirty := false, refcnt := 1 }

/-- The block was there. -/
structure Hit (c : Bcache) (dev blockno : Nat) (b : Fin NBUF) (c' : Bcache) : Prop where
  dev : (c.buf b).dev = dev
  blockno : (c.buf b).blockno = blockno
  is : c' = c.setBuf b { c.buf b with refcnt := (c.buf b).refcnt + 1 }

theorem bget_spec {c : Bcache} {xs : List (Fin NBUF)} (ordered : c.Ordered xs) (dev blockno : Nat) :
    Sat (bget dev blockno) c
      (fun b c' => Hit c dev blockno b c' ∨ Recycled c xs dev blockno b c')
      (fun e c' => e = .panic "bget: no buffers" ∧ c' = c) := by
  rw [bget, sat_bind, sat_get, ordered.seek_next]
  cases found : xs.find? fun b => c.has dev blockno (.buf b) with
  | some b =>
    have here := List.find?_some found
    simp only [Bcache.has, decide_eq_true_eq] at here
    exact Or.inl ⟨here.1, here.2, rfl⟩
  | none =>
    have absent : ∀ x, ¬ ((c.buf x).dev = dev ∧ (c.buf x).blockno = blockno) := by
      intro x
      have other := List.find?_eq_none.mp found x (ordered.all x)
      simpa [Bcache.has] using other
    rw [Option.map_none]
    dsimp only
    rw [bgetRecycle, sat_bind, sat_get, ordered.seek_prev]
    cases recycled : xs.reverse.find? fun b => c.unused (.buf b) with
    | none => exact ⟨rfl, rfl⟩
    | some b =>
      obtain ⟨free, l, r, split, busy⟩ := List.find?_eq_some_iff_append.mp recycled
      simp only [Bcache.unused, decide_eq_true_eq] at free
      refine Or.inr ⟨absent, free.1, free.2, ⟨r.reverse, l.reverse, ?_, fun x member => ?_⟩, rfl⟩
      · rw [← List.reverse_reverse xs, split, List.reverse_append, List.reverse_cons,
          List.append_assoc, List.singleton_append]
      · have used := busy x (List.mem_reverse.mp member)
        rwa [Bcache.unused, Bool.not_eq_true', decide_eq_false_iff_not] at used

/-- What the cache is at any time. Buffers that were released stand before those
released earlier and those that never were. -/
structure BioUse.Sound (s : BioUse) : Prop where
  order : ∃ xs, s.cache.Ordered xs ∧
    xs.Pairwise fun x y => s.released y < s.released x ∨ s.released y = 0
  keys : ∀ b c, b ≠ c → (s.cache.buf b).dev = (s.cache.buf c).dev →
    (s.cache.buf b).blockno = (s.cache.buf c).blockno →
    (s.cache.buf b).dev = 0 ∧ (s.cache.buf b).blockno = 0
  refs : ∀ b, (s.cache.buf b).refcnt = s.tickets.countP fun t => t.buf = b
  past : ∀ b, s.released b ≤ s.now
  holder : ∀ t ∈ s.tickets, t.stage.holds = true → (s.cache.buf t.buf).lock = some t.pid
  single : ∀ b, (s.tickets.countP fun t => t.buf = b ∧ t.stage.holds = true) =
    if (s.cache.buf b).lock = none then 0 else 1

theorem Bcache.setBuf_apply (c : Bcache) (b : Fin NBUF) (buf : Buf) (x : Fin NBUF) :
    (c.setBuf b buf).buf x = if x = b then buf else c.buf x := update_apply _ _ _ _

theorem Bcache.Ordered.setBuf {c : Bcache} {xs : List (Fin NBUF)} (ordered : c.Ordered xs)
    (b : Fin NBUF) (buf : Buf) : (c.setBuf b buf).Ordered xs := ⟨ordered.around, ordered.all⟩

theorem acquiresleep_spec (c : Bcache) (pid : Nat) (b : Fin NBUF) :
    Sat (acquiresleep pid b) c (fun _ c' => (c.buf b).lock = none ∧
      c' = c.setBuf b { c.buf b with lock := some pid }) (fun e c' => e = .sleep ∧ c' = c) := by
  rw [acquiresleep, sat_bind, sat_get]
  split
  · exact ⟨rfl, rfl⟩
  · rename_i free
    exact ⟨free, rfl⟩

theorem brelseUnlock_spec (c : Bcache) (pid : Nat) (b : Fin NBUF) :
    Sat (brelseUnlock pid b) c (fun _ c' => (c.buf b).lock = some pid ∧
      c' = c.setBuf b { c.buf b with lock := none })
      (fun e c' => e = .panic "brelse" ∧ (c.buf b).lock ≠ some pid ∧ c' = c) := by
  rw [brelseUnlock, sat_bind, sat_get]
  split
  · rename_i other
    exact ⟨rfl, other, rfl⟩
  · rename_i mine
    exact ⟨not_not.mp mine, rfl⟩

/-- A buffer whose last reference goes moves to the front. -/
theorem brelseDrop_spec {c : Bcache} {xs : List (Fin NBUF)} (ordered : c.Ordered xs) (b : Fin NBUF) :
    Sat (brelseDrop b) c (fun _ c' =>
      c'.buf = (c.setBuf b { c.buf b with refcnt := (c.buf b).refcnt - 1 }).buf ∧
      if (c.buf b).refcnt - 1 = 0 then ∃ l r, xs = l ++ b :: r ∧ c'.Ordered (b :: (l ++ r))
      else c'.Ordered xs) (fun _ _ => False) := by
  simp only [brelseDrop, modifyBuf, sat_bind, sat_modify, sat_get]
  rw [Bcache.setBuf_apply, if_pos rfl]
  dsimp only
  split
  · refine ⟨rfl, ?_⟩
    obtain ⟨l, r, rfl⟩ := List.append_of_mem (ordered.all b)
    have around := ordered.around
    rw [List.map_append, List.map_cons] at around
    have out := around.unlink
    have apart : Node.buf b ∉ Node.head :: (l.map Node.buf ++ r.map .buf) := by
      intro member
      obtain same | member := List.mem_cons.mp member
      · cases same
      · rw [← List.map_append, List.mem_map] at member
        obtain ⟨x, inside, same⟩ := member
        obtain rfl := Node.buf.inj same
        have once := ordered.nodup
        rw [List.nodup_middle] at once
        exact (List.nodup_cons.mp once).1 inside
    refine ⟨l, r, rfl, ?_, fun x => ?_⟩
    · rw [List.map_cons, List.map_append]
      exact out.push apart
    · have member := ordered.all x
      simp only [List.mem_append, List.mem_cons] at member ⊢
      tauto
  · exact ⟨rfl, ordered.setBuf _ _⟩

namespace BioUse
variable {s : BioUse} {t : Ticket}

theorem countP_restage (member : t ∈ s.tickets) (stage : Stage) (test : Ticket → Bool) :
    (s.restage t stage).countP test + (if test t then 1 else 0) =
      s.tickets.countP test + if test { t with stage := stage } then 1 else 0 := by
  have pos : (if test t then 1 else 0) ≤ s.tickets.countP test := by
    split
    · rename_i passes
      exact List.countP_pos_iff.mpr ⟨t, member, passes⟩
    · exact Nat.zero_le _
  rw [restage, List.countP_cons, List.countP_erase]
  simp only [member, true_and]
  omega

theorem countP_erase (member : t ∈ s.tickets) (test : Ticket → Bool) :
    (s.tickets.erase t).countP test + (if test t then 1 else 0) = s.tickets.countP test := by
  have pos : (if test t then 1 else 0) ≤ s.tickets.countP test := by
    split
    · rename_i passes
      exact List.countP_pos_iff.mpr ⟨t, member, passes⟩
    · exact Nat.zero_le _
  rw [List.countP_erase]
  simp only [member, true_and]
  omega

namespace Sound

/-- A holder is the only one. -/
theorem locked (sound : s.Sound) (member : t ∈ s.tickets) (holds : t.stage.holds = true) :
    (s.tickets.countP fun u => u.buf = t.buf ∧ u.stage.holds = true) = 1 := by
  rw [sound.single t.buf, if_neg]
  rw [sound.holder t member holds]
  nofun

theorem alone (sound : s.Sound) (member : t ∈ s.tickets) (holds : t.stage.holds = true) {u : Ticket}
    (other : u ∈ s.tickets.erase t) (here : u.buf = t.buf) : u.stage.holds = false := by
  have one := sound.locked member holds
  have count := countP_erase member fun u => u.buf = t.buf ∧ u.stage.holds = true
  by_contra held
  -- A second holder would be counted beside this one.
  have second : 0 < (s.tickets.erase t).countP fun u => u.buf = t.buf ∧ u.stage.holds = true :=
    List.countP_pos_iff.mpr ⟨u, other, by simp [here, Bool.eq_true_of_not_eq_false held]⟩
  simp only [holds, and_self, decide_true, if_true] at count
  omega

theorem taken (sound : s.Sound) (pid : Nat) {dev blockno : Nat} {b : Fin NBUF} {c : Bcache}
    (run : (bget dev blockno).run s.cache = .ok b c) :
    Sound { s with cache := c, tickets := ⟨pid, b, .waiting⟩ :: s.tickets } := by
  obtain ⟨xs, ordered, sorted⟩ := sound.order
  -- The reference is new in both cases, and the lock is as it was.
  have rest : ∀ buf : Buf, c = s.cache.setBuf b buf → buf.lock = (s.cache.buf b).lock →
      buf.refcnt = (s.cache.buf b).refcnt + 1 →
      (∀ x y, x ≠ y → (c.buf x).dev = (c.buf y).dev → (c.buf x).blockno = (c.buf y).blockno →
        (c.buf x).dev = 0 ∧ (c.buf x).blockno = 0) →
      Sound { s with cache := c, tickets := ⟨pid, b, .waiting⟩ :: s.tickets } := by
    rintro buf rfl lock refcnt keys
    have locks : ∀ x, ((s.cache.setBuf b buf).buf x).lock = (s.cache.buf x).lock := by
      intro x
      rw [Bcache.setBuf_apply]
      split
      · rename_i here
        rw [here, lock]
      · rfl
    constructor
    · exact ⟨xs, ordered.setBuf b buf, sorted⟩
    · exact keys
    · intro x
      dsimp only
      rw [List.countP_cons, ← sound.refs x, Bcache.setBuf_apply]
      by_cases here : x = b
      · subst here
        simp [refcnt]
      · simp [here, Ne.symm here]
    · exact sound.past
    · intro u member holds
      dsimp only
      rw [locks]
      obtain rfl | member := List.mem_cons.mp member
      · cases holds
      · exact sound.holder u member holds
    · intro x
      dsimp only
      rw [List.countP_cons, sound.single x, locks]
      simp [Stage.holds]
  rcases (bget_spec ordered dev blockno).of_ok run with hit | recycled
  · refine rest _ hit.is rfl rfl fun x y => ?_
    have same : ∀ z, (c.buf z).dev = (s.cache.buf z).dev ∧ (c.buf z).blockno = (s.cache.buf z).blockno := by
      intro z
      rw [hit.is, Bcache.setBuf_apply]
      split
      · rename_i here
        rw [here]
        exact ⟨rfl, rfl⟩
      · exact ⟨rfl, rfl⟩
    rw [(same x).1, (same x).2, (same y).1, (same y).2]
    exact sound.keys x y
  · refine rest _ recycled.is rfl (by rw [recycled.idle]) fun x y ne dev_ blockno_ => ?_
    rw [recycled.is, Bcache.setBuf_apply, Bcache.setBuf_apply] at dev_ blockno_
    rw [recycled.is, Bcache.setBuf_apply]
    split at dev_
    · rename_i here
      rw [if_pos here] at blockno_
      rw [if_neg fun there => ne (here.trans there.symm)] at dev_ blockno_
      exact absurd ⟨dev_.symm, blockno_.symm⟩ (recycled.absent y)
    · rename_i other
      rw [if_neg other] at blockno_ ⊢
      split at dev_
      · rename_i there
        rw [if_pos there] at blockno_
        exact absurd ⟨dev_, blockno_⟩ (recycled.absent x)
      · rename_i away
        rw [if_neg away] at blockno_
        exact sound.keys x y ne dev_ blockno_

/-- A step that only touches the lock, the flags or the content of a buffer. -/
theorem restaged (sound : s.Sound) (member : t ∈ s.tickets) {buf : Buf} {stage : Stage}
    (dev : buf.dev = (s.cache.buf t.buf).dev) (blockno : buf.blockno = (s.cache.buf t.buf).blockno)
    (refcnt : buf.refcnt = (s.cache.buf t.buf).refcnt)
    (holder : stage.holds = true → buf.lock = some t.pid)
    (others : ∀ u ∈ s.tickets.erase t, u.buf = t.buf → u.stage.holds = true →
      buf.lock = some u.pid)
    (single : (s.tickets.countP fun u => u.buf = t.buf ∧ u.stage.holds = true) +
        (if stage.holds then 1 else 0) =
      (if buf.lock = none then 0 else 1) + if t.stage.holds then 1 else 0) :
    Sound { s with cache := s.cache.setBuf t.buf buf, tickets := s.restage t stage } := by
  obtain ⟨xs, ordered, sorted⟩ := sound.order
  have same : ∀ z, ((s.cache.setBuf t.buf buf).buf z).dev = (s.cache.buf z).dev ∧
      ((s.cache.setBuf t.buf buf).buf z).blockno = (s.cache.buf z).blockno ∧
      ((s.cache.setBuf t.buf buf).buf z).refcnt = (s.cache.buf z).refcnt := by
    intro z
    rw [Bcache.setBuf_apply]
    split
    · rename_i here
      rw [here]
      exact ⟨dev, blockno, refcnt⟩
    · exact ⟨rfl, rfl, rfl⟩
  constructor
  · exact ⟨xs, ordered.setBuf _ _, sorted⟩
  · intro x y
    dsimp only
    rw [(same x).1, (same x).2.1, (same y).1, (same y).2.1]
    exact sound.keys x y
  · intro x
    dsimp only
    have count := countP_restage member stage fun u => u.buf = x
    dsimp only at count
    rw [(same x).2.2, sound.refs x]
    omega
  · exact sound.past
  · intro u inside holds
    dsimp only
    rw [Bcache.setBuf_apply]
    obtain rfl | old := List.mem_cons.mp inside
    · rw [if_pos rfl]
      exact holder holds
    · split
      · rename_i here
        exact others u old here holds
      · exact sound.holder u (List.mem_of_mem_erase old) holds
  · intro x
    dsimp only
    have count := countP_restage member stage fun u => u.buf = x ∧ u.stage.holds = true
    dsimp only at count
    rw [Bcache.setBuf_apply]
    by_cases here : x = t.buf
    · subst here
      simp only [true_and, Bool.decide_eq_true] at count single
      rw [if_pos rfl]
      simp only [Bool.decide_and, Bool.decide_eq_true] at count single ⊢
      omega
    · have ne : t.buf ≠ x := fun same => here same.symm
      simp only [ne, false_and, decide_false, Bool.false_eq_true, if_false, add_zero] at count
      rw [if_neg here, ← sound.single x, count]

theorem acquired (sound : s.Sound) (member : t ∈ s.tickets) (waits : t.stage = .waiting)
    {c : Bcache} (run : (acquiresleep t.pid t.buf).run s.cache = .ok () c) :
    Sound { s with cache := c, tickets := s.restage t .locked } := by
  obtain ⟨free, rfl⟩ := (acquiresleep_spec s.cache t.pid t.buf).of_ok run
  refine sound.restaged member rfl rfl rfl (fun _ => rfl) (fun u old here holds => ?_) ?_
  · have lock := sound.holder u (List.mem_of_mem_erase old) holds
    rw [here, free] at lock
    cases lock
  · rw [sound.single t.buf, if_pos free, waits]
    rfl

theorem touched (sound : s.Sound) (member : t ∈ s.tickets) (holds : t.stage.holds = true)
    (stage : Stage) (held : stage.holds = true) (valid dirty : Bool) (data : Block) :
    Sound { s with
      cache := s.cache.setBuf t.buf
        { s.cache.buf t.buf with valid := valid, dirty := dirty, data := data }
      tickets := s.restage t stage } := by
  refine sound.restaged member rfl rfl rfl (fun _ => sound.holder t member holds)
    (fun u old here holds => ?_) ?_
  · rw [← here]
    exact sound.holder u (List.mem_of_mem_erase old) holds
  · rw [sound.single t.buf, holds, held]

theorem released (sound : s.Sound) (member : t ∈ s.tickets) (holds : t.stage.holds = true)
    {c : Bcache} (run : (brelseUnlock t.pid t.buf).run s.cache = .ok () c) :
    Sound { s with cache := c, tickets := s.restage t .leaving } := by
  obtain ⟨_, rfl⟩ := (brelseUnlock_spec s.cache t.pid t.buf).of_ok run
  refine sound.restaged member rfl rfl rfl nofun (fun u old here holds' => ?_) ?_
  · rw [sound.alone member holds old here] at holds'
    cases holds'
  · rw [sound.locked member holds, holds]
    rfl

theorem dropped (sound : s.Sound) (member : t ∈ s.tickets) (leaves : t.stage = .leaving)
    {c : Bcache} (run : (brelseDrop t.buf).run s.cache = .ok () c) :
    Sound (s.finish t.buf c (s.tickets.erase t)) := by
  obtain ⟨xs, ordered, sorted⟩ := sound.order
  obtain ⟨bufs, placed⟩ := (brelseDrop_spec ordered t.buf).of_ok run
  have buf : ∀ x, c.buf x = if x = t.buf then
      { s.cache.buf t.buf with refcnt := (s.cache.buf t.buf).refcnt - 1 } else s.cache.buf x := by
    intro x
    rw [bufs, Bcache.setBuf_apply]
  have same : ∀ z, (c.buf z).dev = (s.cache.buf z).dev ∧
      (c.buf z).blockno = (s.cache.buf z).blockno ∧ (c.buf z).lock = (s.cache.buf z).lock := by
    intro z
    rw [buf z]
    split
    · rename_i here
      rw [here]
      exact ⟨rfl, rfl, rfl⟩
    · exact ⟨rfl, rfl, rfl⟩
  have refs : ∀ x, (c.buf x).refcnt = (s.tickets.erase t).countP fun u => u.buf = x := by
    intro x
    have count := countP_erase member fun u => u.buf = x
    have before := sound.refs x
    rw [buf x]
    by_cases here : x = t.buf
    · subst here
      simp only [decide_true, if_true] at count ⊢
      omega
    · have ne : t.buf ≠ x := fun same => here same.symm
      simp only [ne, decide_false, Bool.false_eq_true, if_false, add_zero] at count
      rw [if_neg here, count, before]
  have keys : ∀ x y, x ≠ y → (c.buf x).dev = (c.buf y).dev → (c.buf x).blockno = (c.buf y).blockno →
      (c.buf x).dev = 0 ∧ (c.buf x).blockno = 0 := by
    intro x y
    rw [(same x).1, (same x).2.1, (same y).1, (same y).2.1]
    exact sound.keys x y
  have holder : ∀ u ∈ s.tickets.erase t, u.stage.holds = true → (c.buf u.buf).lock = some u.pid := by
    intro u old holds
    rw [(same u.buf).2.2]
    exact sound.holder u (List.mem_of_mem_erase old) holds
  have single : ∀ x, ((s.tickets.erase t).countP fun u => u.buf = x ∧ u.stage.holds = true) =
      if (c.buf x).lock = none then 0 else 1 := by
    intro x
    have count := countP_erase member fun u => u.buf = x ∧ u.stage.holds = true
    have loose : t.stage.holds = false := by rw [leaves]; rfl
    simp only [loose, Bool.false_eq_true, and_false, decide_false, if_false, add_zero] at count
    rw [(same x).2.2, ← sound.single x, count]
  have last : (c.buf t.buf).refcnt = (s.cache.buf t.buf).refcnt - 1 := by rw [buf, if_pos rfl]
  rw [finish, last]
  by_cases final : (s.cache.buf t.buf).refcnt - 1 = 0
  · rw [if_pos final] at placed ⊢
    obtain ⟨l, r, rfl, moved⟩ := placed
    refine ⟨⟨_, moved, ?_⟩, keys, refs, fun x => ?_, holder, single⟩
    · have once := ordered.nodup
      rw [List.nodup_middle] at once
      have fresh := (List.nodup_cons.mp once).1
      have rest := sorted.sublist ((List.sublist_append_right [t.buf] r).append_left l)
      refine List.pairwise_cons.mpr ⟨fun y inside => ?_, rest.imp_of_mem ?_⟩
      · left
        have ne : y ≠ t.buf := fun same => fresh (same ▸ inside)
        have past := sound.past y
        dsimp only
        rw [update_self, update_of_ne ne]
        omega
      · intro x y hx hy before
        have nx : x ≠ t.buf := fun same => fresh (same ▸ hx)
        have ny : y ≠ t.buf := fun same => fresh (same ▸ hy)
        dsimp only
        rwa [update_of_ne nx, update_of_ne ny]
    · have past := sound.past x
      dsimp only
      rw [update_apply]
      split <;> omega
  · rw [if_neg final] at placed ⊢
    exact ⟨⟨xs, placed, sorted⟩, keys, refs, sound.past, holder, single⟩

theorem keeps : Keeps Step Sound := by
  intro s act s' step sound
  cases step with
  | taken run => exact sound.taken _ run
  | locked member waits run => exact sound.acquired member waits run
  | touched member holds held => exact sound.touched member holds _ held _ _ _
  | unlocked member holds run => exact sound.released member holds run
  | dropped member leaves run => exact sound.dropped member leaves run

end Sound

/-- The cache after `binit`: the buffers are all zero, as they are in the image. -/
def boot (links : Ring.Links Node) : BioUse where
  cache := binit ⟨fun _ => ⟨false, false, 0, 0, 0, none, fun _ => 0⟩, links⟩
  tickets := []
  now := 0
  released _ := 0

end BioUse

/-- The loop of `binit`. -/
theorem around_pushes (bs : List (Fin NBUF)) {links : Ring.Links Node} {xs : List (Fin NBUF)}
    (around : links.Around .head (xs.map .buf)) (once : (bs ++ xs).Nodup) :
    (bs.foldl (fun links b => links.push .head (.buf b)) links).Around .head
      ((bs.reverse ++ xs).map .buf) := by
  induction bs generalizing links xs with
  | nil => exact around
  | cons b bs ih =>
    obtain ⟨fresh, once⟩ := List.nodup_cons.mp once
    have apart : Node.buf b ∉ Node.head :: xs.map .buf := by
      simp only [List.mem_cons, reduceCtorEq, List.mem_map, Node.buf.injEq, exists_eq_right, false_or]
      exact fun member => fresh (List.mem_append_right bs member)
    have pushed : (links.push .head (.buf b)).Around .head ((b :: xs).map .buf) := around.push apart
    rw [List.reverse_cons, List.append_assoc]
    refine ih pushed ?_
    rw [List.singleton_append, List.nodup_middle]
    exact List.nodup_cons.mpr ⟨fresh, once⟩

theorem BioUse.boot_sound (links : Ring.Links Node) : (BioUse.boot links).Sound := by
  have start : (⟨update links.next .head .head,
      update links.prev .head .head⟩ : Ring.Links Node).Around .head
      (([] : List (Fin NBUF)).map .buf) := by
    refine ⟨?_, ?_, List.nodup_singleton _⟩
    · exact update_self Node.head Node.head links.next
    · exact update_self Node.head Node.head links.prev
  have around := around_pushes (List.finRange NBUF) start
    (by rw [List.append_nil]; exact List.nodup_finRange NBUF)
  rw [List.append_nil] at around
  constructor
  · refine ⟨_, ⟨around, fun b => List.mem_reverse.mpr (List.mem_finRange b)⟩, ?_⟩
    exact List.pairwise_of_forall fun _ _ => Or.inr rfl
  · exact fun _ _ _ _ _ => ⟨rfl, rfl⟩
  · exact fun _ => rfl
  · exact fun _ => le_rfl
  · exact fun _ member => absurd member List.not_mem_nil
  · exact fun _ => rfl

namespace BioUse

/-- The processes that have the lock of a buffer, wait for it, or are between the
two parts of `brelse`. -/
def holders (s : BioUse) (b : Fin NBUF) : Nat := s.tickets.countP fun t => t.buf = b ∧ t.stage.holds = true

def waiters (s : BioUse) (b : Fin NBUF) : Nat := s.tickets.countP fun t => t.buf = b ∧ t.stage = .waiting

def leavers (s : BioUse) (b : Fin NBUF) : Nat := s.tickets.countP fun t => t.buf = b ∧ t.stage = .leaving

theorem countP_stages (ts : List Ticket) (b : Fin NBUF) :
    (ts.countP fun t => t.buf = b) = (ts.countP fun t => t.buf = b ∧ t.stage.holds = true) +
      (ts.countP fun t => t.buf = b ∧ t.stage = .waiting) +
      ts.countP fun t => t.buf = b ∧ t.stage = .leaving := by
  induction ts with
  | nil => rfl
  | cons t ts ih =>
    simp only [List.countP_cons, ih]
    by_cases here : t.buf = b
    · cases stage : t.stage <;> simp [here, Stage.holds] <;> omega
    · simp [here]

end BioUse

/-- After any sequence of requests and releases the links lead once around through
every buffer and back, no block is in two buffers, the counts of references are those
of the processes, and the buffers stand in the order in which they were released for
good, latest first. A block that is in no buffer gets the one among those that are
unused and not pinned whose release lies furthest back. -/
theorem buffer_cache_order (links : Ring.Links Node) {acts : List BioAct} {s : BioUse}
    (run : Run BioUse.Step (BioUse.boot links) acts s) :
    (∃ xs : List (Fin NBUF), xs.Nodup ∧ (∀ b, b ∈ xs) ∧
      Ring.Path s.cache.links.next .head (xs.map .buf) .head ∧
      xs.Pairwise fun x y => s.released y < s.released x ∨ s.released y = 0) ∧
    (∀ n, s.cache.links.prev (s.cache.links.next n) = n ∧
      s.cache.links.next (s.cache.links.prev n) = n) ∧
    (∀ b c, b ≠ c → (s.cache.buf b).dev = (s.cache.buf c).dev →
      (s.cache.buf b).blockno = (s.cache.buf c).blockno →
      (s.cache.buf b).dev = 0 ∧ (s.cache.buf b).blockno = 0) ∧
    (∀ b, (s.cache.buf b).refcnt = s.holders b + s.waiters b + s.leavers b) ∧
    (∀ dev blockno b c, (bget dev blockno).run s.cache = .ok b c →
      (c.buf b).dev = dev ∧ (c.buf b).blockno = blockno ∧
      ((∀ x, ¬ ((s.cache.buf x).dev = dev ∧ (s.cache.buf x).blockno = blockno)) →
        (s.cache.buf b).refcnt = 0 ∧ (s.cache.buf b).dirty = false ∧
        ∀ x, x ≠ b → (s.cache.buf x).refcnt = 0 → (s.cache.buf x).dirty = false →
          s.released b < s.released x ∨ s.released b = 0)) := by
  have sound := run.kept BioUse.Sound.keeps (BioUse.boot_sound links)
  obtain ⟨xs, ordered, sorted⟩ := sound.order
  have node : ∀ n, n ∈ Node.head :: xs.map .buf := by
    intro n
    cases n with
    | head => exact List.mem_cons_self
    | buf b => exact List.mem_cons_of_mem _ (List.mem_map_of_mem (ordered.all b))
  refine ⟨⟨xs, ordered.nodup, ordered.all, ordered.around.forward, sorted⟩, fun n => ?_, sound.keys,
    fun b => ?_, fun dev blockno b c got => ?_⟩
  · exact ⟨ordered.around.prev_next (node n), ordered.around.next_prev (node n)⟩
  · rw [sound.refs b]
    exact BioUse.countP_stages s.tickets b
  · rcases (bget_spec ordered dev blockno).of_ok got with hit | recycled
    · rw [hit.is, Bcache.setBuf_apply, if_pos rfl]
      exact ⟨hit.dev, hit.blockno, fun absent => absurd ⟨hit.dev, hit.blockno⟩ (absent b)⟩
    · refine ⟨?_, ?_, fun _ => ⟨recycled.idle, recycled.clean, fun x ne idle clean => ?_⟩⟩
      · rw [recycled.is, Bcache.setBuf_apply, if_pos rfl]
      · rw [recycled.is, Bcache.setBuf_apply, if_pos rfl]
      · obtain ⟨l, r, rfl, busy⟩ := recycled.last
        rcases List.mem_append.mp (ordered.all x) with before | after
        · exact (List.pairwise_append.mp sorted).2.2 x before b List.mem_cons_self
        · obtain same | after := List.mem_cons.mp after
          · exact absurd same ne
          · exact absurd ⟨idle, clean⟩ (busy x after)

/-- A process reads block 2 and gives it back: its buffer is then the first. -/
theorem released_buffer_first : ∃ acts s,
    Run BioUse.Step (BioUse.boot ⟨fun _ => .head, fun _ => .head⟩) acts s ∧
    s.cache.links.next .head = .buf 0 ∧ (s.cache.buf 0).refcnt = 0 ∧
    s.cache.links.prev (s.cache.links.next .head) = .head := by
  have run : ∃ acts s, Run BioUse.Step (BioUse.boot ⟨fun _ => .head, fun _ => .head⟩) acts s ∧
      s.cache.links.next .head = .buf 0 ∧ (s.cache.buf 0).refcnt = 0 := by
    refine ⟨_, _, .next (@BioUse.Step.taken _ 3 ROOTDEV 2 0 _ (run_of_value (by decide +kernel))) (.next
      (.locked (t := ⟨3, 0, .waiting⟩) List.mem_cons_self rfl (run_of_value (by decide +kernel))) (.next
      (.unlocked (t := ⟨3, 0, .locked⟩) List.mem_cons_self rfl (run_of_value (by decide +kernel)))
      (.next (.dropped (t := ⟨3, 0, .leaving⟩) List.mem_cons_self rfl
        (run_of_value (by decide +kernel))) (.refl _)))), ?_, ?_⟩
    · decide +kernel
    · decide +kernel
  obtain ⟨acts, s, run, first, idle⟩ := run
  exact ⟨acts, s, run, first, idle, ((buffer_cache_order _ run).2.1 .head).1⟩

end Xv6
