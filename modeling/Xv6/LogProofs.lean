import Xv6.Log
import Xv6.Lib.Writes

/-! What the routines of the log write to disk, in order. A routine that the power
failure stops has made a part of its writes, from the first one on. -/
namespace Xv6
open Control
open Function (update update_eq_self update_of_ne update_self)

/-- What `bread` returns. -/
def Store.peek (s : Store) (blockno : Nat) : Block := (s.cache blockno).getD (s.disk blockno)

/-- The log lies in the same place. -/
def Store.SamePlace (s t : Store) : Prop := t.log.start = s.log.start ∧ t.log.size = s.log.size

/-- The writes have been made, to the disk and to the buffers. -/
structure Wrote (s t : Store) (ws : List (Nat × Block)) : Prop where
  disk : t.disk = Writes.apply ws s.disk
  peek : t.peek = Writes.apply ws s.peek
  power : s.power = none → t.power = none
  place : s.SamePlace t

/-- The power has failed in the middle of the writes. -/
def Lost (s : Store) (ws : List (Nat × Block)) : Stop → Store → Prop := fun e t =>
  e = .crash ∧ s.power ≠ none ∧ (∃ k, t.disk = Writes.apply (ws.take k) s.disk) ∧ s.SamePlace t

section Compose
variable {s t u : Store} {ws vs : List (Nat × Block)}

theorem Wrote.trans (first : Wrote s t ws) (second : Wrote t u vs) : Wrote s u (ws ++ vs) where
  disk := by rw [Writes.apply_append, ← first.disk, second.disk]
  peek := by rw [Writes.apply_append, ← first.peek, second.peek]
  power dead := second.power (first.power dead)
  place := ⟨second.place.1.trans first.place.1, second.place.2.trans first.place.2⟩

/-- A change of the log in memory writes nothing. -/
theorem Wrote.quiet {log : Log} (start : log.start = s.log.start) (size : log.size = s.log.size) :
    Wrote s { s with log := log } [] :=
  ⟨rfl, rfl, id, start, size⟩

theorem Lost.after {e : Stop} (first : Wrote s t ws) (lost : Lost t vs e u) :
    Lost s (ws ++ vs) e u := by
  obtain ⟨crash, powered, ⟨k, disk⟩, place⟩ := lost
  refine ⟨crash, fun dead => powered (first.power dead), ⟨ws.length + k, ?_⟩,
    place.1.trans first.place.1, place.2.trans first.place.2⟩
  rw [List.take_length_add_append, Writes.apply_append, ← first.disk, disk]

theorem Lost.before {e : Stop} (lost : Lost s ws e u) : Lost s (ws ++ vs) e u := by
  obtain ⟨crash, powered, ⟨k, disk⟩, place⟩ := lost
  refine ⟨crash, powered, ⟨min k ws.length, ?_⟩, place⟩
  rw [disk, List.take_append_of_le_length (Nat.min_le_right _ _), ← List.take_take,
    List.take_length]

/-- Two routines, one after the other. -/
theorem sat_writes {α β : Type} {m : L α} {f : α → L β} {Q : α → Store → Prop}
    {Q' : β → Store → Prop} (ws : List (Nat × Block))
    (first : Sat m s (fun a t => Wrote s t ws ∧ Q a t) (Lost s ws))
    (second : ∀ a t, Wrote s t ws → Q a t →
      Sat (f a) t (fun b u => Wrote t u vs ∧ Q' b u) (Lost t vs)) :
    Sat (m >>= f) s (fun b u => Wrote s u (ws ++ vs) ∧ Q' b u) (Lost s (ws ++ vs)) := by
  rw [sat_bind]
  refine first.mono (fun a t done => ?_) (fun e t lost => lost.before)
  exact (second a t done.1 done.2).mono (fun b u next => ⟨done.1.trans next.1, next.2⟩)
    (fun e u lost => lost.after done.1)

end Compose

section Buffers
variable (s : Store) (blockno : Nat)

/-- A new content of a buffer is what is read from now on. -/
theorem Store.peek_update {t : Store} (data : Block)
    (cache : t.cache = update s.cache blockno (some data))
    (disk : ∀ b, b ≠ blockno → t.disk b = s.disk b) :
    t.peek = update s.peek blockno data := by
  funext b
  rw [Store.peek, cache]
  by_cases here : b = blockno
  · rw [here, update_self, update_self, Option.getD_some]
  · rw [update_of_ne here, update_of_ne here, Store.peek, disk b here]

theorem bread_quiet :
    Sat (bread blockno) s (fun data t => data = s.peek blockno ∧ t.disk = s.disk ∧
      t.peek = s.peek ∧ t.power = s.power ∧ t.log = s.log) (fun _ _ => False) := by
  rw [bread, sat_bind, sat_get]
  cases found : s.cache blockno with
  | some data =>
    have same : data = s.peek blockno := by rw [Store.peek, found, Option.getD_some]
    exact ⟨same, rfl, rfl, rfl, rfl⟩
  | none =>
    have same : s.disk blockno = s.peek blockno := by rw [Store.peek, found, Option.getD_none]
    have filled := s.peek_update
      (t := { s with cache := update s.cache blockno (some (s.disk blockno)) })
      blockno (s.disk blockno) rfl fun _ _ => rfl
    refine ⟨same, rfl, filled.trans ?_, rfl, rfl⟩
    rw [same, update_eq_self]

theorem bread_spec :
    Sat (bread blockno) s (fun data t => Wrote s t [] ∧ data = s.peek blockno ∧ t.log = s.log)
      (Lost s []) := by
  refine (bread_quiet s blockno).mono (fun data t read => ?_) (fun _ _ no => no.elim)
  obtain ⟨found, disk, peek, power, log⟩ := read
  exact ⟨⟨disk, peek, power.trans, by rw [log], by rw [log]⟩, found, log⟩

theorem bwrite_spec (data : Block) :
    Sat (bwrite blockno data) s (fun _ t => Wrote s t [(blockno, data)] ∧ t.log = s.log)
      (Lost s [(blockno, data)]) := by
  have disk : ∀ b, b ≠ blockno → update s.disk blockno data b = s.disk b :=
    fun b other => update_of_ne other data s.disk
  rw [bwrite, sat_bind, sat_get]
  cases power : s.power with
  | none => exact ⟨⟨rfl, s.peek_update blockno data rfl disk, fun _ => rfl, rfl, rfl⟩, rfl⟩
  | some k =>
    have powered : s.power ≠ none := by
      rw [power]
      exact nofun
    cases k with
    | zero => exact ⟨rfl, powered, ⟨0, rfl⟩, rfl, rfl⟩
    | succ k =>
      exact ⟨⟨rfl, s.peek_update blockno data rfl disk, fun dead => absurd dead powered, rfl, rfl⟩,
        rfl⟩

end Buffers

/-- The blocks of the log from `tail` on hold what the list says. -/
def Logged (d : Nat → Block) (start tail : Nat) (ws : List (Nat × Block)) : Prop :=
  ∀ j w, ws[j]? = some w → d (start + tail + j + 1) = w.2

theorem Logged.head {d : Nat → Block} {start tail : Nat} {w : Nat × Block}
    {ws : List (Nat × Block)} (logged : Logged d start tail (w :: ws)) :
    d (start + tail + 1) = w.2 := logged 0 w rfl

theorem Logged.tail {d : Nat → Block} {start tail : Nat} {w : Nat × Block}
    {ws : List (Nat × Block)} (logged : Logged d start tail (w :: ws)) :
    Logged d start (tail + 1) ws := by
  intro j v found
  have here := logged (j + 1) v found
  rwa [show start + tail + (j + 1) + 1 = start + (tail + 1) + j + 1 by omega] at here

/-- The block is none of the first `n` blocks of the log. -/
def Outside (start n blockno : Nat) : Prop := ∀ j < n, blockno ≠ start + j + 1

theorem Logged.keep {d : Nat → Block} {start tail n : Nat} {ws : List (Nat × Block)}
    (logged : Logged d start tail ws) (short : tail + ws.length ≤ n) {blockno : Nat}
    (outside : Outside start n blockno) (data : Block) :
    Logged (update d blockno data) start tail ws := by
  intro j w found
  have inside := (List.getElem?_eq_some_iff.mp found).1
  rw [update_of_ne]
  · exact logged j w found
  · intro same
    exact outside (tail + j) (by omega) (by omega)

/-- `install_trans` copies the log blocks to where their entries say. -/
theorem installLoop_spec {start n : Nat} (ws : List (Nat × Block)) (tail : Nat) (s : Store)
    (logged : Logged s.peek start tail ws) (short : tail + ws.length ≤ n)
    (outside : ∀ w ∈ ws, Outside start n w.1) :
    Sat (installLoop start tail (ws.map Prod.fst)) s (fun _ t => Wrote s t ws ∧ t.log = s.log)
      (Lost s ws) := by
  induction ws generalizing tail s with
  | nil => exact ⟨⟨rfl, rfl, id, rfl, rfl⟩, rfl⟩
  | cons w ws ih =>
    rw [List.length_cons] at short
    rw [List.map_cons, installLoop]
    -- The two reads write nothing, and the first one returns the log block.
    refine sat_writes [] (bread_spec s _) fun lbuf t read found => ?_
    obtain ⟨rfl, log⟩ := found
    refine sat_writes [] (bread_spec t _) fun _ u read' found => ?_
    obtain ⟨_, log'⟩ := found
    have peek : u.peek = s.peek := by rw [read'.peek, read.peek]; rfl
    rw [logged.head]
    refine sat_writes [w] (bwrite_spec u w.1 w.2) fun _ v wrote log'' => ?_
    have rest : Logged v.peek start (tail + 1) ws := by
      rw [wrote.peek, Writes.apply_cons, Writes.apply_nil, peek]
      exact logged.tail.keep (by omega) (outside w List.mem_cons_self) w.2
    refine (ih (tail + 1) v rest (by omega) fun x member =>
      outside x (List.mem_cons_of_mem _ member)).mono (fun _ x done => ⟨done.1, ?_⟩)
      (fun _ _ lost => lost)
    rw [done.2, log'', log', log]

/-- The writes of `write_log` from `tail` on. -/
def logWrites (start : Nat) : Nat → List Block → List (Nat × Block)
  | _, [] => []
  | tail, data :: rest => (start + tail + 1, data) :: logWrites start (tail + 1) rest

/-- `write_log` copies the buffers of the entries to the log blocks. -/
theorem writeLogLoop_spec {start n : Nat} (bs : List Nat) (tail : Nat) (s : Store)
    (short : tail + bs.length ≤ n) (outside : ∀ b ∈ bs, Outside start n b) :
    Sat (writeLogLoop start tail bs) s
      (fun _ t => Wrote s t (logWrites start tail (bs.map s.peek)) ∧ t.log = s.log)
      (Lost s (logWrites start tail (bs.map s.peek))) := by
  induction bs generalizing tail s with
  | nil => exact ⟨⟨rfl, rfl, id, rfl, rfl⟩, rfl⟩
  | cons b bs ih =>
    rw [List.length_cons] at short
    rw [writeLogLoop]
    refine sat_writes [] (bread_spec s _) fun _ t read found => ?_
    obtain ⟨_, log⟩ := found
    refine sat_writes [] (bread_spec t _) fun source u read' found => ?_
    obtain ⟨rfl, log'⟩ := found
    have same : t.peek = s.peek := read.peek
    have same' : u.peek = s.peek := read'.peek.trans same
    rw [same]
    refine sat_writes [(start + tail + 1, s.peek b)] (bwrite_spec u _ _)
      fun _ v wrote log'' => ?_
    have sources : bs.map v.peek = bs.map s.peek := by
      refine List.map_congr_left fun x member => ?_
      rw [wrote.peek, Writes.apply_cons, Writes.apply_nil, same', update_of_ne]
      intro hit
      exact outside x (List.mem_cons_of_mem _ member) tail (by omega) (by omega)
    have later := ih (tail + 1) v (by omega) fun x member =>
      outside x (List.mem_cons_of_mem _ member)
    rw [sources] at later
    refine later.imp (fun _ x done => ⟨done.1, ?_⟩)
    rw [done.2, log'', log', log]

theorem writeHead_spec (s : Store) :
    Sat writeHead s
      (fun _ t => Wrote s t [(s.log.start, headBlock (s.peek s.log.start) s.log.lh)] ∧
        t.log = s.log)
      (Lost s [(s.log.start, headBlock (s.peek s.log.start) s.log.lh)]) := by
  rw [writeHead, sat_bind, sat_get]
  refine sat_writes [] (bread_spec s _) fun buf t read found => ?_
  obtain ⟨rfl, log⟩ := found
  refine (bwrite_spec t _ _).imp (fun _ u done => ⟨done.1, ?_⟩)
  rw [done.2, log]

theorem readHead_spec (s : Store) :
    Sat readHead s
      (fun _ t => Wrote s t [] ∧ t.log = { s.log with
        lh := Words.getRow (s.peek s.log.start) 1 (headCount (s.peek s.log.start)) })
      (Lost s []) := by
  rw [readHead, sat_bind, sat_get]
  refine sat_writes [] (bread_spec s _) fun buf t read found => ?_
  obtain ⟨rfl, log⟩ := found
  rw [onLog, sat_zoom, sat_modify, log]
  exact ⟨⟨rfl, rfl, id, by rw [log], by rw [log]⟩, rfl⟩

theorem clearHead_spec (s : Store) :
    Sat clearHead s (fun _ t => Wrote s t [] ∧ t.log = { s.log with lh := [] }) (Lost s []) := by
  rw [clearHead, onLog, sat_zoom, sat_modify]
  exact ⟨Wrote.quiet rfl rfl, rfl⟩

theorem installTrans_spec {start n : Nat} {ws : List (Nat × Block)} {s : Store}
    (at_ : s.log.start = start) (entries : s.log.lh = ws.map Prod.fst)
    (logged : Logged s.peek start 0 ws) (short : ws.length ≤ n)
    (outside : ∀ w ∈ ws, Outside start n w.1) :
    Sat installTrans s (fun _ t => Wrote s t ws ∧ t.log = s.log) (Lost s ws) := by
  subst at_
  rw [installTrans, sat_bind, sat_get]
  dsimp only
  rw [entries]
  exact installLoop_spec ws 0 s logged (by omega) outside

theorem writeLog_spec {start n : Nat} {s : Store} (at_ : s.log.start = start)
    (short : s.log.lh.length ≤ n) (outside : ∀ b ∈ s.log.lh, Outside start n b) :
    Sat writeLog s
      (fun _ t => Wrote s t (logWrites start 0 (s.log.lh.map s.peek)) ∧ t.log = s.log)
      (Lost s (logWrites start 0 (s.log.lh.map s.peek))) := by
  subst at_
  rw [writeLog, sat_bind, sat_get]
  exact writeLogLoop_spec _ 0 s (by omega) outside

/-- The header in memory has room for the block and does not have it yet. -/
theorem logWrite_spec {log : Log} {blockno : Nat} (inOp : 1 ≤ log.outstanding)
    (short : log.lh.length < LOGSIZE) (room : (log.lh.length : Int) < log.size - 1)
    (fresh : blockno ∉ log.lh) :
    Sat (logWrite blockno) log (fun _ t => t = { log with lh := log.lh ++ [blockno] })
      (fun _ _ => False) := by
  rw [logWrite, sat_bind, logWriteCheck, sat_bind, sat_get, if_neg (by omega),
    if_neg (by omega), sat_pure, logWriteRecord, sat_modify, absorb, if_neg fresh]

/-- The blocks are changed in their buffers and entered in the header. -/
structure Changed (s t : Store) (ws : List (Nat × Block)) : Prop where
  disk : t.disk = s.disk
  peek : t.peek = Writes.apply ws s.peek
  power : t.power = s.power
  log : t.log = { s.log with lh := s.log.lh ++ ws.map Prod.fst }

theorem modifyBlock_spec {s : Store} {blockno : Nat} (data : Block) (inOp : 1 ≤ s.log.outstanding)
    (short : s.log.lh.length < LOGSIZE) (room : (s.log.lh.length : Int) < s.log.size - 1)
    (fresh : blockno ∉ s.log.lh) :
    Sat (modifyBlock blockno data) s (fun _ t => Changed s t [(blockno, data)])
      (fun _ _ => False) := by
  rw [modifyBlock]
  refine .bind (bread_quiet s blockno) fun _ t read => ?_
  obtain ⟨_, disk, peek, power, log⟩ := read
  rw [sat_bind, sat_modify, onLog, sat_zoom, log]
  refine (logWrite_spec inOp short room fresh).imp (fun _ u wrote => ?_)
  refine ⟨disk, ?_, power, wrote⟩
  rw [Writes.apply_cons, Writes.apply_nil, ← peek]
  exact t.peek_update blockno data rfl fun _ _ => rfl

theorem modifyBlocks_spec (ws : List (Nat × Block)) (s : Store) (inOp : 1 ≤ s.log.outstanding)
    (short : s.log.lh.length + ws.length ≤ LOGSIZE)
    (room : (s.log.lh.length : Int) + ws.length < s.log.size)
    (once : (s.log.lh ++ ws.map Prod.fst).Nodup) :
    Sat (modifyBlocks ws) s (fun _ t => Changed s t ws) (fun _ _ => False) := by
  induction ws generalizing s with
  | nil =>
    refine ⟨rfl, rfl, rfl, ?_⟩
    rw [List.map_nil, List.append_nil]
  | cons w ws ih =>
    rw [List.length_cons] at short room
    have fresh : w.1 ∉ s.log.lh := fun member =>
      (List.nodup_append.mp once).2.2 _ member _ (List.mem_cons_self) rfl
    rw [modifyBlocks]
    refine .seq (modifyBlock_spec w.2 inOp (by omega) (by omega) fresh) (fun _ t first => ?_)
      (fun _ _ no => no)
    have entries : t.log.lh = s.log.lh ++ [w.1] := by rw [first.log]; rfl
    have length : t.log.lh.length = s.log.lh.length + 1 := by rw [entries]; simp
    refine (ih t (by rw [first.log]; exact inOp) (by omega) ?_ ?_).mono
      (fun _ u rest => ?_) (fun _ _ no => no)
    · rw [length, first.log]
      push_cast at room ⊢
      omega
    · rw [entries, List.append_assoc]
      exact once
    · refine ⟨rest.disk.trans first.disk, ?_, rest.power.trans first.power, ?_⟩
      · rw [rest.peek, first.peek]
        rfl
      · rw [rest.log, first.log]
        simp

end Xv6
