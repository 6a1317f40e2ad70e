import Xv6.Lib.Run
import Xv6.LogProofs

/-! The log makes a transaction atomic across power failures. What a disk means is
what a complete recovery makes of it; every single write of a commit or of a
recovery keeps that meaning, except for the write of the full header, which turns
the old contents into the new ones. -/
namespace Xv6
open Control

/-- A block outside the log area. -/
def Home (start : Nat) (size : Int) (blockno : Nat) : Prop :=
  blockno < start ∨ start + size ≤ blockno

/-- What a group of operations commits: new contents for distinct home blocks, no
more than the log has room for. -/
structure Transaction (start : Nat) (size : Int) where
  writes : List (Nat × Block)
  once : (writes.map Prod.fst).Nodup
  home : ∀ w ∈ writes, Home start size w.1 ∧ w.1 < 2 ^ 32
  short : writes.length ≤ LOGSIZE
  room : (writes.length : Int) < size

variable {start : Nat} {size : Int}

namespace Transaction
variable (T : Transaction start size)

def empty (start : Nat) (positive : 0 < size) : Transaction start size :=
  ⟨[], List.nodup_nil, nofun, Nat.zero_le _, positive⟩

theorem outside {w : Nat × Block} (member : w ∈ T.writes) :
    Outside start T.writes.length w.1 := by
  intro j below same
  have room := T.room
  obtain before | after := (T.home w member).1 <;> omega

theorem notStart {w : Nat × Block} (member : w ∈ T.writes) : w.1 ≠ start := by
  have room := T.room
  intro same
  obtain before | after := (T.home w member).1 <;> omega

end Transaction

section Header
variable (data : Block) {lh : List Nat}

theorem headCount_headBlock (short : lh.length ≤ LOGSIZE) :
    headCount (headBlock data lh) = lh.length := by
  simp only [LOGSIZE, MAXOPBLOCKS] at short
  have count : Words.get (headBlock data lh) 0 = lh.length := by
    rw [headBlock, Words.get_setRow_of_lt _ (by omega), Words.get_set (by norm_num) (by omega)]
  rw [headCount, count, if_pos (by omega)]

theorem headRow_headBlock (short : lh.length ≤ LOGSIZE) (small : ∀ b ∈ lh, b < 2 ^ 32) :
    Words.getRow (headBlock data lh) 1 (headCount (headBlock data lh)) = lh := by
  rw [headCount_headBlock data short]
  simp only [LOGSIZE, MAXOPBLOCKS] at short
  exact Words.getRow_setRow lh (by simp only [BSIZE]; omega) small

end Header

/-- The header on disk names the blocks of `T` and the log holds their contents. -/
structure Pending (T : Transaction start size) (d : Nat → Block) : Prop where
  head : Words.getRow (d start) 1 (headCount (d start)) = T.writes.map Prod.fst
  logged : Logged d start 0 T.writes

/-- A complete recovery from the disk `d` installs `T` and leaves `h` on the home blocks. -/
structure Means (T : Transaction start size) (d h : Nat → Block) : Prop where
  pending : Pending T d
  home : ∀ b, Home start size b → Writes.apply T.writes d b = h b

/-- Some transaction is pending on the disk, maybe the empty one, and `h` is what
recovery makes of the home blocks. -/
def Recoverable (start : Nat) (size : Int) (h d : Nat → Block) : Prop :=
  ∃ T : Transaction start size, Means T d h

theorem Pending.empty {positive : 0 < size} {d : Nat → Block} :
    Pending (Transaction.empty start positive) d ↔ headCount (d start) = 0 := by
  constructor
  · intro pending
    have none := congrArg List.length pending.head
    simpa [Words.getRow, Transaction.empty] using none
  · intro none
    refine ⟨?_, ?_⟩
    · rw [none]
      rfl
    · intro j w found
      cases found

section Prefixes
variable {T : Transaction start size} {d h : Nat → Block}

/-- The header does not move while the home blocks are written. -/
theorem Pending.installing (pending : Pending T d) (k : Nat) :
    Pending T (Writes.apply (T.writes.take k) d) := by
  constructor
  · rw [Writes.apply_of_notMem fun w member => T.notStart (List.mem_of_mem_take member)]
    exact pending.head
  · intro j w found
    have inside := (List.getElem?_eq_some_iff.mp found).1
    rw [Writes.apply_of_notMem, pending.logged j w found]
    intro v member same
    exact T.outside (List.mem_of_mem_take member) j inside (by omega)

theorem Means.installing (means : Means T d h) (k : Nat) :
    Means T (Writes.apply (T.writes.take k) d) h := by
  refine ⟨means.pending.installing k, fun b home => ?_⟩
  rw [Writes.apply_apply_take]
  exact means.home b home

theorem Home.ne_start (positive : 0 < size) {b : Nat} (home : Home start size b) : b ≠ start := by
  intro same
  obtain before | after := home <;> omega

/-- The writes that install `T` and clear the header. -/
def Transaction.finish (T : Transaction start size) (data : Block) : List (Nat × Block) :=
  T.writes ++ [(start, headBlock data [])]

/-- Clearing the header once everything is installed. -/
theorem Means.finished (means : Means T d h) (positive : 0 < size) (data : Block) :
    Means (Transaction.empty start positive) (Writes.apply (T.finish data) d) h := by
  rw [Transaction.finish, Writes.apply_append, Writes.apply_cons, Writes.apply_nil]
  constructor
  · rw [Pending.empty, Function.update_self]
    exact headCount_headBlock data (Nat.zero_le _)
  · intro b home
    rw [Transaction.empty, Writes.apply_nil, Function.update_of_ne (home.ne_start positive)]
    exact means.home b home

theorem Means.finishing (means : Means T d h) (positive : 0 < size) (data : Block) (k : Nat) :
    Recoverable start size h (Writes.apply ((T.finish data).take k) d) := by
  by_cases early : k ≤ T.writes.length
  · rw [Transaction.finish, List.take_append_of_le_length early]
    exact ⟨T, means.installing k⟩
  · rw [List.take_of_length_le (by simp [Transaction.finish]; omega)]
    exact ⟨_, means.finished positive data⟩

end Prefixes

section Commit
variable (T : Transaction start size) (d h : Nat → Block)

/-- The first writes of a commit: the log blocks, then the header. -/
def Transaction.prepare (d : Nat → Block) : List (Nat × Block) :=
  logWrites start 0 (T.writes.map Prod.snd) ++
    [(start, headBlock (d start) (T.writes.map Prod.fst))]

theorem length_logWrites (tail : Nat) (datas : List Block) :
    (logWrites start tail datas).length = datas.length := by
  induction datas generalizing tail with
  | nil => rfl
  | cons data rest ih => rw [logWrites, List.length_cons, ih, List.length_cons]

theorem mem_logWrites {tail : Nat} {datas : List Block} {w : Nat × Block}
    (member : w ∈ logWrites start tail datas) :
    ∃ j < datas.length, w.1 = start + (tail + j) + 1 := by
  induction datas generalizing tail with
  | nil => cases member
  | cons data rest ih =>
    rw [List.length_cons]
    obtain rfl | later := List.mem_cons.mp member
    · exact ⟨0, by omega, rfl⟩
    · obtain ⟨j, below, here⟩ := ih later
      exact ⟨j + 1, by omega, by omega⟩

theorem apply_logWrites {tail j : Nat} {datas : List Block} {data : Block}
    (found : datas[j]? = some data) (d : Nat → Block) :
    Writes.apply (logWrites start tail datas) d (start + tail + j + 1) = data := by
  induction datas generalizing tail j d with
  | nil => cases found
  | cons first rest ih =>
    rw [logWrites, Writes.apply_cons]
    cases j with
    | zero =>
      cases found
      rw [Writes.apply_of_notMem]
      · exact Function.update_self ..
      · intro w member same
        obtain ⟨j, _, here⟩ := mem_logWrites member
        omega
    | succ j =>
      rw [show start + tail + (j + 1) + 1 = start + (tail + 1) + j + 1 by omega]
      exact ih found _

/-- A log block is neither the header nor a home block. -/
theorem Transaction.log_ne {w : Nat × Block} {b : Nat}
    (member : w ∈ logWrites start 0 (T.writes.map Prod.snd))
    (place : b = start ∨ Home start size b) : w.1 ≠ b := by
  have room := T.room
  obtain ⟨j, below, here⟩ := mem_logWrites member
  rw [List.length_map] at below
  obtain rfl | before | after := place <;> omega

/-- What the first writes of a commit do, whatever they are made on. -/
theorem Transaction.apply_prepare_home (e : Nat → Block) {b : Nat} (home : Home start size b) :
    Writes.apply (T.prepare d) e b = e b := by
  have positive : 0 < size := by have room := T.room; omega
  rw [Transaction.prepare, Writes.apply_append, Writes.apply_cons, Writes.apply_nil,
    Function.update_of_ne (home.ne_start positive),
    Writes.apply_of_notMem fun w member => T.log_ne member (Or.inr home)]

theorem Transaction.apply_prepare_start (e : Nat → Block) :
    Writes.apply (T.prepare d) e start = headBlock (d start) (T.writes.map Prod.fst) := by
  rw [Transaction.prepare, Writes.apply_append, Writes.apply_cons, Writes.apply_nil,
    Function.update_self]

theorem Transaction.logged_prepare (e : Nat → Block) :
    Logged (Writes.apply (T.prepare d) e) start 0 T.writes := by
  intro j w found
  rw [Transaction.prepare, Writes.apply_append, Writes.apply_cons, Writes.apply_nil,
    Function.update_of_ne (by omega)]
  exact apply_logWrites (by rw [List.getElem?_map, found]; rfl) e

/-- With its header on disk the transaction is there to stay. -/
theorem Transaction.prepared (same : ∀ b, Home start size b → d b = h b) :
    Means T (Writes.apply (T.prepare d) d) (Writes.apply T.writes h) := by
  refine ⟨⟨?_, T.logged_prepare d d⟩, fun b home => ?_⟩
  · rw [T.apply_prepare_start d d]
    refine headRow_headBlock _ (by rw [List.length_map]; exact T.short) fun b member => ?_
    obtain ⟨w, inside, rfl⟩ := List.mem_map.mp member
    exact (T.home w inside).2
  · apply Writes.apply_congr
    left
    rw [T.apply_prepare_home d d home, same b home]

/-- Before its header is on disk the transaction has not happened. -/
theorem Transaction.preparing (clean : headCount (d start) = 0)
    (same : ∀ b, Home start size b → d b = h b) {k : Nat} (early : k ≤ T.writes.length) :
    Recoverable start size h (Writes.apply ((T.prepare d).take k) d) := by
  have positive : 0 < size := by have room := T.room; omega
  rw [Transaction.prepare, List.take_append_of_le_length (by simpa [length_logWrites] using early)]
  refine ⟨Transaction.empty start positive, Pending.empty.mpr ?_, fun b home => ?_⟩
  · rw [Writes.apply_of_notMem fun w member =>
      T.log_ne (List.mem_of_mem_take member) (Or.inl rfl)]
    exact clean
  · rw [Transaction.empty, Writes.apply_nil, Writes.apply_of_notMem fun w member =>
      T.log_ne (List.mem_of_mem_take member) (Or.inr home)]
    exact same b home

/-- Everything a commit writes. -/
def Transaction.commitWrites (d : Nat → Block) : List (Nat × Block) :=
  T.prepare d ++ T.finish (headBlock (d start) (T.writes.map Prod.fst))

/-- After any number of the writes of a commit the disk means the old contents or
the new ones. -/
theorem Transaction.committing (clean : headCount (d start) = 0)
    (same : ∀ b, Home start size b → d b = h b) (k : Nat) :
    Recoverable start size h (Writes.apply ((T.commitWrites d).take k) d) ∨
      Recoverable start size (Writes.apply T.writes h)
        (Writes.apply ((T.commitWrites d).take k) d) := by
  have positive : 0 < size := by have room := T.room; omega
  have length : (T.prepare d).length = T.writes.length + 1 := by
    simp [Transaction.prepare, length_logWrites]
  by_cases early : k ≤ T.writes.length
  · left
    rw [Transaction.commitWrites, List.take_append_of_le_length (by omega)]
    exact T.preparing d h clean same early
  · right
    obtain ⟨j, rfl⟩ : ∃ j, k = (T.prepare d).length + j := ⟨k - (T.writes.length + 1), by omega⟩
    rw [Transaction.commitWrites, List.take_length_add_append, Writes.apply_append]
    exact (T.prepared d h same).finishing positive _ j

theorem Transaction.committed (positive : 0 < size) (same : ∀ b, Home start size b → d b = h b) :
    Means (Transaction.empty start positive) (Writes.apply (T.commitWrites d) d)
      (Writes.apply T.writes h) := by
  rw [Transaction.commitWrites, Writes.apply_append]
  exact (T.prepared d h same).finished positive _

end Commit

section Routines
variable (T : Transaction start size) {s : Store}

/-- `commit` makes the writes of the transaction that is in the header. -/
theorem commit_spec (at_ : s.log.start = start) (entries : s.log.lh = T.writes.map Prod.fst)
    (peek : s.peek = Writes.apply T.writes s.disk) (nonempty : T.writes ≠ []) :
    Sat commit s
      (fun _ t => Wrote s t (T.commitWrites s.disk) ∧ t.log = { s.log with lh := [] })
      (Lost s (T.commitWrites s.disk)) := by
  have sources : s.log.lh.map s.peek = T.writes.map Prod.snd := by
    rw [entries, List.map_map, peek]
    exact List.map_congr_left fun w member => Writes.apply_of_mem T.once member
  have header : s.peek start = s.disk start := by
    rw [peek, Writes.apply_of_notMem fun w member => T.notStart member]
  have full : s.log.lh ≠ [] := by
    rw [entries]
    exact fun empty => nonempty (List.map_eq_nil_iff.mp empty)
  rw [commit, sat_bind, sat_get, if_pos full]
  rw [Transaction.commitWrites, Transaction.prepare, List.append_assoc, Transaction.finish]
  -- The log blocks, from the buffers of the home blocks.
  have logging := writeLog_spec (n := T.writes.length) at_ (by rw [entries, List.length_map])
    (by
      intro b member
      rw [entries] at member
      obtain ⟨w, inside, rfl⟩ := List.mem_map.mp member
      exact T.outside inside)
  rw [sources] at logging
  refine sat_writes _ logging fun _ t copied log => ?_
  -- The header, which names them.
  have heading := writeHead_spec t
  have kept : t.peek start = s.disk start := by
    rw [copied.peek, Writes.apply_of_notMem fun w member => T.log_ne member (Or.inl rfl), header]
  rw [log, at_, entries, kept] at heading
  refine sat_writes _ heading fun _ u named log₁ => ?_
  have prepared : u.peek = Writes.apply (T.prepare s.disk) s.peek := by
    rw [named.peek, copied.peek, ← Writes.apply_append]
    rfl
  -- The home blocks, from the log.
  have logged := T.logged_prepare s.disk s.peek
  rw [← prepared] at logged
  refine sat_writes _ (installTrans_spec (n := T.writes.length) (by rw [log₁, at_])
    (by rw [log₁, entries]) logged le_rfl fun w member => T.outside member)
    fun _ v installed log₂ => ?_
  -- The empty header.
  refine sat_writes [] (clearHead_spec v) fun _ w quiet log₃ => ?_
  have ending := writeHead_spec w
  have last : w.peek start = headBlock (s.disk start) (T.writes.map Prod.fst) := by
    rw [quiet.peek, Writes.apply_nil, installed.peek,
      Writes.apply_of_notMem fun x member => T.notStart member, prepared,
      T.apply_prepare_start]
  have place : w.log.start = start := by rw [log₃, log₂, log₁, at_]
  have none : w.log.lh = [] := by rw [log₃]
  rw [place, last, none] at ending
  refine ending.imp (fun _ x done => ⟨done.1, ?_⟩)
  rw [done.2, log₃, log₂, log₁]

/-- `recover_from_log` makes the writes of the transaction that is on the disk. -/
theorem recoverFromLog_spec (at_ : s.log.start = start) (peek : s.peek = s.disk)
    (pending : Pending T s.disk) :
    Sat recoverFromLog s
      (fun _ t => Wrote s t (T.finish (s.disk start)) ∧ t.log = { s.log with lh := [] })
      (Lost s (T.finish (s.disk start))) := by
  rw [recoverFromLog, Transaction.finish]
  refine sat_writes [] (readHead_spec s) fun _ t read log => ?_
  rw [at_, peek, pending.head] at log
  have same : t.peek = s.disk := read.peek.trans peek
  have logged := pending.logged
  rw [← same] at logged
  refine sat_writes _ (installTrans_spec (n := T.writes.length) (by rw [log, at_]) (by rw [log])
    logged le_rfl fun w member => T.outside member) fun _ u installed log₁ => ?_
  refine sat_writes [] (clearHead_spec u) fun _ v quiet log₂ => ?_
  have ending := writeHead_spec v
  have last : v.peek start = s.disk start := by
    rw [quiet.peek, Writes.apply_nil, installed.peek,
      Writes.apply_of_notMem fun x member => T.notStart member, same]
  have place : v.log.start = start := by rw [log₂, log₁, log, at_]
  have none : v.log.lh = [] := by rw [log₂]
  rw [place, last, none] at ending
  refine ending.imp (fun _ x done => ⟨done.1, ?_⟩)
  rw [done.2, log₂, log₁, log]

end Routines

section Machine

/-- Between two transactions: nothing is under way, and the buffers agree with a
disk that has nothing to recover. -/
structure Store.Idle (start : Nat) (size : Int) (s : Store) : Prop where
  log : s.log = ⟨start, size, 0, false, []⟩
  peek : s.peek = s.disk
  clean : headCount (s.disk start) = 0

/-- The machine is off, and recovery will find the contents `h`. -/
structure Store.Down (start : Nat) (size : Int) (h : Nat → Block) (s : Store) : Prop where
  place : s.log.start = start ∧ s.log.size = size
  recoverable : Recoverable start size h s.disk

variable (T : Transaction start size) {s : Store} {h : Nat → Block}

/-- A commit leaves the buffers and the disk in agreement. -/
theorem Transaction.apply_commitWrites (d : Nat → Block) :
    Writes.apply (T.commitWrites d) (Writes.apply T.writes d) = Writes.apply (T.commitWrites d) d := by
  funext b
  apply Writes.apply_congr
  by_cases written : ∃ w ∈ T.writes, w.1 = b
  · obtain ⟨w, member, here⟩ := written
    refine Or.inr ⟨w, ?_, here⟩
    simp [Transaction.commitWrites, Transaction.finish, member]
  · left
    exact Writes.apply_of_notMem fun w member here => written ⟨w, member, here⟩

/-- The transaction is over, or the power has failed on the way. -/
def Ended (s : Store) : Unit → Store → Prop := fun _ t =>
  t.Idle start size ∧ (∀ b, Home start size b → t.disk b = Writes.apply T.writes s.disk b) ∧
    (s.power = none → t.power = none)

def Failed (s : Store) : Stop → Store → Prop := fun _ t =>
  s.power ≠ none ∧
    (t.Down start size s.disk ∨ t.Down start size (Writes.apply T.writes s.disk))

/-- The last operation of a group commits it. -/
theorem commit_ends (log : s.log = ⟨start, size, 0, true, T.writes.map Prod.fst⟩)
    (peek : s.peek = Writes.apply T.writes s.disk) (clean : headCount (s.disk start) = 0) :
    Sat (commit >>= fun _ => onLog endCommit) s (Ended T s) (Failed T s) := by
  have positive : 0 < size := by have room := T.room; omega
  rw [sat_bind]
  by_cases nonempty : T.writes = []
  · rw [nonempty] at peek
    rw [commit, sat_bind, sat_get, if_neg (by rw [log, nonempty]; simp), sat_pure, onLog, sat_zoom,
      endCommit, sat_modify, log, nonempty]
    refine ⟨⟨rfl, peek, clean⟩, fun b _ => ?_, id⟩
    rw [nonempty, Writes.apply_nil]
  · refine (commit_spec T (by rw [log]) (by rw [log]) peek nonempty).mono
      (fun _ t done => ?_) (fun e t lost => ?_)
    · obtain ⟨wrote, log'⟩ := done
      have means := T.committed s.disk s.disk positive fun _ _ => rfl
      rw [← wrote.disk] at means
      rw [onLog, sat_zoom, endCommit, sat_modify, log', log]
      refine ⟨⟨rfl, ?_, Pending.empty.mp means.pending⟩, means.home, wrote.power⟩
      change t.peek = t.disk
      rw [wrote.peek, peek, T.apply_commitWrites, wrote.disk]
    · obtain ⟨_, powered, ⟨k, disk⟩, place⟩ := lost
      have place : t.log.start = start ∧ t.log.size = size := by
        rw [place.1, place.2, log]
        exact ⟨rfl, rfl⟩
      refine ⟨powered, ?_⟩
      obtain old | new := T.committing s.disk s.disk clean (fun _ _ => rfl) k
      · exact Or.inl ⟨place, by rw [disk]; exact old⟩
      · exact Or.inr ⟨place, by rw [disk]; exact new⟩

theorem transaction_spec (idle : s.Idle start size) :
    Sat (transaction T.writes) s (Ended T s) (Failed T s) := by
  rw [transaction, sat_bind, onLog, sat_zoom, beginOp, sat_bind, sat_get, idle.log]
  rw [if_neg (by simp), if_neg (by norm_num), sat_bind, sat_set, sat_pure, if_pos rfl, sat_bind]
  obtain ⟨opened, is⟩ : ∃ t : Store, t = { s with log := ⟨start, size, 0 + 1, false, []⟩ } := ⟨_, rfl⟩
  rw [← is]
  have log : opened.log = ⟨start, size, 1, false, []⟩ := by rw [is]; rfl
  have same : opened.disk = s.disk ∧ opened.peek = s.disk ∧ opened.power = s.power := by
    rw [is]
    exact ⟨rfl, idle.peek, rfl⟩
  have room := T.room
  refine (modifyBlocks_spec T.writes opened (by rw [log]) (by rw [log]; simpa using T.short)
    (by rw [log]; simpa using room) (by rw [log]; simpa using T.once)).mono
    (fun _ t changed => ?_) (fun _ _ no => no.elim)
  rw [sat_bind, onLog, sat_zoom, endOp, sat_bind, sat_modify, sat_bind, sat_get, changed.log, log]
  rw [if_neg (by simp), if_pos (by simp), sat_bind, sat_set, sat_pure, if_pos rfl]
  obtain ⟨last, is'⟩ : ∃ u : Store, u =
    { t with log := ⟨start, size, 1 - 1, true, [] ++ T.writes.map Prod.fst⟩ } := ⟨_, rfl⟩
  rw [← is']
  have disk : last.disk = s.disk := by rw [is']; exact changed.disk.trans same.1
  have peek : last.peek = Writes.apply T.writes last.disk := by
    rw [disk, ← same.2.1, ← changed.peek, is']
    rfl
  have power : last.power = s.power := by rw [is']; exact changed.power.trans same.2.2
  have ends := commit_ends T (by rw [is']; rfl) peek (by rw [disk]; exact idle.clean)
  unfold Ended Failed at ends ⊢
  rw [disk, power] at ends
  exact ends

/-- Whatever the power does, recovery keeps what the disk means; if it completes,
the machine is idle again. -/
theorem recover_spec (positive : 0 < size) (down : s.Down start size h) (power : Option Nat) :
    Sat recoverFromLog (s.boot power)
      (fun _ t => t.Idle start size ∧ (∀ b, Home start size b → t.disk b = h b) ∧
        (power = none → t.power = none))
      (fun _ t => power ≠ none ∧ t.Down start size h) := by
  obtain ⟨T, means⟩ := down.recoverable
  refine (recoverFromLog_spec T (s := s.boot power) down.place.1 rfl means.pending).mono
    (fun _ t done => ?_) (fun e t lost => ?_)
  · obtain ⟨wrote, log⟩ := done
    have finished := means.finished positive (s.disk start)
    have disk : t.disk = Writes.apply (T.finish (s.disk start)) s.disk := wrote.disk
    rw [← disk] at finished
    refine ⟨⟨?_, ?_, Pending.empty.mp finished.pending⟩, finished.home, wrote.power⟩
    · rw [log, ← down.place.1, ← down.place.2]
      rfl
    · rw [disk, wrote.peek]
      rfl
  · obtain ⟨_, powered, ⟨k, disk⟩, place⟩ := lost
    refine ⟨powered, ⟨place.1.trans down.place.1, place.2.trans down.place.2⟩, ?_⟩
    rw [disk]
    exact means.finishing positive _ k

theorem recover_interrupted (positive : 0 < size) (down : s.Down start size h) (k : Nat) :
    (s.recover (some k)).Down start size h := by
  have recovers := recover_spec positive down (some k)
  rw [Store.recover, final]
  cases run : recoverFromLog.run (s.boot (some k)) with
  | error e t => exact (recovers.of_error run).2
  | ok a t =>
    obtain ⟨idle, home, _⟩ := recovers.of_ok run
    refine ⟨by rw [idle.log]; exact ⟨rfl, rfl⟩, Transaction.empty start positive,
      Pending.empty.mpr idle.clean, home⟩

theorem recover_complete (positive : 0 < size) (down : s.Down start size h) :
    (s.recover none).Idle start size ∧ (s.recover none).power = none ∧
      ∀ b, Home start size b → (s.recover none).disk b = h b := by
  have recovers := recover_spec positive down none
  rw [Store.recover, final]
  cases run : recoverFromLog.run (s.boot none) with
  | error e t => exact absurd rfl (recovers.of_error run).1
  | ok a t =>
    obtain ⟨idle, home, power⟩ := recovers.of_ok run
    exact ⟨idle, power rfl, home⟩

/-- What can happen to the store: a transaction that completes, or one during which
the power fails after `k` writes, followed by recoveries that fail after the given
numbers of writes and by one that completes. -/
inductive Happening (start : Nat) (size : Int) where
  | commit (T : Transaction start size)
  | crash (T : Transaction start size) (k : Nat) (recoveries : List Nat)

def Store.happens (s : Store) : Happening start size → Store
  | .commit T => final (transaction T.writes) s
  | .crash T k recoveries =>
    (recoveries.foldl (fun t k => t.recover (some k))
      (final (transaction T.writes) { s with power := some k })).recover none

/-- What the log is for: a transaction happens, or it does not. -/
inductive Atomic : (Nat → Block) → Happening start size → (Nat → Block) → Prop where
  | committed (h : Nat → Block) (T : Transaction start size) :
      Atomic h (.commit T) (Writes.apply T.writes h)
  | undone (h : Nat → Block) (T : Transaction start size) (k : Nat) (recoveries : List Nat) :
      Atomic h (.crash T k recoveries) h
  | done (h : Nat → Block) (T : Transaction start size) (k : Nat) (recoveries : List Nat) :
      Atomic h (.crash T k recoveries) (Writes.apply T.writes h)

/-- The store is at rest and holds `h`. -/
structure Store.Rest (start : Nat) (size : Int) (s : Store) (h : Nat → Block) : Prop where
  idle : s.Idle start size
  power : s.power = none
  home : ∀ b, Home start size b → s.disk b = h b

theorem recoveries_down (positive : 0 < size) (recoveries : List Nat)
    (down : s.Down start size h) :
    (recoveries.foldl (fun t k => t.recover (some k)) s).Down start size h := by
  induction recoveries generalizing s with
  | nil => exact down
  | cons k rest ih => exact ih (recover_interrupted positive down k)

/-- After a transaction with the power failing at some point. -/
theorem interrupted_down (rest : s.Rest start size h) (k : Nat) :
    (final (transaction T.writes) { s with power := some k }).Down start size h ∨
      (final (transaction T.writes) { s with power := some k }).Down start size
        (Writes.apply T.writes h) := by
  have positive : 0 < size := by have room := T.room; omega
  have runs := transaction_spec T (s := { s with power := some k })
    ⟨rest.idle.log, rest.idle.peek, rest.idle.clean⟩
  -- The contents matter on the home blocks only.
  have swap : ∀ {t : Store} {g g' : Nat → Block}, (∀ b, Home start size b → g b = g' b) →
      t.Down start size g → t.Down start size g' := by
    intro t g g' same down
    obtain ⟨U, means⟩ := down.recoverable
    exact ⟨down.place, U, means.pending, fun b home => (means.home b home).trans (same b home)⟩
  have new : ∀ b, Home start size b →
      Writes.apply T.writes s.disk b = Writes.apply T.writes h b := fun b home =>
    Writes.apply_congr (Or.inl (rest.home b home))
  rw [final]
  cases run : (transaction T.writes).run { s with power := some k } with
  | error e t =>
    obtain old | done := (runs.of_error run).2
    · exact Or.inl (swap rest.home old)
    · exact Or.inr (swap new done)
  | ok a t =>
    obtain ⟨idle, home, _⟩ := runs.of_ok run
    refine Or.inr ⟨by rw [idle.log]; exact ⟨rfl, rfl⟩, Transaction.empty start positive,
      Pending.empty.mpr idle.clean, fun b at_ => (home b at_).trans (new b at_)⟩

theorem happens_atomic (e : Happening start size) (rest : s.Rest start size h) :
    ∃ g, Atomic h e g ∧ (s.happens e).Rest start size g := by
  cases e with
  | commit T =>
    refine ⟨_, .committed h T, ?_⟩
    have runs := transaction_spec T rest.idle
    rw [Store.happens, final]
    cases run : (transaction T.writes).run s with
    | error e t => exact absurd rest.power (runs.of_error run).1
    | ok a t =>
      obtain ⟨idle, home, power⟩ := runs.of_ok run
      refine ⟨idle, power rest.power, fun b at_ => (home b at_).trans ?_⟩
      exact Writes.apply_congr (Or.inl (rest.home b at_))
  | crash T k recoveries =>
    have positive : 0 < size := by have room := T.room; omega
    obtain old | new := interrupted_down T rest k
    · obtain ⟨idle, power, home⟩ := recover_complete positive (recoveries_down positive recoveries old)
      exact ⟨_, .undone h T k recoveries, idle, power, home⟩
    · obtain ⟨idle, power, home⟩ := recover_complete positive (recoveries_down positive recoveries new)
      exact ⟨_, .done h T k recoveries, idle, power, home⟩

/-- Over any sequence of transactions and power failures the home blocks go through
the transactions one at a time and as a whole, and nothing is left to recover. -/
theorem log_atomic {es : List (Happening start size)} {t : Store} (rest : s.Rest start size h)
    (run : Transition.Run (fun s e t => t = s.happens e) s es t) :
    ∃ g, Transition.Run Atomic h es g ∧ (∀ b, Home start size b → t.disk b = g b) ∧
      headCount (t.disk start) = 0 := by
  obtain ⟨g, atomic, rested⟩ := run.simulate (R := fun s h => s.Rest start size h)
    (fun s e t h step rest => by subst step; exact happens_atomic e rest) rest
  exact ⟨g, atomic, rested.home, rested.idle.clean⟩

/-- A new disk with the layout of `mkfs`, and a transaction that fills one block. -/
def blankStore : Store := ⟨fun _ _ => 0, fun _ => none, ⟨2, LOGSIZE, 0, false, []⟩, none⟩

def fillBlock (blockno : Fin 32) (data : UInt8) : Transaction 2 LOGSIZE where
  writes := [(blockno + 32, fun _ => data)]
  once := List.nodup_singleton _
  home w member := by
    obtain rfl := List.mem_singleton.mp member
    constructor
    · right
      push_cast
      omega
    · dsimp only
      omega
  short := by rw [List.length_singleton]; decide
  room := by rw [List.length_singleton]; decide

theorem blankStore_rest : blankStore.Rest 2 LOGSIZE fun _ _ => 0 where
  idle := ⟨rfl, rfl, by decide⟩
  power := rfl
  home _ _ := rfl

theorem fills_atomic : ∃ g, Transition.Run Atomic (fun _ _ => 0)
    [.commit (fillBlock 0 1), .crash (fillBlock 1 2) 2 [0, 1], .commit (fillBlock 2 3)] g ∧
    (∀ b, Home 2 LOGSIZE b → (((blankStore.happens (.commit (fillBlock 0 1))).happens
      (.crash (fillBlock 1 2) 2 [0, 1])).happens (.commit (fillBlock 2 3))).disk b = g b) ∧
    headCount ((((blankStore.happens (.commit (fillBlock 0 1))).happens
      (.crash (fillBlock 1 2) 2 [0, 1])).happens (.commit (fillBlock 2 3))).disk 2) = 0 :=
  log_atomic blankStore_rest (.next rfl (.next rfl (.next rfl (.refl _))))

end Machine

end Xv6
