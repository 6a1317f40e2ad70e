import Xv6.PageTableProofs
import Xv6.System

/-! The file table and the frames its pipes live in. Every open end of a pipe is
a file of its own, and a pipe gives its frame back when its second end closes. -/
namespace Xv6
open Control
open Function (update update_of_ne update_self)

/-- One of the two ends of a pipe. -/
def Pipe.isOpen (p : Pipe) (writable : Bool) : Bool := if writable then p.writeopen else p.readopen

def Pipe.inUse (p : Pipe) : Bool := p.readopen || p.writeopen

def Sys.pipeFrame (s : Sys) (f : Nat) : Multiset Nat := if (s.pipes f).inUse then {f} else 0

/-- The frames that are pipes. -/
def Sys.pipeFrames (s : Sys) : Multiset Nat := Tally.total (PHYSTOP / PGSIZE) s.pipeFrame

/-- The open ends of pipes and the files for them correspond one to one, and a
free file is none of them. -/
structure Sys.FilesSound (s : Sys) : Prop where
  idle : ∀ k, (s.files k).ref = 0 → (s.files k).type ≠ .FD_PIPE
  ends : ∀ k, (s.files k).type = .FD_PIPE →
    (s.pipes (s.files k).pipe).isOpen (s.files k).writable = true
  single : ∀ k l, (s.files k).type = .FD_PIPE → (s.files l).type = .FD_PIPE →
    (s.files k).pipe = (s.files l).pipe → (s.files k).writable = (s.files l).writable → k = l
  held : ∀ p w, (s.pipes p).isOpen w = true → ∃ k, (s.files k).type = .FD_PIPE ∧
    (s.files k).pipe = p ∧ (s.files k).writable = w
  range : ∀ p, (s.pipes p).inUse = true → p < PHYSTOP / PGSIZE

/-- A change of the file table and the pipes: the processes keep what they have,
apart from their descriptors. -/
structure FileStep (s t : Sys) : Prop where
  moves : Moves s.phys t.phys s.pipeFrames t.pipeFrames
  files : t.FilesSound
  state : ∀ j, (t.slots j).state = (s.slots j).state
  kstack : ∀ j, (t.slots j).kstack = (s.slots j).kstack
  proc : ∀ j, (t.slots j).proc = (s.slots j).proc
  parent : ∀ j, (t.slots j).parent = (s.slots j).parent
  initproc : t.initproc = s.initproc

theorem FileStep.trans {s t u : Sys} (first : FileStep s t) (second : FileStep t u) :
    FileStep s u where
  moves := first.moves.trans second.moves
  files := second.files
  state j := (second.state j).trans (first.state j)
  kstack j := (second.kstack j).trans (first.kstack j)
  proc j := (second.proc j).trans (first.proc j)
  parent j := (second.parent j).trans (first.parent j)
  initproc := second.initproc.trans first.initproc

theorem FileStep.refl {s : Sys} (files : s.FilesSound) : FileStep s s :=
  ⟨.refl _ _, files, fun _ => rfl, fun _ => rfl, fun _ => rfl, fun _ => rfl, rfl⟩

/-- The files keep their kind, and the free ones stay free. -/
theorem Sys.FilesSound.alike {s t : Sys} (sound : s.FilesSound) (pipes : t.pipes = s.pipes)
    (type : ∀ k, (t.files k).type = .FD_PIPE ↔ (s.files k).type = .FD_PIPE)
    (pipe : ∀ k, (t.files k).pipe = (s.files k).pipe)
    (writable : ∀ k, (t.files k).writable = (s.files k).writable)
    (ref : ∀ k, (t.files k).ref = 0 → (s.files k).ref = 0 ∨ (s.files k).type ≠ .FD_PIPE) :
    t.FilesSound := by
  constructor
  · intro k free kind
    exact (ref k free).elim (sound.idle k) id ((type k).mp kind)
  · intro k kind
    rw [pipes, pipe, writable]
    exact sound.ends k ((type k).mp kind)
  · intro k l kind kind'
    rw [pipe, pipe, writable, writable]
    exact sound.single k l ((type k).mp kind) ((type l).mp kind')
  · intro p w opened
    rw [pipes] at opened
    obtain ⟨k, kind, facts⟩ := sound.held p w opened
    exact ⟨k, (type k).mpr kind, by rwa [pipe, writable]⟩
  · intro p used
    rw [pipes] at used
    exact sound.range p used

theorem Sys.FilesSound.congr {s t : Sys} (sound : s.FilesSound) (files : t.files = s.files)
    (pipes : t.pipes = s.pipes) : t.FilesSound :=
  sound.alike pipes (fun _ => by rw [files]) (fun _ => by rw [files]) (fun _ => by rw [files])
    (fun _ free => Or.inl (by rwa [← files]))

theorem pipeFrames_congr {s t : Sys} (pipes : t.pipes = s.pipes) : t.pipeFrames = s.pipeFrames := by
  unfold Sys.pipeFrames
  exact Tally.total_congr fun f _ => by simp only [Sys.pipeFrame, pipes]

/-- Only counts of references change, and not of a file that stays in use. -/
theorem FileStep.of_files {s t : Sys} (sound : s.FilesSound) (phys : t.phys = s.phys)
    (pipes : t.pipes = s.pipes) (slots : t.slots = s.slots) (initproc : t.initproc = s.initproc)
    (type : ∀ k, (t.files k).type = .FD_PIPE ↔ (s.files k).type = .FD_PIPE)
    (pipe : ∀ k, (t.files k).pipe = (s.files k).pipe)
    (writable : ∀ k, (t.files k).writable = (s.files k).writable)
    (ref : ∀ k, (t.files k).ref = 0 → (s.files k).ref = 0 ∨ (s.files k).type ≠ .FD_PIPE) :
    FileStep s t := by
  refine ⟨?_, sound.alike pipes type pipe writable ref, fun j => by rw [slots],
    fun j => by rw [slots], fun j => by rw [slots], fun j => by rw [slots], initproc⟩
  rw [phys, pipeFrames_congr pipes]
  exact .refl _ _

theorem setFd_spec {s : Sys} (sound : s.FilesSound) (i fd : Nat) (f : Option Nat) :
    Sat (setFd i fd f) s (fun _ t => FileStep s t ∧ t.phys = s.phys ∧ t.pipes = s.pipes)
      noExit := by
  rw [setFd, modifySlot, sat_modify]
  have slot : ∀ j, ∃ ofile, (s.setSlot i { s.slots i with
      ofile := update (s.slots i).ofile fd f }).slots j = { s.slots j with ofile := ofile } := by
    intro j
    by_cases here : j = i
    · subst here
      exact ⟨update (s.slots j).ofile fd f, by simp only [Sys.setSlot, update_self]⟩
    · exact ⟨(s.slots j).ofile, by simp only [Sys.setSlot, update_of_ne here]⟩
  refine ⟨⟨.refl _ _, sound.congr rfl rfl, fun j => ?_, fun j => ?_, fun j => ?_, fun j => ?_, rfl⟩,
    rfl, rfl⟩
  all_goals
    obtain ⟨ofile, slot⟩ := slot j
    rw [slot]

theorem Pipe.close_isOpen (p : Pipe) (w w' : Bool) :
    (p.close w).isOpen w' = (p.isOpen w' && w ≠ w') := by
  cases w <;> cases w' <;> simp [Pipe.close, Pipe.isOpen]

theorem Pipe.inUse_iff (p : Pipe) : p.inUse = true ↔ ∃ w, p.isOpen w = true := by
  simp [Pipe.inUse, Pipe.isOpen]

/-- The last reference to an end of a pipe is gone. -/
theorem FilesSound.closed {s t : Sys} (sound : s.FilesSound) {k : Nat}
    (kind : (s.files k).type = .FD_PIPE)
    (files : t.files = update s.files k { s.files k with ref := 0, type := .FD_NONE })
    (pipes : t.pipes = update s.pipes (s.files k).pipe
      ((s.pipes (s.files k).pipe).close (s.files k).writable)) : t.FilesSound := by
  have other : ∀ l, (t.files l).type = .FD_PIPE → l ≠ k ∧ t.files l = s.files l := by
    intro l kind'
    by_cases here : l = k
    · rw [files, here, update_self] at kind'
      cases kind'
    · exact ⟨here, by rw [files, update_of_ne here]⟩
  have ends : ∀ p w, (t.pipes p).isOpen w = true ↔ (s.pipes p).isOpen w = true ∧
      ¬ (p = (s.files k).pipe ∧ w = (s.files k).writable) := by
    intro p w
    rw [pipes]
    by_cases here : p = (s.files k).pipe
    · subst here
      rw [update_self, Pipe.close_isOpen, Bool.and_eq_true, decide_eq_true_eq]
      constructor
      · rintro ⟨opened, ne⟩
        exact ⟨opened, fun same => ne same.2.symm⟩
      · rintro ⟨opened, ne⟩
        exact ⟨opened, fun same => ne ⟨rfl, same.symm⟩⟩
    · rw [update_of_ne here]
      simp [here]
  constructor
  · intro l free
    by_cases here : l = k
    · rw [files, here, update_self]
      nofun
    · rw [files, update_of_ne here] at free ⊢
      exact sound.idle l free
  · intro l kind'
    obtain ⟨ne, same⟩ := other l kind'
    rw [same] at kind' ⊢
    refine (ends _ _).mpr ⟨sound.ends l kind', fun same => ?_⟩
    exact ne (sound.single l k kind' kind same.1 same.2)
  · intro l l' kind' kind''
    rw [(other l kind').2, (other l' kind'').2] at *
    exact sound.single l l' kind' kind''
  · intro p w opened
    obtain ⟨opened, open_⟩ := (ends p w).mp opened
    obtain ⟨l, kind', pipe, writable⟩ := sound.held p w opened
    have ne : l ≠ k := by
      rintro rfl
      exact open_ ⟨pipe.symm, writable.symm⟩
    refine ⟨l, ?_⟩
    rw [files, update_of_ne ne]
    exact ⟨kind', pipe, writable⟩
  · intro p used
    obtain ⟨w, opened⟩ := (Pipe.inUse_iff _).mp used
    exact sound.range p ((Pipe.inUse_iff _).mpr ⟨w, ((ends p w).mp opened).1⟩)

/-- The frames of pipes, when one pipe changes. -/
theorem pipeFrames_change {s t : Sys} {p : Nat} (bound : p < PHYSTOP / PGSIZE)
    (same : ∀ q, q ≠ p → t.pipes q = s.pipes q) :
    t.pipeFrames + s.pipeFrame p = s.pipeFrames + t.pipeFrame p :=
  Tally.total_change bound fun q _ ne => by simp only [Sys.pipeFrame, same q ne]

/-- `pipeclose` on an end that is open. -/
theorem pipeclose_moves {s : Sys} {p : Nat} {w : Bool} (bound : p < PHYSTOP / PGSIZE)
    (opened : (s.pipes p).isOpen w = true) :
    Sat (pipeclose p w) s (fun _ t => Moves s.phys t.phys s.pipeFrames t.pipeFrames ∧
      ∃ m, t = { s.setPipe p ((s.pipes p).close w) with phys := m }) noExit := by
  have used : (s.pipes p).inUse = true := (Pipe.inUse_iff _).mpr ⟨w, opened⟩
  have before : s.pipeFrame p = {p} := by rw [Sys.pipeFrame, if_pos used]
  rw [pipeclose, sat_bind, sat_get, sat_bind, sat_modify]
  have change : ∀ m, Sys.pipeFrames { s.setPipe p ((s.pipes p).close w) with phys := m } + {p} =
      s.pipeFrames + if ((s.pipes p).close w).inUse then {p} else 0 := by
    intro m
    have sum := pipeFrames_change (s := s)
      (t := { s.setPipe p ((s.pipes p).close w) with phys := m }) bound
      (fun q ne => by simp only [Sys.setPipe, update_of_ne ne])
    rw [before] at sum
    simpa only [Sys.pipeFrame, Sys.setPipe, update_self] using sum
  split
  · rename_i last
    have closed : ((s.pipes p).close w).inUse = false := by simp [Pipe.inUse, last.1, last.2]
    rw [sysPhys, sat_zoom]
    refine (kfree_spec s.phys p).imp (fun _ m freed => ?_)
    refine ⟨?_, m, rfl⟩
    have sum := change m
    rw [closed, if_neg (by decide), add_zero] at sum
    rw [← sum]
    simpa only [add_zero] using freed.frame_left
      (Sys.pipeFrames { s.setPipe p ((s.pipes p).close w) with phys := m })
  · rename_i other
    have still : ((s.pipes p).close w).inUse = true := by
      simp only [Pipe.inUse, Bool.or_eq_true]
      by_contra none
      exact other (by simpa using none)
    have sum := change s.phys
    rw [still, if_pos rfl, add_left_inj] at sum
    rw [sat_pure]
    refine ⟨?_, s.phys, rfl⟩
    exact sum ▸ Moves.refl _ _

theorem fileclose_spec {s : Sys} (sound : s.FilesSound) (k : Nat) :
    Sat (fileclose k) s (fun _ t => FileStep s t ∧ t.slots = s.slots) noExit := by
  rw [fileclose, sat_bind, sat_get]
  dsimp only
  by_cases free : (s.files k).ref < 1
  · rw [if_pos free]
    exact sat_panic _ _ _
  · rw [if_neg free]
    by_cases shared : 0 < (s.files k).ref - 1
    · rw [if_pos shared, modifyFile, sat_modify]
      refine ⟨.of_files sound rfl rfl rfl rfl (fun l => ?_) (fun l => ?_) (fun l => ?_)
        (fun l gone => ?_), rfl⟩
      all_goals
        by_cases here : l = k
        · subst here
          simp only [Sys.setFile, update_self] at *
          try omega
        · simp_all [Sys.setFile]
    · rw [if_neg shared, sat_bind, modifyFile, sat_modify]
      have plain : (s.files k).type ≠ .FD_PIPE → FileStep s
          (s.setFile k { s.files k with ref := 0, type := .FD_NONE }) := by
        intro kind
        refine .of_files sound rfl rfl rfl rfl (fun l => ?_) (fun l => ?_) (fun l => ?_)
          (fun l gone => ?_)
        all_goals
          by_cases here : l = k
          · subst here
            simp_all [Sys.setFile]
          · simp_all [Sys.setFile]
      cases kind : (s.files k).type with
      | FD_NONE | FD_INODE => exact ⟨plain (by rw [kind]; nofun), rfl⟩
      | FD_PIPE =>
        have opened := sound.ends k kind
        have bound := sound.range _ ((Pipe.inUse_iff _).mpr ⟨_, opened⟩)
        refine (pipeclose_moves (s := s.setFile k { s.files k with ref := 0, type := .FD_NONE })
          bound opened).imp ?_
        rintro _ t ⟨moves, m, rfl⟩
        exact ⟨⟨moves, FilesSound.closed sound kind rfl rfl, fun _ => rfl, fun _ => rfl,
          fun _ => rfl, fun _ => rfl, rfl⟩, rfl⟩

theorem closeFiles_spec {s : Sys} (sound : s.FilesSound) (i n : Nat) :
    Sat (closeFiles i n) s (fun _ t => FileStep s t) noExit := by
  induction n generalizing s with
  | zero =>
    rw [closeFiles, sat_pure]
    exact .refl sound
  | succ n ih =>
    rw [closeFiles, sat_bind, sat_get]
    cases (s.slots i).ofile (NOFILE - (n + 1)) with
    | none => exact ih sound
    | some f =>
      refine .bind (fileclose_spec sound f) ?_
      rintro _ t ⟨closed, _⟩
      refine .bind (setFd_spec closed.files i _ none) ?_
      rintro _ u ⟨cleared, _⟩
      refine (ih cleared.files).imp (fun _ v rest => ?_)
      exact (closed.trans cleared).trans rest

theorem filedup_spec {s : Sys} (sound : s.FilesSound) (k : Nat) :
    Sat (filedup k) s (fun _ t => FileStep s t ∧ t.phys = s.phys ∧ t.pipes = s.pipes) noExit := by
  rw [filedup, sat_bind, sat_get]
  split
  · exact sat_panic _ _ _
  · rw [modifyFile, sat_modify]
    refine ⟨.of_files sound rfl rfl rfl rfl (fun l => ?_) (fun l => ?_) (fun l => ?_)
      (fun l gone => ?_), rfl, rfl⟩
    all_goals
      by_cases here : l = k
      · subst here
        simp_all [Sys.setFile]
      · simp_all [Sys.setFile]

/-- Sharing the open files of a process touches no frame. -/
theorem dupFiles_spec {s : Sys} (sound : s.FilesSound) (i np n : Nat) :
    Sat (dupFiles i np n) s (fun _ t => FileStep s t ∧ t.phys = s.phys ∧ t.pipes = s.pipes)
      noExit := by
  induction n generalizing s with
  | zero =>
    rw [dupFiles, sat_pure]
    exact ⟨.refl sound, rfl, rfl⟩
  | succ n ih =>
    rw [dupFiles, sat_bind, sat_get]
    cases (s.slots i).ofile (NOFILE - (n + 1)) with
    | none => exact ih sound
    | some f =>
      refine .bind (filedup_spec sound f) ?_
      rintro _ t ⟨copied, phys, pipes⟩
      refine .bind (setFd_spec copied.files np _ (some f)) ?_
      rintro _ u ⟨entered, phys', pipes'⟩
      refine (ih entered.files).imp ?_
      rintro _ v ⟨rest, phys'', pipes''⟩
      exact ⟨(copied.trans entered).trans rest, phys''.trans (phys'.trans phys),
        pipes''.trans (pipes'.trans pipes)⟩

theorem filealloc_spec (s : Sys) : Sat filealloc s (fun r t => match r with
    | none => t = s
    | some k => (s.files k).ref = 0 ∧ t = s.setFile k { s.files k with ref := 1 }) noExit := by
  rw [filealloc, sat_bind, sat_get]
  dsimp only
  cases found : (List.range NFILE).find? fun k => (s.files k).ref = 0 with
  | none => exact rfl
  | some k =>
    have free := List.find?_some found
    simp only [sat_bind, modifyFile, sat_modify, sat_pure]
    exact ⟨by simpa using free, trivial⟩

theorem FileStep.taken {s : Sys} (sound : s.FilesSound) {k : Nat} (free : (s.files k).ref = 0) :
    FileStep s (s.setFile k { s.files k with ref := 1 }) := by
  refine .of_files sound rfl rfl rfl rfl (fun l => ?_) (fun l => ?_) (fun l => ?_)
    (fun l gone => ?_)
  all_goals
    by_cases here : l = k
    · subst here
      simp_all [Sys.setFile]
    · simp_all [Sys.setFile]

/-- Both ends of a new pipe in the frame `p`. -/
theorem FileStep.piped {s t : Sys} (sound : s.FilesSound) {f₀ f₁ p : Nat} (ne : f₀ ≠ f₁)
    (idle₀ : (s.files f₀).type ≠ .FD_PIPE) (idle₁ : (s.files f₁).type ≠ .FD_PIPE)
    (ref₀ : (s.files f₀).ref ≠ 0) (ref₁ : (s.files f₁).ref ≠ 0)
    (bound : p < PHYSTOP / PGSIZE) (fresh : (s.pipes p).inUse = false)
    (moves : Moves s.phys t.phys 0 {p}) (slots : t.slots = s.slots) (init : t.initproc = s.initproc)
    (pipes : t.pipes = update s.pipes p ⟨true, true⟩)
    (files : t.files = update (update s.files f₀
      { s.files f₀ with type := .FD_PIPE, writable := false, pipe := p }) f₁
      { s.files f₁ with type := .FD_PIPE, writable := true, pipe := p }) : FileStep s t := by
  have file₀ : t.files f₀ = { s.files f₀ with type := .FD_PIPE, writable := false, pipe := p } := by
    rw [files, update_of_ne ne, update_self]
  have file₁ : t.files f₁ = { s.files f₁ with type := .FD_PIPE, writable := true, pipe := p } := by
    rw [files, update_self]
  have other : ∀ k, k ≠ f₀ → k ≠ f₁ → t.files k = s.files k := by
    intro k ne₀ ne₁
    rw [files, update_of_ne ne₁, update_of_ne ne₀]
  have elsewhere : ∀ k, (s.files k).type = .FD_PIPE → (s.files k).pipe ≠ p := by
    intro k kind same
    have opened := sound.ends k kind
    rw [same] at opened
    have used := (Pipe.inUse_iff _).mpr ⟨_, opened⟩
    rw [fresh] at used
    cases used
  have which : ∀ k, (t.files k).type = .FD_PIPE → (k = f₀ ∨ k = f₁) ∧ (t.files k).pipe = p ∨
      (s.files k).type = .FD_PIPE ∧ t.files k = s.files k := by
    intro k kind
    by_cases h₀ : k = f₀
    · exact Or.inl ⟨Or.inl h₀, by rw [h₀, file₀]⟩
    · by_cases h₁ : k = f₁
      · exact Or.inl ⟨Or.inr h₁, by rw [h₁, file₁]⟩
      · have same := other k h₀ h₁
        exact Or.inr ⟨same ▸ kind, same⟩
  have account : t.pipeFrames = s.pipeFrames + {p} := by
    have sum := pipeFrames_change (s := s) (t := t) bound
      (fun q ne => by rw [pipes, update_of_ne ne])
    have before : s.pipeFrame p = 0 := by
      rw [Sys.pipeFrame, fresh]
      rfl
    have after : t.pipeFrame p = {p} := by
      rw [Sys.pipeFrame, pipes, update_self]
      rfl
    rwa [before, after, add_zero] at sum
  refine ⟨?_, ?_, fun _ => by rw [slots], fun _ => by rw [slots], fun _ => by rw [slots],
    fun _ => by rw [slots], init⟩
  · rw [account]
    simpa only [add_zero] using moves.frame_left s.pipeFrames
  · constructor
    · intro k free kind
      obtain ⟨rfl | rfl, _⟩ | ⟨kind', same⟩ := which k kind
      · rw [file₀] at free
        exact ref₀ free
      · rw [file₁] at free
        exact ref₁ free
      · rw [same] at free
        exact sound.idle k free kind'
    · intro k kind
      obtain ⟨rfl | rfl, _⟩ | ⟨kind', same⟩ := which k kind
      · rw [file₀, pipes, update_self]
        rfl
      · rw [file₁, pipes, update_self]
        rfl
      · rw [same, pipes, update_of_ne (elsewhere k kind')]
        exact sound.ends k kind'
    · intro k l kind kind' pipe writable
      obtain ⟨ends, inside⟩ | ⟨old, same⟩ := which k kind
      · obtain ⟨ends', _⟩ | ⟨old', same'⟩ := which l kind'
        · obtain rfl | rfl := ends
          · obtain rfl | rfl := ends'
            · rfl
            · rw [file₀, file₁] at writable
              cases writable
          · obtain rfl | rfl := ends'
            · rw [file₀, file₁] at writable
              cases writable
            · rfl
        · rw [inside, same'] at pipe
          exact absurd pipe.symm (elsewhere l old')
      · obtain ⟨_, inside'⟩ | ⟨old', same'⟩ := which l kind'
        · rw [same, inside'] at pipe
          exact absurd pipe (elsewhere k old)
        · rw [same, same'] at pipe writable
          exact sound.single k l old old' pipe writable
    · intro q w opened
      rw [pipes] at opened
      by_cases here : q = p
      · subst here
        cases w with
        | false => exact ⟨f₀, by rw [file₀]; exact ⟨rfl, rfl, rfl⟩⟩
        | true => exact ⟨f₁, by rw [file₁]; exact ⟨rfl, rfl, rfl⟩⟩
      · rw [update_of_ne here] at opened
        obtain ⟨k, kind, facts⟩ := sound.held q w opened
        have ne₀ : k ≠ f₀ := by
          rintro rfl
          exact idle₀ kind
        have ne₁ : k ≠ f₁ := by
          rintro rfl
          exact idle₁ kind
        exact ⟨k, by rw [other k ne₀ ne₁]; exact ⟨kind, facts⟩⟩
    · intro q used
      by_cases here : q = p
      · rwa [here]
      · rw [pipes, update_of_ne here] at used
        exact sound.range q used

theorem pipealloc_spec {s : Sys} (sound : s.FilesSound)
    (free : ∀ f ∈ s.phys.freelist, f < PHYSTOP / PGSIZE ∧ (s.pipes f).inUse = false) :
    Sat pipealloc s (fun _ t => FileStep s t) noExit := by
  rw [pipealloc]
  refine .bind (filealloc_spec s) fun r t first => ?_
  cases r with
  | none =>
    subst first
    exact .refl sound
  | some f₀ =>
    obtain ⟨idle₀, rfl⟩ := first
    have step₀ := FileStep.taken sound idle₀
    dsimp only
    refine .bind (filealloc_spec _) fun r t second => ?_
    cases r with
    | none =>
      subst second
      dsimp only
      refine .bind (fileclose_spec step₀.files f₀) fun _ u closed => ?_
      exact step₀.trans closed.1
    | some f₁ =>
      obtain ⟨idle₁, rfl⟩ := second
      have step₁ := step₀.trans (FileStep.taken step₀.files idle₁)
      have ne : f₀ ≠ f₁ := by
        rintro rfl
        simp [Sys.setFile] at idle₁
      dsimp only
      rw [sat_bind, sysPhys, sat_zoom]
      refine (kalloc_spec _).imp (fun r m taken => ?_)
      cases r with
      | none =>
        subst taken
        dsimp only
        refine .bind (fileclose_spec step₁.files f₀) fun _ u closed => ?_
        refine .bind (fileclose_spec closed.1.files f₁) fun _ v closed' => ?_
        exact (step₁.trans closed.1).trans closed'.1
      | some p =>
        obtain ⟨list, bytes, image⟩ := taken
        obtain ⟨bound, fresh⟩ := free p (by
          have list : s.phys.freelist = p :: m.freelist := list
          rw [list]
          exact List.mem_cons_self)
        simp only [sat_bind, sat_modify, modifyFile, sat_pure]
        have idle₁' : (s.files f₁).ref = 0 := by
          simpa [Sys.setFile, update_of_ne ne.symm] using idle₁
        refine step₁.trans (FileStep.piped step₁.files ne ?_ ?_ ?_ ?_ bound fresh
          (kalloc_moves list bytes image) rfl rfl rfl ?_)
        · simpa [Sys.setFile, update_of_ne ne] using sound.idle f₀ idle₀
        · simpa [Sys.setFile, update_of_ne ne.symm] using sound.idle f₁ idle₁'
        · simp [Sys.setFile, update_of_ne ne]
        · simp [Sys.setFile]
        · simp [Sys.setFile, Sys.setPipe, update_of_ne ne, update_of_ne ne.symm]

theorem fdalloc_spec {s : Sys} (sound : s.FilesSound) (i f : Nat) :
    Sat (fdalloc i f) s (fun _ t => FileStep s t) noExit := by
  rw [fdalloc, sat_bind, sat_get]
  split
  · exact .refl sound
  · exact .bind (setFd_spec sound i _ _) fun _ _ step => step.1

theorem pipeFds_spec {s : Sys} (sound : s.FilesSound) (i rf wf : Nat) :
    Sat (pipeFds i rf wf) s (fun _ t => FileStep s t) noExit := by
  have undo : ∀ t : Sys, FileStep s t →
      Sat (do
        fileclose rf
        fileclose wf
        return (none : Option (Nat × Nat))) t (fun _ u => FileStep s u) noExit := by
    intro t before
    refine .bind (fileclose_spec before.files rf) fun _ u closed => ?_
    refine .bind (fileclose_spec closed.1.files wf) fun _ v closed' => ?_
    exact (before.trans closed.1).trans closed'.1
  rw [pipeFds]
  refine .bind (fdalloc_spec sound i rf) fun r t first => ?_
  cases r with
  | none => exact undo t first
  | some fd0 =>
    dsimp only
    refine .bind (fdalloc_spec first.files i wf) fun r u second => ?_
    cases r with
    | none =>
      dsimp only
      refine .bind (setFd_spec second.files i fd0 none) ?_
      rintro _ v ⟨cleared, _⟩
      exact undo v ((first.trans second).trans cleared)
    | some fd1 => exact first.trans second

theorem sysClose_spec {s : Sys} (sound : s.FilesSound) (i fd : Nat) :
    Sat (sysClose i fd) s (fun _ t => FileStep s t) noExit := by
  rw [sysClose, sat_bind, sat_get]
  cases (s.slots i).ofile fd with
  | none => exact .refl sound
  | some f =>
    dsimp only
    split
    · refine .bind (setFd_spec sound i fd none) ?_
      rintro _ t ⟨cleared, _⟩
      refine .bind (fileclose_spec cleared.files f) fun _ u closed => ?_
      exact cleared.trans closed.1
    · exact .refl sound

end Xv6
