import Xv6.ExecProofs

/-! What each event of the machine can do. The kernel is run through once here;
the results about whole runs are drawn from these outcomes. -/
namespace Xv6
open Control

/-- No string of an `exec` can end the process before the new image is in place. -/
def Event.sparesImage (s : Sys) (e : Event) : Prop :=
  match e.call with
  | .exec _ path uargv => (s.view e.proc).execSafe path.toNat uargv.toNat
  | _ => True

/-- The machine after a call of process `i`, with the result of the call. -/
inductive Outcome (i : Nat) (s : Sys) : Call → Option Int → Sys → Prop where
  | load {va : BitVec 32} {b : UInt8} {st : St} :
      (Xv6.load true va.toNat).run (s.view i) = .ok b st →
      Outcome i s (.load va) (some b.toNat) (s.put i st)
  | store {va : BitVec 32} {b : UInt8} {st : St} :
      (Xv6.store true va.toNat b).run (s.view i) = .ok () st →
      Outcome i s (.store va b) (some 0) (s.put i st)
  | mencrypt {va len : BitVec 32} {r : Int} :
      Outcome i s (.mencrypt va len) (some r)
        (s.put i ((s.view i).mencrypted va.toNat len.toInt))
  | growproc {n : BitVec 32} {r : Int} {st : St} : Resize (s.view i) n.toInt r st →
      Outcome i s (.growproc n) (some r) (s.put i st)
  | exec {namei : List UInt8 → Option Inode} {path uargv : BitVec 32} {r : Int} {st : St} :
      ExecDone namei (s.view i) path.toNat r st →
      Outcome i s (.exec namei path uargv) (some r) (s.put i st)
  | unforked {t : Sys} : Unforked s t → Outcome i s .fork (some (-1)) t
  | forked {np : Nat} {r : Int} {t : Sys} : np < NPROC → Forked i np s t →
      Outcome i s .fork (some r) t
  | waited {r : Int} : Outcome i s .wait (some r) s
  | reaped {j : Nat} {r : Int} {t : Sys} : j < NPROC → Reaped j s t → Outcome i s .wait (some r) t
  | piped {fd : BitVec 32} {r : Int} {t : Sys} : Piped i s t → Outcome i s (.pipe fd) (some r) t
  | closed {fd : BitVec 32} {r : Int} {t : Sys} : FileStep s t →
      Outcome i s (.close fd) (some r) t
  /- The process has ended, after changes to the file table and to its own memory;
  the frames in `L` are lost with it. -/
  | ended {call : Call} {u t : Sys} {st : St} {L : Multiset Nat} : FileStep s u →
      Settles (u.view i) st L → (Event.sparesImage s ⟨i, call, none⟩ → L = 0) →
      Exited i (u.put i st) t → Outcome i s call none t

section Perform
variable {pool lost : Multiset Nat} {s : Sys} {i : Nat}

/-- A routine that runs for process `i`: the call is judged by what the routine
does to the process. -/
theorem sat_own (owned : s.Owned pool lost) (hi : i < NPROC)
    (used : (s.slots i).state ≠ .UNUSED) (call : Call) {α : Type} {k : K α} {f : α → Int}
    (body : call.body i = f <$> onProc i k)
    (spec : Sat k (s.view i) (fun r st => Outcome i s call (some (f r)) (s.put i st))
      (fun e st => e = .exit → ∃ L, Settles (s.view i) st L ∧
        (Event.sparesImage s ⟨i, call, none⟩ → L = 0))) :
    Sat (perform i call) s (Outcome i s call) (fun _ _ => True) := by
  apply sat_perform
  rw [body, sat_map, onProc, sat_zoom]
  refine spec.mono (fun r st done => done) (fun e st stop is => ?_)
  obtain ⟨L, settles, spares⟩ := stop is
  exact ⟨(owned.settled hi used settles).files,
    fun u exited => .ended (.refl owned.files) settles spares exited⟩

theorem perform_outcome (owned : s.Owned pool lost) (hi : i < NPROC)
    (live : (s.slots i).state.live = true) (call : Call) :
    Sat (perform i call) s (Outcome i s call) (fun _ _ => True) := by
  have used := live_used live
  have sound := owned.view hi used
  have stopped : ∀ e (st : St), (e ≠ Stop.exit ∨ Touches (s.view i) st) → e = .exit →
      ∃ L, Settles (s.view i) st L ∧ (Event.sparesImage s ⟨i, call, none⟩ → L = 0) :=
    fun e st stop is => ⟨0, (stop.resolve_left (not_not.mpr is)).settles sound, fun _ => rfl⟩
  cases call with
  | load va =>
    refine sat_own owned hi used (.load va) (k := load true va.toNat) (f := fun b => b.toNat) rfl ?_
    exact ((load_spec sound true va.toNat).and (sat_self _ _)).mono (fun b st done => .load done.2)
      (fun e st stop => stopped e st stop.1)
  | store va b =>
    refine sat_own owned hi used (.store va b) (k := store true va.toNat b) (f := fun _ => 0) rfl ?_
    exact ((store_spec sound true va.toNat b (Or.inl rfl)).and (sat_self _ _)).mono
      (fun _ st done => .store done.2) (fun e st stop => stopped e st stop.1)
  | mencrypt va len =>
    refine sat_own owned hi used (.mencrypt va len) (k := mencrypt va.toNat len.toInt) (f := id)
      (by rw [id_map]; rfl) ((mencrypt_spec va.toNat len.toInt (s.view i)).mono ?_
        (fun e st failed is => absurd is (by rw [failed.1]; exact nofun)))
    rintro r st ⟨_, rfl⟩
    exact .mencrypt
  | growproc n =>
    exact sat_own owned hi used (.growproc n) (k := growproc n.toInt) (f := id)
      (by rw [id_map]; rfl)
      ((growproc_spec sound n.toInt (BitVec.le_toInt n) BitVec.toInt_lt).mono
        (fun r st resize => .growproc resize) (fun e st stop is => absurd is stop))
  | exec namei path uargv =>
    exact sat_own owned hi used (.exec namei path uargv)
      (k := sysExec namei path.toNat uargv.toNat) (f := id) (by rw [id_map]; rfl)
      ((sysExec_spec sound namei path.toNat uargv.toNat).mono (fun r st done => .exec done)
        (fun _ _ cut => cut))
  | fork =>
    apply sat_perform
    refine (fork_spec owned hi used).mono ?_ (fun e st stop is => absurd is stop)
    rintro r t (⟨rfl, failed⟩ | ⟨np, hn, forked⟩)
    · exact .unforked failed
    · exact .forked hn forked
  | exit =>
    apply sat_perform
    intro _
    have stay := (Recrypt.refl (s.view i)).settles sound
    refine ⟨owned.files, fun u exited => .ended (.refl owned.files) stay (fun _ => rfl) ?_⟩
    rwa [s.put_view]
  | wait =>
    apply sat_perform
    refine (wait_spec s i).mono ?_ (fun e st stop is => absurd is stop)
    rintro r t (rfl | ⟨j, hj, reaped⟩)
    · exact .waited
    · exact .reaped hj reaped
  | pipe fd =>
    apply sat_perform
    refine (sysPipe_spec owned hi used fd.toNat).mono (fun r t piped => .piped piped) ?_
    intro e t stop is
    obtain ⟨u, st, files, touches, rfl⟩ := stop is
    have owned := owned.fileStep files
    have used : (u.slots i).state ≠ .UNUSED := by rwa [files.state i]
    have settles := touches.settles (owned.view hi used)
    exact ⟨(owned.settled hi used settles).files,
      fun v exited => .ended files settles (fun _ => rfl) exited⟩
  | close fd =>
    apply sat_perform
    exact (sysClose_spec owned.files i fd.toNat).mono (fun r t step => .closed step)
      (fun e st stop is => absurd is stop)

theorem Step.outcome {e : Event} {t : Sys} (step : Step s e t) (owned : s.Owned pool lost) :
    Outcome e.proc s e.call e.result t :=
  (perform_outcome owned step.1 step.2.1 e.call).of_ok step.2.2

end Perform
end Xv6
