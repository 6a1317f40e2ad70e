import Xv6.ExecProofs

/-! Why the routines of the memory system stop. Apart from those that map pages, none
of them stops for a reason that depends on the shape of an address space. -/
namespace Xv6
open Control

/-- What can stop a routine that maps no page. -/
inductive Stop.Ordinary : Stop → Prop where
  | nullPte : Ordinary .nullPte
  | exit : Ordinary .exit
  | fault : Ordinary .fault
  | spin : Ordinary .spin
  | kfree : Ordinary (.panic "kfree")
  | clearpteu : Ordinary (.panic "clearpteu")
  | loaduvm : Ordinary (.panic "loaduvm: address should exist")
  | unaligned : Ordinary (.panic "loaduvm: addr must be page aligned")

/-- The reasons include the panics of the routines that map no page. -/
class Stop.Panics (E : Stop → Prop) : Prop where
  kfree : E (.panic "kfree")
  clearpteu : E (.panic "clearpteu")
  loaduvm : E (.panic "loaduvm: address should exist")
  unaligned : E (.panic "loaduvm: addr must be page aligned")

instance : Stop.Panics Stop.Ordinary := ⟨.kfree, .clearpteu, .loaduvm, .unaligned⟩

section Phys
variable {E : Stop → Prop} [Stop.Panics E]

omit [Stop.Panics E] in
theorem kalloc_only : Only E kalloc := by
  refine .bind .get fun m => ?_
  split
  · exact .pure _
  · exact .bind (.modify _) fun _ => .pure _

theorem kfree_only (frame : Nat) : Only E (kfree frame) :=
  .bind .get fun _ => .ite (.throw Stop.Panics.kfree) (.bind (.modify _) fun _ => .modify _)

theorem deallocuvmLoop_only (oldsz n : Nat) (d : PgDir) (a : Nat) :
    Only E (deallocuvmLoop oldsz n d a) := by
  induction n generalizing d a with
  | zero => exact .pure _
  | succ n ih =>
    rw [deallocuvmLoop]
    refine .ite ?_ (.pure _)
    split
    · exact ih _ _
    · exact .ite (.ite (.throw Stop.Panics.kfree) (.bind (kfree_only _) fun _ => ih _ _)) (ih _ _)

theorem deallocuvm_only (d : PgDir) (oldsz newsz : Nat) :
    Only E (deallocuvm d oldsz newsz) :=
  .ite (.pure _) (.bind (deallocuvmLoop_only _ _ _ _) fun _ => .pure _)

theorem freevm_only (d : PgDir) : Only E (freevm d) := by
  have tables : ∀ (d : PgDir) (n : Nat), Only E (freevmLoop d n) := by
    intro d n
    induction n with
    | zero => exact .pure _
    | succ n ih =>
      rw [freevmLoop]
      split
      · exact ih
      · exact .bind (kfree_only _) fun _ => ih
  exact .bind (deallocuvm_only _ _ _) fun _ => .bind (tables _ _) fun _ => kfree_only _

theorem clearpteu_only (d : PgDir) (uva : Nat) : Only E (clearpteu d uva) := by
  unfold clearpteu
  split
  · exact .throw Stop.Panics.clearpteu
  · exact .pure _

theorem loaduvm_only (d : PgDir) (addr : Nat) (ip : Inode) (off sz : Nat) :
    Only E (loaduvm d addr ip off sz) := by
  have pages : ∀ n i, Only E (loaduvmLoop d addr ip off sz n i) := by
    intro n
    induction n with
    | zero => exact fun _ => .pure _
    | succ n ih =>
      intro i
      rw [loaduvmLoop]
      split
      · exact .throw Stop.Panics.loaduvm
      · dsimp only
        split
        · exact .pure _
        · exact .bind (.modify _) fun _ => .ite (.pure _) (ih _)
  exact .ite (.throw Stop.Panics.unaligned) (pages _ _)

end Phys

/-- Whatever lies behind the null pointer, the computation does what it does on the machine that
stops there, unless it comes to that pointer. -/
abbrev Steady {σ α : Type} (E : Stop → Prop) (m : NullPte → EStateM Stop σ α) : Prop :=
  Lifts NullPte.stop .nullPte E m

section Crypt

theorem derefPte_steady (d : PgDir) (va : Nat) : Steady Stop.Ordinary fun _ => derefPte d va := by
  intro N s
  rw [sat_derefPte]
  cases walk : walkpgdir d va with
  | none => exact ⟨.nullPte, .inl rfl⟩
  | some pte =>
    unfold derefPte
    rw [walk]
    rfl

theorem uva2ka_steady (d : PgDir) (va : Nat) : Steady Stop.Ordinary fun _ => uva2ka d va :=
  .bind (derefPte_steady d va) fun _ => .ite (.ite (.pure _) (.pure _)) (.pure _)

theorem storePte_steady (va : Nat) (pte : Pte) :
    Steady Stop.Ordinary fun _ => storePte va pte := by
  refine .bind .get fun s => ?_
  cases walkpgdir s.proc.pgdir va with
  | none => exact fun N t => ⟨.nullPte, .inl rfl⟩
  | some _ => exact .modify _

theorem xorPage_steady (va : Nat) : Steady Stop.Ordinary fun _ => xorPage va := by
  refine .bind .get fun s => ?_
  cases walkpgdir s.proc.pgdir va with
  | none => exact .throw .exit
  | some _ => exact .ite (.modify _) (.throw .fault)

theorem translateAndSet_steady (va : Nat) : Steady Stop.Ordinary fun _ => translateAndSet va :=
  .bind .get fun _ => .bind (derefPte_steady _ _) fun _ =>
    .ite (.pure _) (.ite (.pure _) (.ite (.pure _) (.bind (.modify _) fun _ => .pure _)))

theorem mencrypt_steady (va : Nat) (len : Int) : Steady Stop.Ordinary fun _ => mencrypt va len := by
  have check : ∀ (d : PgDir) n a, Steady Stop.Ordinary fun _ => mencryptCheck d n a := by
    intro d n
    induction n with
    | zero => exact fun _ => .pure _
    | succ n ih =>
      intro a
      refine .bind (uva2ka_steady d a) fun r => ?_
      cases r with
      | none => exact .pure _
      | some _ => exact ih _
  have loop : ∀ n a, Steady Stop.Ordinary fun _ => mencryptLoop n a := by
    intro n
    induction n with
    | zero => exact fun _ => .bind (.modify _) fun _ => .pure _
    | succ n ih =>
      intro a
      refine .bind .get fun _ => .bind (uva2ka_steady _ _) fun _ => .bind (derefPte_steady _ _) fun _ =>
        .ite (ih _) (.bind (xorPage_steady _) fun _ => .bind (translateAndSet_steady _) fun r => ?_)
      cases r with
      | none => exact .pure _
      | some _ => exact .pure _
  refine .bind .get fun _ => .bind (check _ _ _) fun ok => ?_
  cases ok with
  | false => exact .pure _
  | true => exact loop _ _

theorem addClock_steady (va : Nat) : Steady Stop.Ordinary fun _ => addClock va := by
  have evict : ∀ head n cur, Steady Stop.Ordinary fun _ => evictLoop va head n cur := by
    intro head n
    induction n with
    | zero => exact fun _ => .throw .spin
    | succ n ih =>
      intro cur
      exact .bind .get fun _ => .bind (derefPte_steady _ _) fun _ =>
        .ite (.bind (mencrypt_steady _ _) fun _ => .modify _)
          (.bind (storePte_steady _ _) fun _ => .bind (.modify _) fun _ => .bind .get fun _ => ih _)
  refine .bind .get fun s => ?_
  dsimp only
  cases emptySlot s.proc with
  | some _ => exact .bind (.modify _) fun _ => .bind (derefPte_steady _ _) fun _ => .modify _
  | none => exact evict _ _ _

theorem mdecrypt_steady (va : Nat) : Steady Stop.Ordinary fun _ => mdecrypt va := by
  have page : Steady Stop.Ordinary fun _ => mdecryptPage va := by
    refine .bind .get fun _ => .bind (derefPte_steady _ _) fun _ => .bind (.modify _) fun _ =>
      .bind .get fun _ => .bind (uva2ka_steady _ _) fun r => ?_
    cases r with
    | none => exact .pure _
    | some _ => exact .bind .get fun _ => .ite (.pure _) (.bind (xorPage_steady _) fun _ => .pure _)
  refine .bind .get fun s => ?_
  dsimp only
  cases walkpgdir s.proc.pgdir va with
  | none => exact .pure _
  | some _ =>
    refine .ite (.pure _) ?_
    cases inQ s.proc va with
    | none => exact .bind (addClock_steady _) fun _ => page
    | some _ => exact page

theorem access_steady (user : Bool) (va : Nat) : Steady Stop.Ordinary fun _ => access user va := by
  refine .bind .get fun s => ?_
  cases s.proc.resident user va with
  | some _ => exact .bind (.modify _) fun _ => .pure _
  | none =>
    refine .bind (.bind (mdecrypt_steady _) fun _ => .ite (.throw .exit) (.pure _)) fun _ =>
      .bind .get fun t => ?_
    cases t.proc.resident user va with
    | some _ => exact .bind (.modify _) fun _ => .pure _
    | none => exact .throw .fault

theorem load_steady (user : Bool) (va : Nat) : Steady Stop.Ordinary fun _ => load user va :=
  .bind (access_steady _ _) fun _ => .bind .get fun _ => .pure _

theorem store_steady (user : Bool) (va : Nat) (b : UInt8) : Steady Stop.Ordinary fun _ => store user va b :=
  .bind (access_steady _ _) fun _ => .modify _

end Crypt

section Exec

theorem strlen_steady (s : Nat) : Steady Stop.Ordinary fun _ => strlen s := by
  have loop : ∀ fuel n, Steady Stop.Ordinary fun _ => strlenLoop s fuel n := by
    intro fuel
    induction fuel with
    | zero => exact fun _ => .throw .spin
    | succ fuel ih => exact fun _ => .bind (load_steady _ _) fun _ => .ite (.pure _) (ih _)
  exact loop _ _

theorem copyout_steady (d : PgDir) (va : Nat) {src : NullPte → Nat → K UInt8}
    (source : ∀ i, Steady Stop.Ordinary fun N => src N i) (len : Nat) :
    Steady Stop.Ordinary fun N => copyout d va (src N) len := by
  have move : ∀ frame n va i, Steady Stop.Ordinary fun N => moveLoop (src N) frame va n i := by
    intro frame n
    induction n with
    | zero => exact fun _ _ => .pure _
    | succ n ih => exact fun _ _ => .bind (source _) fun _ => .bind (.modify _) fun _ => ih _ _
  have stray : ∀ frame n va i, Steady Stop.Ordinary fun N => strayLoop (src N) frame va n i := by
    intro frame n
    induction n with
    | zero => exact fun _ _ => .pure _
    | succ n ih => exact fun _ _ => .bind (source _) fun _ => .bind (.modify _) fun _ => ih _ _
  have loop : ∀ fuel va len i, Steady Stop.Ordinary fun N => copyoutLoop d (src N) fuel va len i := by
    intro fuel
    induction fuel with
    | zero => exact fun _ _ _ => .throw .spin
    | succ fuel ih =>
      intro va len i
      refine .ite (.bind (uva2ka_steady _ _) fun r => ?_) (.pure _)
      cases r with
      | none => exact .pure _
      | some _ =>
        refine .bind ?_ fun _ => ih _ _ _
        unfold moveOut
        cases walkpgdir d (pgRoundDown va) with
        | none => exact stray _ _ _ _
        | some _ => exact move _ _ _ _
  exact loop _ _ _ _

theorem execArgs_steady (d : PgDir) (argv : List Nat) (sp : Nat) (args : List Nat) :
    Steady Stop.Ordinary fun _ => execArgs d argv sp args := by
  induction argv generalizing sp args with
  | nil => exact .pure _
  | cons arg rest ih =>
    exact .ite (.pure _) (.bind (strlen_steady _) fun _ => .bind (strlen_steady _) fun _ =>
      .bind (copyout_steady _ _ (fun _ => load_steady _ _) _) fun _ => .ite (ih _ _) (.pure _))

theorem loadStr_steady (s fuel n : Nat) : Steady Stop.Ordinary fun _ => loadStr s fuel n := by
  induction fuel generalizing n with
  | zero => exact .throw .spin
  | succ fuel ih =>
    exact .bind (load_steady _ _) fun _ => .ite (.pure _) (.bind (ih _) fun _ => .pure _)

theorem safestrcpy_steady (t n : Nat) : Steady Stop.Ordinary fun _ => safestrcpy t n := by
  induction n generalizing t with
  | zero => exact .pure _
  | succ n ih =>
    exact .bind (load_steady _ _) fun _ => .ite (.pure _) (.bind (ih _) fun _ => .pure _)

theorem execStack_steady (d : PgDir) (sz path : Nat) (argv : List Nat) :
    Steady Stop.Ordinary fun _ => execStack d sz path argv := by
  refine .bind (execArgs_steady _ _ _ _) fun r => ?_
  cases r with
  | none => exact .pure _
  | some r =>
    exact .bind (copyout_steady _ _ (fun _ => .pure _) _) fun _ =>
      .ite (.bind (loadStr_steady _ _ _) fun _ => .bind (safestrcpy_steady _ _) fun _ => .pure _)
        (.pure _)

theorem execCommit_steady (d : PgDir) (sz sp entry : Nat) (name : List UInt8) :
    Steady Stop.Ordinary fun _ => execCommit d sz sp entry name :=
  .bind .get fun _ => .bind (.modify _) fun _ => .bind (.modify _) fun _ =>
    .bind (.modify _) fun _ => .bind (mencrypt_steady _ _) fun _ => .bind (mencrypt_steady _ _) fun _ =>
      .const (.zoom (freevm_only _))

theorem fetchstr_steady (addr : Nat) : Steady Stop.Ordinary fun _ => fetchstr addr := by
  have loop : ∀ n s, Steady Stop.Ordinary fun _ => fetchstrLoop n s := by
    intro n
    induction n with
    | zero => exact fun _ => .pure _
    | succ n ih => exact fun _ => .bind (load_steady _ _) fun _ => .ite (.pure _) (ih _)
  exact .bind .get fun _ => .ite (.pure _) (loop _ _)

theorem fetchArgs_steady (uargv n i : Nat) : Steady Stop.Ordinary fun _ => fetchArgs uargv n i := by
  have word : ∀ addr, Steady Stop.Ordinary fun _ => fetchint addr := fun addr =>
    .bind .get fun _ => .ite (.pure _) (.bind (load_steady _ _) fun _ => .bind (load_steady _ _) fun _ =>
      .bind (load_steady _ _) fun _ => .bind (load_steady _ _) fun _ => .pure _)
  induction n generalizing i with
  | zero => exact .pure _
  | succ n ih =>
    refine .bind (word _) fun r => ?_
    cases r with
    | none => exact .pure _
    | some uarg =>
      exact .ite (.pure _) (.bind (fetchstr_steady _) fun _ =>
        .ite (.bind (ih _) fun _ => .pure _) (.pure _))

end Exec

end Xv6
