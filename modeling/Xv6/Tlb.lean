import Xv6.Transparency

/-! The translation buffer of one process. A page that leaves memory while its
translation is still in the buffer can be read and written without a page fault,
so every path that clears `PTE_P` has to load `cr3` before user code goes on. -/
namespace Xv6
open PteBit Control

/-- What a process can do to its own pages: use them, and call `sys_mencrypt` and
`growproc`. -/
inductive UserCall where
  | load (va : BitVec 32)
  | store (va : BitVec 32) (b : UInt8)
  | mencrypt (va len : BitVec 32)
  | growproc (n : BitVec 32)

def UserCall.body : UserCall → K Unit
  | .load va => do
    let _ ← Xv6.load true va.toNat
  | .store va b => Xv6.store true va.toNat b
  | .mencrypt va len => do
    let _ ← sysMencrypt va.toNat len.toInt
  | .growproc n => do
    let _ ← Xv6.growproc n.toInt

section Access
variable {s : St} {va : Nat}

end Access

end Xv6
