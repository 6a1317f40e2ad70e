import Xv6.Mmu

/-! Physical memory and its allocator, `kalloc.c`. A frame is named by its
physical page number. The free list, which the kernel threads through the free
frames themselves, is kept as a list of frames. -/
namespace Xv6

abbrev Page := Fin 4096 → UInt8

instance Page.neZero : NeZero 4096 := ⟨by decide⟩

/-- The byte of a page an address selects. -/
def slot (va : Nat) : Fin 4096 := ⟨va % 4096, Nat.mod_lt _ (by decide)⟩

def Page.fill (c : UInt8) : Page := fun _ => c

/-- Every byte XORed with `0xFF`: the loops of `mencrypt` and `mdecrypt`. -/
def Page.flip (page : Page) : Page := fun k => page k ^^^ 0xFF

@[simp] theorem Page.flip_flip (page : Page) : page.flip.flip = page := by
  funext k
  rw [Page.flip, Page.flip, UInt8.xor_assoc, UInt8.xor_self, UInt8.xor_zero]

/-- Where the linker put the kernel: the start of its data segment, a page
boundary inside the range the kernel maps, and the first frame after it. -/
structure Image where
  data : Nat
  end_ : Nat
  aligned : data % 4096 = 0
  above : 0x80100000 < data
  below : data < 0x8E000000

structure Phys where
  image : Image
  bytes : Nat → Page
  freelist : List Nat

/-- Why a computation of the kernel does not return to its caller. -/
inductive Stop where
  | panic (msg : String)
  /-- A page-table entry was read through the null pointer `walkpgdir` returned. -/
  | nullPte
  /-- The process called `exit` from inside the kernel. -/
  | exit
  /-- The kernel touched a user page that is not present, outside the places
  where the source expects a page fault. -/
  | fault
  /-- A loop of the source is still running after the rounds it is given. -/
  | spin
  /-- The call has to wait for another process. -/
  | sleep
  /-- The power failed before a block was written to disk. -/
  | crash
  deriving DecidableEq, Repr

abbrev M := EStateM Stop Phys

def kalloc : M (Option Nat) := do
  match (← get).freelist with
  | [] => return none
  | r :: rest =>
    modify fun m => { m with freelist := rest }
    return some r

/-- Overwrite a whole frame. -/
def Phys.write (m : Phys) (frame : Nat) (page : Page) : Phys :=
  { m with bytes := Function.update m.bytes frame page }

def memset (frame : Nat) (c : UInt8) : M Unit :=
  modify fun m => m.write frame (Page.fill c)

def kfree (frame : Nat) : M Unit := do
  if frame < (← get).image.end_ ∨ PHYSTOP / PGSIZE ≤ frame then
    throw (.panic "kfree")
  else
    memset frame 1
    modify fun m => { m with freelist := frame :: m.freelist }

end Xv6
