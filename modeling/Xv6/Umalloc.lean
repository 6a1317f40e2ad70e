import Xv6.Lib.Extents
import Xv6.Lib.Ring
import Xv6.Lib.Run

/-! The allocator of the user library, `umalloc.c`. A header is two words at an address,
the link and the size in units of a header. The memory between headers belongs to the
program, which writes there what it likes. The loops take a bound on the number of turns. -/
namespace Xv6.Umalloc
open Function (update)

/-- `sizeof(Header)` -/
abbrev unit : Nat := 8

/-- The allocator's variables and the headers in memory. The last two fields only record
what `malloc` has given out, with the number of bytes asked for, and what `sbrk` has. -/
structure Heap where
  base : Nat
  freep : Nat
  ptr : Nat → Nat
  size : Nat → Nat
  live : List (Nat × Nat)
  regions : List (Nat × Nat)

/-- `p + u` for a pointer to a header. -/
def plus (p : Nat) (u : Nat) : Nat := (p + unit * u) % 2 ^ 32

/-- `(Header*)ap - 1` -/
def header (ap : Nat) : Nat := (ap + 2 ^ 32 - unit) % 2 ^ 32

namespace Heap

/-- Where the loop of `free` stops: between two blocks, or at the end of the list. -/
def here (s : Heap) (bp p : Nat) : Bool :=
  bp > p ∧ bp < s.ptr p ∨ p ≥ s.ptr p ∧ (bp > p ∨ bp < s.ptr p)

/-- Join with the block above, or link to it. -/
def linkUp (s : Heap) (bp p : Nat) : Heap :=
  let q := s.ptr p
  if plus bp (s.size bp) = q then
    { s with
      size := update s.size bp ((s.size bp + s.size q) % 2 ^ 32)
      ptr := update s.ptr bp (s.ptr q) }
  else { s with ptr := update s.ptr bp q }

/-- Join with the block below, or be linked from it. -/
def linkDown (s : Heap) (bp p : Nat) : Heap :=
  if plus p (s.size p) = bp then
    { s with
      size := update s.size p ((s.size p + s.size bp) % 2 ^ 32)
      ptr := update s.ptr p (s.ptr bp) }
  else { s with ptr := update s.ptr p bp }

def free (fuel : Nat) (s : Heap) (ap : Nat) : Option Heap :=
  let bp := header ap
  (Ring.hunt s.ptr (s.here bp) fuel s.freep).map fun p =>
    { (s.linkUp bp p).linkDown bp p with freep := p, live := s.live.filter fun b => b.1 ≠ bp }

/-- `morecore` when `sbrk` returns `r`. -/
def morecore (fuel : Nat) (s : Heap) (nu : Nat) (r : Nat) : Option Heap :=
  let nu := if nu < 4096 then 4096 else nu
  free fuel { s with size := update s.size r nu, regions := (r, nu) :: s.regions } (plus r 1)

/-- The first part of `malloc`. -/
def init (s : Heap) : Heap :=
  if s.freep = 0 then
    { s with
      ptr := update s.ptr s.base s.base
      freep := s.base
      size := update s.size s.base 0 }
  else s

/-- A block that is large enough is unlinked, or its tail is cut off. -/
def carve (s : Heap) (prevp p : Nat) (nunits : Nat) : Nat × Heap :=
  if s.size p = nunits then
    (p, { s with ptr := update s.ptr prevp (s.ptr p), freep := prevp })
  else
    let rest := s.size p - nunits
    let tail := plus p rest
    (tail, { s with size := update (update s.size p rest) tail nunits, freep := prevp })

/-- The loop of `malloc`. `answer` is what `sbrk` will return, or nothing if it fails; it is
asked once at most. -/
def search : Nat → Heap → Nat → Option Nat → Nat → Nat → Option (Nat × Heap)
  | 0, _, _, _, _, _ => none
  | fuel + 1, s, nunits, answer, prevp, p =>
    if s.size p ≥ nunits then
      let (bp, t) := s.carve prevp p nunits
      some (plus bp 1, t)
    else if p = s.freep then
      match answer with
      | none => some (0, s)
      | some r =>
        match s.morecore fuel nunits r with
        | none => none
        | some t => search fuel t nunits none t.freep (t.ptr t.freep)
    else search fuel s nunits answer p (s.ptr p)

def nunits (nbytes : Nat) : Nat := (nbytes + unit - 1) % 2 ^ 32 / unit + 1

def malloc (fuel : Nat) (s : Heap) (nbytes : Nat) (answer : Option Nat) : Option (Nat × Heap) :=
  let t := s.init
  (t.search fuel (nunits nbytes) answer t.freep (t.ptr t.freep)).map fun (ap, t) =>
    (ap, if ap = 0 then t else { t with live := (header ap, nbytes) :: t.live })

/-- The end of what `sbrk` has returned so far. -/
def top (s : Heap) : Nat :=
  match s.regions with
  | [] => s.base + unit
  | r :: _ => Extents.stop unit r

/-- What `sbrk` promises: a region that is above all earlier ones and in the address space. -/
def Fresh (s : Heap) (nbytes : Nat) (r : Nat) : Prop :=
  s.top ≤ r ∧ r + unit * max (nunits nbytes) 4096 < 2 ^ 32

instance (s : Heap) (nbytes r : Nat) : Decidable (s.Fresh nbytes r) := inferInstanceAs (Decidable (_ ∧ _))

end Heap

/-- What the program does: it asks for memory, gives some back, and writes to what it has.
A write changes what would be read as a header somewhere inside the block. -/
inductive Event where
  | malloc (nbytes : Nat) (answer : Option Nat)
  | free (ap : Nat)
  | write (b a ptr : Nat) (size : Nat)

namespace Heap

def Step (s : Heap) : Event → Heap → Prop
  | .malloc nbytes answer, t => nbytes ≤ 2 ^ 30 ∧ (∀ r, answer = some r → s.Fresh nbytes r) ∧
      ∃ fuel ap, s.malloc fuel nbytes answer = some (ap, t)
  | .free ap, t => (∃ n, (header ap, n) ∈ s.live) ∧ ∃ fuel, s.free fuel ap = some t
  | .write b a ptr size, t => (∃ n, (b, n) ∈ s.live) ∧ b < a ∧ a < b + unit * s.size b ∧
      t = { s with ptr := update s.ptr a ptr, size := update s.size a size }

/-- Before the first call, with anything in memory. -/
def start (base : Nat) (ptr : Nat → Nat) (size : Nat → Nat) : Heap where
  base := base
  freep := 0
  ptr := ptr
  size := size
  live := []
  regions := []

end Heap
end Xv6.Umalloc
