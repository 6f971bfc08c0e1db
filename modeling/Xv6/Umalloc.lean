import Xv6.Linked
import Xv6.Tiling

/-!
# The allocator of user programs

`umalloc.c` keeps the free blocks in a circular list through `base`. A block begins with a header of 16 bytes; addresses
are in bytes, and sizes, as in the source, in headers and modulo `2 ^ 32`. The header at an address is given by the two
maps `ptr` and `size`. What `sbrk` has given so far is `regions`, the last one first; the calls get the answer of `sbrk`
as an argument, which may depend on these.

The loops of `free` and `malloc` may not come to an end in a heap that is not in order, so the functions have a bound on
the number of steps and return nothing when it is reached.
-/

namespace Xv6

namespace Umalloc

/-- The size of a header. -/
abbrev HDR : ℕ := 16

/-- A block at an address, with its size in headers. -/
structure Block where
  addr : ℕ
  size : ℕ
deriving DecidableEq, Repr

/-- Where a block ends. -/
def Block.fin (b : Block) : ℕ :=
  b.addr + 16 * b.size

structure Heap where
  ptr : ℕ → ℕ
  size : ℕ → ℕ
  freep : ℕ
  regions : List Block

namespace Heap

def setPtr (h : Heap) (a q : ℕ) : Heap :=
  { h with ptr := Function.update h.ptr a q }

def setSize (h : Heap) (a n : ℕ) : Heap :=
  { h with size := Function.update h.size a (n % 4294967296) }

end Heap

/-- What ends the search of `free` at `p`. -/
def around (h : Heap) (bp p : ℕ) : Bool :=
  (bp > p ∧ bp < h.ptr p) ∨ (p ≥ h.ptr p ∧ (bp > p ∨ bp < h.ptr p))

def free (fuel ap : ℕ) (h : Heap) : Option Heap := do
  let bp := ap - HDR
  let p ← seek (around h bp) h.ptr fuel h.freep
  let h :=
    if bp + 16 * h.size bp = h.ptr p then
      (h.setSize bp (h.size bp + h.size (h.ptr p))).setPtr bp (h.ptr (h.ptr p))
    else h.setPtr bp (h.ptr p)
  let h :=
    if p + 16 * h.size p = bp then (h.setSize p (h.size p + h.size bp)).setPtr p (h.ptr bp)
    else h.setPtr p bp
  return { h with freep := p }

/-- `morecore`; the answer of `sbrk`, for the regions so far and a number of bytes, is an argument. -/
def morecore (sbrk : List Block → ℕ → Option ℕ) (fuel nu : ℕ) (h : Heap) : Option (Option ℕ × Heap) :=
  let nu := if nu < 4096 then 4096 else nu
  match sbrk h.regions (nu * HDR) with
  | none => some (none, h)
  | some hp => do
    let h ← free fuel (hp + HDR) { h.setSize hp nu with regions := ⟨hp, nu⟩ :: h.regions }
    return (some h.freep, h)

/-- The loop of `malloc`. -/
def mallocFrom (sbrk : List Block → ℕ → Option ℕ) (nunits : ℕ) : ℕ → ℕ → ℕ → Heap → Option (Option ℕ × Heap)
  | 0, _, _, _ => none
  | n + 1, prevp, p, h =>
    if h.size p ≥ nunits then
      if h.size p = nunits then some (some (p + HDR), { h.setPtr prevp (h.ptr p) with freep := prevp })
      else
        let h := h.setSize p (h.size p - nunits)
        let p := p + 16 * h.size p
        some (some (p + HDR), { h.setSize p nunits with freep := prevp })
    else if p = h.freep then do
      match ← morecore sbrk n nunits h with
      | (none, h) => return (none, h)
      | (some p, h) => mallocFrom sbrk nunits n p (h.ptr p) h
    else mallocFrom sbrk nunits n p (h.ptr p) h

/-- The number of headers that `malloc` looks for. -/
def nunits (nbytes : ℕ) : ℕ :=
  (nbytes + HDR - 1) / HDR + 1

/-- `malloc`, with `base` at an address. -/
def malloc (base : ℕ) (sbrk : List Block → ℕ → Option ℕ) (fuel nbytes : ℕ) (h : Heap) : Option (Option ℕ × Heap) :=
  let h := if h.freep = 0 then { (h.setPtr base base).setSize base 0 with freep := base } else h
  mallocFrom sbrk (nunits nbytes) fuel h.freep (h.ptr h.freep) h

/-! ## The program -/

/-- A block that `malloc` has returned for a number of bytes, and that has not been freed. -/
structure Live where
  block : Block
  nbytes : ℕ
deriving DecidableEq, Repr

/-- The heap, and what the program has of it. -/
structure State where
  heap : Heap
  live : List Live

/-- What `sbrk` gives is a region beyond `base` and all regions it has given before. -/
def Fresh (base : ℕ) (sbrk : List Block → ℕ → Option ℕ) : Prop :=
  ∀ rs n p, sbrk rs n = some p → base + HDR ≤ p ∧ ∀ r ∈ rs, r.fin ≤ p

/-- The calls of a program that frees nothing but what it has got, and what it writes in between. `sbrk` may answer as it
likes, as long as its answers are `ok`. -/
inductive Step (base : ℕ) (ok : (List Block → ℕ → Option ℕ) → Prop) : State → State → Prop
  | malloc {s : State} {h : Heap} {ap : ℕ} (sbrk : List Block → ℕ → Option ℕ) (fuel nbytes : ℕ) : ok sbrk →
      nbytes < 4294967296 → malloc base sbrk fuel nbytes s.heap = some (some ap, h) →
      Step base ok s ⟨h, ⟨⟨ap - HDR, h.size (ap - HDR)⟩, nbytes⟩ :: s.live⟩
  | full {s : State} {h : Heap} (sbrk : List Block → ℕ → Option ℕ) (fuel nbytes : ℕ) : ok sbrk →
      nbytes < 4294967296 → malloc base sbrk fuel nbytes s.heap = some (none, h) → Step base ok s ⟨h, s.live⟩
  | free {s : State} {h : Heap} (fuel : ℕ) (b : Live) : b ∈ s.live →
      free fuel (b.block.addr + HDR) s.heap = some h → Step base ok s ⟨h, s.live.erase b⟩
  | write {s : State} {h : Heap} : h.freep = s.heap.freep → h.regions = s.heap.regions →
      -- only what is in a block after its header is written
      (∀ a, (∀ b ∈ s.live, ¬ (b.block.addr < a ∧ a < b.block.fin)) →
        h.ptr a = s.heap.ptr a ∧ h.size a = s.heap.size a) →
      Step base ok s ⟨h, s.live⟩

end Umalloc

end Xv6
