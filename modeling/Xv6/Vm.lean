import Mathlib.Logic.Function.Basic
import Xv6.Bytes

/-!
# Physical memory and page tables

kernel/kalloc.c and kernel/vm.c. A physical page is known by its number, which is its address divided by
`PGSIZE`; it has `PGSIZE` bytes, and a page of a page table holds 512 entries of eight bytes in them. A pointer to an
entry is its page and its index. A null pointer is `none`, and a `panic` ends the program with an exception.

The free list is a list : its links are in the free pages, where `kalloc` overwrites them before anyone looks.
`kalloc` may also fail while there are free pages (other CPUs have taken them in the meantime); `refusals` says
at which of the next calls it does, and `refused` records that some call has failed. Virtual addresses and sizes are natural
numbers below 2^64; the loops over pages stop at a `panic` of `walk` long before their counters could overflow.
-/

namespace Xv6

abbrev PGSIZE : ℕ := 4096
abbrev MAXVA : ℕ := 274877906944
abbrev TRAMPOLINE : ℕ := MAXVA - PGSIZE
abbrev TRAPFRAME : ℕ := TRAMPOLINE - PGSIZE
abbrev KERNBASE : ℕ := 0x80000000
abbrev PHYSTOP : ℕ := KERNBASE + 128 * 1024 * 1024

abbrev PTE_V : ℕ := 1
abbrev PTE_R : ℕ := 2
abbrev PTE_W : ℕ := 4
abbrev PTE_U : ℕ := 16

/-- The entry for a page, without flags. -/
def PA2PTE (p : ℕ) : ℕ :=
  p <<< 10

/-- The page of an entry. -/
def PTE2PA (pte : ℕ) : ℕ :=
  pte >>> 10

def PTE_FLAGS (pte : ℕ) : ℕ :=
  pte &&& 0x3ff

/-- The index of `va` in a page table of a level. -/
def PX (level va : ℕ) : Fin 512 :=
  ⟨(va >>> (12 + 9 * level)) % 512, Nat.mod_lt _ (Nat.succ_pos 511)⟩

def PGROUNDUP (sz : ℕ) : ℕ :=
  (sz + (PGSIZE - 1)) % 18446744073709551616 / PGSIZE * PGSIZE

def PGROUNDDOWN (a : ℕ) : ℕ :=
  a / PGSIZE * PGSIZE

/-- The calls of `panic`, and the use of a null pointer to an entry. -/
inductive VmPanic
  | kfree
  | walk
  | mappagesVa
  | mappagesSize
  | mappagesZero
  | mappagesRemap
  | uvmunmap
  | nullPte

/-- Where the kernel is : the first page after it, and the page of trampoline.S. -/
structure PhysLayout where
  endPage : ℕ
  trampoline : ℕ

/-- Physical memory. -/
structure Phys where
  layout : PhysLayout
  /-- `kmem.freelist` -/
  freelist : List ℕ
  page : ℕ → Bytes PGSIZE
  refusals : List Bool
  refused : Bool

abbrev VmM : Type → Type :=
  StateT Phys (Except VmPanic)

/-- A page of equal bytes. -/
def filled (b : UInt8) : Bytes PGSIZE :=
  fun _ => b

namespace Phys

variable (m : Phys)

def setPage (p : ℕ) (b : Bytes PGSIZE) : Phys :=
  { m with page := Function.update m.page p b }

/-- Entry `i` of the page table page `t`. -/
def pte (t : ℕ) (i : Fin 512) : ℕ :=
  (m.page t).getLE (8 * i) 8

def setPte (t : ℕ) (i : Fin 512) (x : ℕ) : Phys :=
  m.setPage t ((m.page t).setLE (8 * i) 8 x)

/-- `kalloc` finds a page, unless it is refused. -/
def grant : Option (ℕ × Phys) :=
  match m.refusals.headD false, m.freelist with
  | false, r :: rest =>
    some (r, { m with freelist := rest, refusals := m.refusals.tail }.setPage r (filled 5))
  | _, _ => none

end Phys

/-! ## kalloc.c -/

def kalloc : VmM (Option ℕ) := fun m =>
  match m.grant with
  | some (r, m) => .ok (some r, m)
  | none => .ok (none, { m with refusals := m.refusals.tail, refused := true })

def kfree (p : ℕ) : VmM Unit := do
  let m ← get
  if p < m.layout.endPage ∨ p ≥ PHYSTOP / PGSIZE then throw .kfree
  modify fun m => { m.setPage p (filled 1) with freelist := p :: m.freelist }

def memset (p : ℕ) (b : UInt8) : VmM Unit :=
  modify fun m => m.setPage p (filled b)

/-! ## Page tables -/

/-- The loop of `walk`, from a page table page of a level on. -/
def walkFrom (va : ℕ) (alloc : Bool) : ℕ → ℕ → VmM (Option (ℕ × Fin 512))
  | 0, t => pure (some (t, PX 0 va))
  | level + 1, t => do
    let pte := (← get).pte t (PX (level + 1) va)
    if pte &&& PTE_V ≠ 0 then walkFrom va alloc level (PTE2PA pte)
    else if !alloc then pure none
    else match ← kalloc with
      | none => pure none
      | some p => do
        memset p 0
        modify fun m => m.setPte t (PX (level + 1) va) (PA2PTE p ||| PTE_V)
        walkFrom va alloc level p

def walk (pagetable va : ℕ) (alloc : Bool) : VmM (Option (ℕ × Fin 512)) := do
  if va ≥ MAXVA then throw .walk
  walkFrom va alloc 2 pagetable

def walkaddr (pagetable va : ℕ) : VmM (Option ℕ) := do
  if va ≥ MAXVA then return none
  match ← walk pagetable va false with
  | none => return none
  | some (t, i) =>
    let pte := (← get).pte t i
    if pte &&& PTE_V = 0 then return none
    if pte &&& PTE_U = 0 then return none
    return some (PTE2PA pte)

/-- The loop of `mappages`, for `n` pages from `a` on. -/
def mappagesFrom (pagetable perm : ℕ) : ℕ → ℕ → ℕ → VmM Bool
  | 0, _, _ => return true
  | n + 1, a, p => do
    match ← walk pagetable a true with
    | none => return false
    | some (t, i) =>
      if (← get).pte t i &&& PTE_V ≠ 0 then throw .mappagesRemap
      modify fun m => m.setPte t i (PA2PTE p ||| perm ||| PTE_V)
      mappagesFrom pagetable perm n (a + PGSIZE) (p + 1)

/-- `mappages` of the pages from `p` on; says whether it returns 0. -/
def mappages (pagetable va size p perm : ℕ) : VmM Bool := do
  if va % PGSIZE ≠ 0 then throw .mappagesVa
  if size % PGSIZE ≠ 0 then throw .mappagesSize
  if size = 0 then throw .mappagesZero
  mappagesFrom pagetable perm (size / PGSIZE) va p

def uvmcreate : VmM (Option ℕ) := do
  match ← kalloc with
  | none => return none
  | some pagetable =>
    memset pagetable 0
    return some pagetable

/-- The loop of `uvmunmap`, for `n` pages from `a` on. -/
def uvmunmapFrom (pagetable : ℕ) (doFree : Bool) : ℕ → ℕ → VmM Unit
  | 0, _ => return
  | n + 1, a => do
    match ← walk pagetable a false with
    | none => uvmunmapFrom pagetable doFree n (a + PGSIZE)
    | some (t, i) =>
      let pte := (← get).pte t i
      if pte &&& PTE_V = 0 then uvmunmapFrom pagetable doFree n (a + PGSIZE)
      else do
        if doFree then kfree (PTE2PA pte)
        modify fun m => m.setPte t i 0
        uvmunmapFrom pagetable doFree n (a + PGSIZE)

def uvmunmap (pagetable va npages : ℕ) (doFree : Bool) : VmM Unit := do
  if va % PGSIZE ≠ 0 then throw .uvmunmap
  uvmunmapFrom pagetable doFree npages va

/-- The conversion of a `uint64` to `int` and back. -/
def viaInt (x : ℕ) : ℕ :=
  ((x : ℤ).bmod 4294967296 % 18446744073709551616).toNat

def uvmdealloc (pagetable oldsz newsz : ℕ) : VmM ℕ := do
  if newsz ≥ oldsz then return oldsz
  if PGROUNDUP newsz < PGROUNDUP oldsz then
    uvmunmap pagetable (PGROUNDUP newsz) (viaInt ((PGROUNDUP oldsz - PGROUNDUP newsz) / PGSIZE)) true
  return newsz

/-- The loop of `uvmalloc`, for `n` pages from `a` on. -/
def uvmallocFrom (pagetable oldsz newsz xperm : ℕ) : ℕ → ℕ → VmM ℕ
  | 0, _ => return newsz
  | n + 1, a => do
    match ← kalloc with
    | none =>
      let _ ← uvmdealloc pagetable a oldsz
      return 0
    | some mem =>
      memset mem 0
      if ← mappages pagetable a PGSIZE mem (PTE_R ||| PTE_U ||| xperm) then
        uvmallocFrom pagetable oldsz newsz xperm n (a + PGSIZE)
      else
        kfree mem
        let _ ← uvmdealloc pagetable a oldsz
        return 0

def uvmalloc (pagetable oldsz newsz xperm : ℕ) : VmM ℕ := do
  if newsz < oldsz then return oldsz
  let oldsz := PGROUNDUP oldsz
  -- the number of `a` with `oldsz ≤ a < newsz`
  uvmallocFrom pagetable oldsz newsz xperm ((newsz - oldsz + (PGSIZE - 1)) / PGSIZE) oldsz

def ismapped (pagetable va : ℕ) : VmM Bool := do
  match ← walk pagetable va false with
  | none => return false
  | some (t, i) => return decide ((← get).pte t i &&& PTE_V ≠ 0)

/-- What the functions below read of the current process. -/
structure UserProc where
  pagetable : ℕ
  sz : ℕ

def vmfault (p : UserProc) (pagetable va : ℕ) : VmM (Option ℕ) := do
  if va ≥ p.sz then return none
  let va := PGROUNDDOWN va
  if ← ismapped pagetable va then return none
  match ← kalloc with
  | none => return none
  | some mem =>
    memset mem 0
    if ← mappages p.pagetable va PGSIZE mem (PTE_W ||| PTE_U ||| PTE_R) then return some mem
    else
      kfree mem
      return none

/-! ## Copies between the kernel and user memory -/

/-- The page of `va0`, which `vmfault` maps if need be. -/
def useraddr (p : UserProc) (pagetable va0 : ℕ) : VmM (Option ℕ) := do
  match ← walkaddr pagetable va0 with
  | some pa0 => return some pa0
  | none => vmfault p pagetable va0

/-- The loop of `copyout`; every turn moves a byte at least. -/
def copyoutFrom (p : UserProc) (pagetable : ℕ) : ℕ → ℕ → List UInt8 → VmM Bool
  | 0, _, _ => return true
  | n + 1, dstva, src =>
    if src = [] then return true
    else do
      let va0 := PGROUNDDOWN dstva
      if va0 ≥ MAXVA then return false
      match ← useraddr p pagetable va0 with
      | none => return false
      | some pa0 =>
        match ← walk pagetable va0 false with
        | none => throw .nullPte
        | some (t, i) =>
          if (← get).pte t i &&& PTE_W = 0 then return false
          let k := min (PGSIZE - (dstva - va0)) src.length
          modify fun m => m.setPage pa0 ((m.page pa0).setBytes (dstva - va0) (src.take k))
          copyoutFrom p pagetable n (va0 + PGSIZE) (src.drop k)

/-- `copyout`; says whether it returns 0. -/
def copyout (p : UserProc) (pagetable dstva : ℕ) (src : List UInt8) : VmM Bool :=
  copyoutFrom p pagetable src.length dstva src

/-- The loop of `copyin`; every turn moves a byte at least. -/
def copyinFrom (p : UserProc) (pagetable : ℕ) : ℕ → ℕ → ℕ → VmM (Bool × List UInt8)
  | 0, _, _ => return (true, [])
  | n + 1, srcva, len =>
    if len = 0 then return (true, [])
    else do
      let va0 := PGROUNDDOWN srcva
      match ← useraddr p pagetable va0 with
      | none => return (false, [])
      | some pa0 =>
        let k := min (PGSIZE - (srcva - va0)) len
        let bytes := ((← get).page pa0).getBytes (srcva - va0) k
        let (ok, rest) ← copyinFrom p pagetable n (va0 + PGSIZE) (len - k)
        return (ok, bytes ++ rest)

/-- `copyin`; says whether it returns 0, and the bytes that it has stored at `dst`. -/
def copyin (p : UserProc) (pagetable srcva len : ℕ) : VmM (Bool × List UInt8) :=
  copyinFrom p pagetable len srcva len

/-- The inner loop of `copyinstr`, over at most `n` bytes of a page; says whether it has met a null byte. -/
def copystrFrom (b : Bytes PGSIZE) : ℕ → ℕ → Bool × List UInt8
  | 0, _ => (false, [])
  | n + 1, off =>
    if b.byte off = 0 then (true, [0])
    else ((copystrFrom b n (off + 1)).1, b.byte off :: (copystrFrom b n (off + 1)).2)

/-- The outer loop of `copyinstr`; every turn moves a byte at least. -/
def copyinstrFrom (pagetable : ℕ) : ℕ → ℕ → ℕ → VmM (Bool × List UInt8)
  | 0, _, _ => return (false, [])
  | n + 1, srcva, max =>
    if max = 0 then return (false, [])
    else do
      let va0 := PGROUNDDOWN srcva
      match ← walkaddr pagetable va0 with
      | none => return (false, [])
      | some pa0 =>
        let k := min (PGSIZE - (srcva - va0)) max
        let (gotNull, bytes) := copystrFrom ((← get).page pa0) k (srcva - va0)
        if gotNull then return (true, bytes)
        else
          let (ok, rest) ← copyinstrFrom pagetable n (va0 + PGSIZE) (max - k)
          return (ok, bytes ++ rest)

/-- `copyinstr`; says whether it returns 0, and the bytes that it has stored at `dst`. -/
def copyinstr (pagetable srcva max : ℕ) : VmM (Bool × List UInt8) :=
  copyinstrFrom pagetable max srcva max

end Xv6
