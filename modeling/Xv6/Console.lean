import Xv6.Kernel

/-!
# The console

consoleread and consoleintr of kernel/console.c, on top of the kernel of `Kernel`. The input buffer is
a ring with three free-running 32-bit indices; consoleintr edits the line between `w` and
`e`, and makes it available by moving `w`; consoleread takes the bytes between `r` and `w`, and
sleeps on `&cons.r` while there are none.

A step is one critical section of a process lock, as in `Kernel`, and `cons.lock` is held from one to
another : by a process in consoleread, from its `acquire` to its `sleep` or its return, and by a CPU that is in the
`wakeup` of consoleintr. What the holder does between two such sections is one step.

The echo of consputc and the list of procdump are output only, and are left out.
-/

namespace Xv6

/-- `INPUT_BUF_SIZE`. -/
abbrev INPUT_BUF_SIZE : ℕ := 128

/-- `C(x)`. -/
def ctrl (x : Char) : UInt8 :=
  x.toNat.toUInt8 - '@'.toNat.toUInt8

def newline : UInt8 :=
  '\n'.toNat.toUInt8

/-- The input buffer `cons`. -/
structure Cons where
  buf : Fin INPUT_BUF_SIZE → UInt8
  r : UInt32
  w : UInt32
  e : UInt32

namespace Cons

/-- The place of an index in the buffer. -/
def place (i : UInt32) : Fin INPUT_BUF_SIZE :=
  ⟨i.toNat % INPUT_BUF_SIZE, Nat.mod_lt _ (by decide)⟩

/-- Control-U : erase back to the line's beginning, one character a turn. -/
def killLine : ℕ → Cons → Cons
  | 0, c => c
  | k + 1, c =>
    if c.e ≠ c.w ∧ c.buf (place (c.e - 1)) ≠ newline then killLine k { c with e := c.e - 1 } else c

/-- consoleintr, and whether it calls `wakeup(&cons.r)`. -/
def consoleintr (c : Cons) (ch : UInt8) : Cons × Bool :=
  if ch = ctrl 'P' then (c, false)
  else if ch = ctrl 'U' then (killLine (c.e - c.w).toNat c, false)
  else if ch = ctrl 'H' ∨ ch = 0x7f then (if c.e ≠ c.w then { c with e := c.e - 1 } else c, false)
  else if ch ≠ 0 ∧ c.e - c.r < 128 then
    let ch := if ch = '\r'.toNat.toUInt8 then newline else ch
    let c := { c with buf := Function.update c.buf (place c.e) ch, e := c.e + 1 }
    if ch = newline ∨ ch = ctrl 'D' ∨ c.e - c.r = 128 then ({ c with w := c.e }, true) else (c, false)
  else (c, false)

end Cons

/-- `&cons.r`. -/
def consChan : Chan :=
  .other 0

/-- Where a process is in consoleread, with `n` and `target`. -/
inductive ReadPc
  | out
  /-- `acquire(&cons.lock)`, also the one in `sleep`. -/
  | lock (n target : Int)
  /-- The conditions of the two loops, and the copy of one byte. -/
  | test (n target : Int)
  /-- `killed(myproc())`. -/
  | killed (n target : Int)
  /-- `sleep(&cons.r, &cons.lock)`. -/
  | sleep (n target : Int)
  deriving DecidableEq, Repr

/-- Who holds `cons.lock`. -/
inductive ConsHolder (n : ℕ)
  | proc (p : Slot)
  | cpu (c : Fin n)
  deriving DecidableEq

/-- The kernel and its console. -/
structure Tty (n : ℕ) where
  kernel : Kernel n
  cons : Cons
  lock : Option (ConsHolder n)
  read : Slot → ReadPc
  /-- The bytes the last consoleread of the process copied to user space. -/
  got : Slot → List UInt8
  /-- What it returned. -/
  ret : Slot → Int

inductive TtyAct (n : ℕ)
  /-- A step of the kernel. -/
  | kernel (c : Fin n) (a : KAct)
  /-- The process of CPU `c` calls consoleread. -/
  | read (c : Fin n) (n : Int)
  /-- The next step of the consoleread of the process of CPU `c`; `ok` says whether the copy in it
  succeeds. -/
  | run (c : Fin n) (ok : Bool)
  /-- consoleintr on CPU `c`. -/
  | intr (c : Fin n) (ch : UInt8) (user : Bool)

namespace Tty

variable {n : ℕ}

/-- CPU `c` may take a step of the kernel : its process is not in consoleread, or the step is not one
of the process's own; and an interrupt is not taken in a section of `cons.lock`. -/
def may (s : Tty n) (c : Fin n) (a : KAct) : Bool :=
  match (s.kernel.cpu c).proc, a with
  | some p, .call _ | some p, .run _ => s.read p == .out
  | some p, .tick user | some p, .dev _ user =>
    s.lock != some (.proc p) && (!user || s.read p == .out)
  | _, _ => true

/-- CPU `c` is in a `wakeup` of an interrupt handler. -/
def inWakeup (s : Kernel n) (c : Fin n) : Bool :=
  match (s.cpu c).intr with
  | some (.wakeup _ _ _ _) => true
  | _ => false

/-- A step of the kernel; at the end of the `wakeup` of consoleintr, `cons.lock` is released. -/
def kernelStep (s : Tty n) (c : Fin n) (a : KAct) : Option (Tty n) :=
  if s.may c a then
    (s.kernel.step c a).map fun k =>
      { s with
        kernel := k
        lock := if s.lock = some (.cpu c) && !inWakeup k c then none else s.lock }
  else none

def goto (s : Tty n) (p : Slot) (pc : ReadPc) : Tty n :=
  { s with read := Function.update s.read p pc }

/-- consoleread releases `cons.lock` and returns. -/
def done (s : Tty n) (p : Slot) (r : Int) : Tty n :=
  { s with lock := none, ret := Function.update s.ret p r }.goto p .out

/-- consoleread takes one byte out of the buffer. -/
def take (s : Tty n) (p : Slot) (k target : Int) (ok : Bool) : Tty n :=
  let ch := s.cons.buf (Cons.place s.cons.r)
  let s' := { s with cons := { s.cons with r := s.cons.r + 1 } }
  if ch = ctrl 'D' then
    -- the end of file is left for the next call if this one has bytes to return
    (if k < target then s else s').done p (target - k)
  else if ok then
    let s' := { s' with got := Function.update s'.got p (s'.got p ++ [ch]) }
    if ch = newline then s'.done p (target - (k - 1)) else s'.goto p (.test (k - 1) target)
  else s'.done p (target - k)

/-- The next step of the consoleread of `p` on CPU `c`. -/
def run (s : Tty n) (c : Fin n) (p : Slot) (ok : Bool) : Option (Tty n) :=
  match s.read p with
  | .out => none
  | .lock k target =>
    if s.lock = none then some ({ s with lock := some (.proc p) }.goto p (.test k target)) else none
  | .test k target =>
    some (if k ≤ 0 then s.done p (target - k)
      else if s.cons.r = s.cons.w then s.goto p (.killed k target)
      else s.take p k target ok)
  | .killed k target =>
    some (if (s.kernel.mem.proc p).killed then s.done p (-1) else s.goto p (.sleep k target))
  | .sleep k target =>
    some ({ s with kernel := s.kernel.sleep c p consChan, lock := none }.goto p (.lock k target))

/-- The interrupt of a character on CPU `c`. -/
def intr (s : Tty n) (c : Fin n) (ch : UInt8) (user : Bool) : Tty n :=
  let (cons, wakes) := s.cons.consoleintr ch
  if wakes then
    { s with
      cons := cons
      lock := some (.cpu c)
      kernel := s.kernel.setIntr c (some (.wakeup consChan table false user)) }
  else
    { s with
      cons := cons
      kernel := s.kernel.setIntr c (if user then some (.killed false) else none) }

def step (s : Tty n) : TtyAct n → Option (Tty n)
  | .kernel c a => s.kernelStep c a
  | .read c k =>
    match (s.kernel.cpu c).intr, (s.kernel.cpu c).proc with
    | none, some p =>
      if s.read p = .out ∧ (s.kernel.thread p).pc = .user then
        some ({ s with got := Function.update s.got p [] }.goto p (.lock k k))
      else none
    | _, _ => none
  | .run c ok =>
    match (s.kernel.cpu c).intr, (s.kernel.cpu c).proc with
    | none, some p => s.run c p ok
    | _, _ => none
  | .intr c ch user =>
    if (s.kernel.cpu c).intr = none ∧ s.kernel.interruptible c user = true ∧
        s.may c (.dev 0 user) = true ∧ s.lock = none then
      some (s.intr c ch user)
    else none

/-- The console after consoleinit. -/
def boot (n : ℕ) : Tty n where
  kernel := Kernel.boot n
  cons := ⟨fun _ => 0, 0, 0, 0⟩
  lock := none
  read _ := .out
  got _ := []
  ret _ := 0

end Tty

/-- The kernel with `n` CPUs and its console, from boot. -/
def ttyMachine (n : ℕ) : Machine (Tty n) (TtyAct n) where
  init s := s = Tty.boot n
  step := Tty.step

end Xv6
