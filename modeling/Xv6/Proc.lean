import Mathlib.Data.Nat.Notation
import Mathlib.Logic.Function.Basic

/-!
# Processes

`struct proc` and what kernel/proc.c does to one slot of the process table while it holds the
slot's lock. A pointer to a slot is an `Option Slot`, a channel an `Option Chan`, with `none`
for the null pointer; `int` fields are integers, and a name is the characters before its NUL.

The fields that no scheduling decision and no check of the process calls reads are left out :
the lock itself, `kstack`, `pagetable`, `trapframe`, `context`, `ofile` and `cwd`.
-/

namespace Xv6

/-- `NPROC`. -/
abbrev NPROC : ℕ := 64

/-- An index into the process table. -/
abbrev Slot : Type := Fin NPROC

instance (p : Slot) (l : List Slot) : Decidable (p ∈ l) :=
  decidable_of_iff (l.any fun q => decide (q = p)) (by simp)

/-- The process table in order. -/
def table : List Slot :=
  List.finRange NPROC

/-- `enum procstate`. -/
inductive ProcState
  | unused
  | used
  | sleeping
  | runnable
  | running
  | zombie
  deriving DecidableEq, Repr

/-- What a process may sleep on : a slot of the table, `&ticks`, or another address. -/
inductive Chan
  | proc (p : Slot)
  | ticks
  | other (addr : ℕ)
  deriving DecidableEq, Repr

/-- `struct proc`. -/
structure Proc where
  state : ProcState
  chan : Option Chan
  killed : Bool
  xstate : Int
  pid : Int
  waitingTick : Int
  heat : Int
  parent : Option Slot
  sz : ℕ
  name : List Char
  deriving DecidableEq, Repr

/-- A slot as the kernel's zeroed data and `procinit` leave it. -/
def Proc.zero : Proc where
  state := .unused
  chan := none
  killed := false
  xstate := 0
  pid := 0
  waitingTick := 0
  heat := 0
  parent := none
  sz := 0
  name := []

namespace Proc

/-- `freeproc`. -/
def freeproc (p : Proc) : Proc :=
  { p with
    sz := 0, pid := 0, parent := none, name := [], chan := none, killed := false, xstate := 0,
    heat := 0, state := .unused }

/-- What `allocproc` stores into the slot it found. -/
def allocproc (p : Proc) (pid : Int) : Proc :=
  { p with pid := pid, state := .used, waitingTick := 0, heat := 0 }

/-- One slot of `wakeup(chan)`. -/
def wakeup (p : Proc) (chan : Option Chan) : Proc :=
  if p.state = .sleeping ∧ p.chan = chan then { p with state := .runnable } else p

/-- What `kkill` does to the process it found. -/
def kkill (p : Proc) : Proc :=
  { p with killed := true, state := if p.state = .sleeping then .runnable else p.state }

/-- `setkilled`. -/
def setkilled (p : Proc) : Proc :=
  { p with killed := true }

/-- `sleep` up to `sched`. -/
def sleep (p : Proc) (chan : Chan) : Proc :=
  { p with chan := some chan, state := .sleeping }

/-- The end of `kexit`. -/
def exit (p : Proc) (status : Int) : Proc :=
  { p with xstate := status, state := .zombie }

end Proc

/-- `safestrcpy(s, t, n)` : what is in `s` afterwards. -/
def safestrcpy (t : List Char) (n : ℕ) : List Char :=
  t.take (n - 1)

/-- `strncmp(p, q, n)`; the end of a string is its NUL. -/
def strncmp : List Char → List Char → ℕ → Int
  | _, _, 0 => 0
  | p :: ps, q :: qs, n + 1 => if p = q then strncmp ps qs n else (p.toNat : Int) - q.toNat
  | p :: _, [], _ + 1 => p.toNat
  | [], q :: _, _ + 1 => -(q.toNat : Int)
  | [], [], _ + 1 => 0

/-- The program is one of the thermal tests, "schedtest" or "matrix". -/
def isThermalTest (name : List Char) : Bool :=
  strncmp name ['s', 'c', 'h', 'e', 'd', 't', 'e', 's', 't'] 9 == 0 ||
    strncmp name ['m', 'a', 't', 'r', 'i', 'x'] 6 == 0

end Xv6
