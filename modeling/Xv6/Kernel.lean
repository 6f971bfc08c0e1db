import Xv6.Machine
import Xv6.Scheduler

/-!
# The kernel as a machine

Any number of CPUs, each in its scheduler, in the kernel thread or the user code of the
process it runs, or in an interrupt handler. One step is one critical section of a process
lock, of `wait_lock`, or of `tickslock`; the steps of the CPUs interleave in any order.

* The kernel thread of a process is in one of the calls kfork, kkill, kwait, kexit and
  `wakeup`, at the point its `ThreadPc` says, or in none of them (`ThreadPc.user`). It then makes a call when it
  likes (`Call`), sleeps, or changes its own image.
* A step from a `sleep`, a `yield` or the end of kexit goes back to the scheduler, which clears
  `c->proc` before it lets the lock go. A dispatch goes on in the thread, which clears its channel
  before it lets the lock go if it was in `sleep`.
* Interrupts are taken at the top of the scheduler's loop and in a thread that has them
  enabled (`Thread.intena`) and holds no lock. A timer interrupt runs clockintr, and then the
  process yields, or exits if it came from user space killed; a device interrupt wakes up a
  channel.

The calls not modelled show in it as processes that sleep on and wake up channels of their own
(`Chan.other`). The panics of sched and kexit stop the machine : the step does not exist.
-/

namespace Xv6

/-- `initproc`, the first slot, which userinit fills. -/
def initproc : Slot :=
  0

/-- Where a process's kernel thread goes on. -/
inductive ThreadPc
  /-- In user space, or in a call that is not modelled. -/
  | user
  /-- kfork : `allocproc` at the head of the list. -/
  | forkAlloc (todo : List Slot)
  /-- kfork : `np->parent = p`. -/
  | forkParent (np : Slot) (pid : Int)
  /-- kfork : `np->state = RUNNABLE`. -/
  | forkRun (np : Slot) (pid : Int)
  /-- kkill at the head of the list. -/
  | kill (pid : Int) (todo : List Slot)
  /-- `wakeup` at the head of the list. -/
  | wakeup (chan : Option Chan) (todo : List Slot) (next : ThreadPc)
  /-- kexit, before it acquires `wait_lock`. -/
  | exiting (status : Int)
  /-- kexit : `reparent` at the head of the list. -/
  | exitReparent (status : Int) (todo : List Slot)
  /-- kexit : `p->state = ZOMBIE`. -/
  | exitZombie (status : Int)
  /-- kwait, before it acquires `wait_lock`; `addr` says whether the address is not 0. -/
  | waitLock (addr : Bool)
  /-- kwait at the head of the list. -/
  | waitScan (addr havekids : Bool) (todo : List Slot)
  /-- kwait : `killed(p)`. -/
  | waitKilled (addr : Bool)
  /-- kwait : `sleep(p, &wait_lock)`. -/
  | waitSleep (addr : Bool)
  deriving DecidableEq, Repr

/-- A process's kernel thread. -/
structure Thread where
  pc : ThreadPc
  /-- Interrupts are on, outside critical sections. -/
  intena : Bool
  /-- The thread is to come back from `sched` into `sleep`. -/
  inSleep : Bool
  /-- What the last call returned. -/
  ret : Int
  /-- The status that the last kwait stored. -/
  stored : Option Int
  deriving DecidableEq, Repr

/-- A thread that starts in forkret. -/
def Thread.forkret : Thread :=
  ⟨.user, true, false, 0, none⟩

/-- What an interrupt handler does next; `user` says that it came from user space, through
usertrap. -/
inductive Intr
  /-- `wakeup` at the head of the list. -/
  | wakeup (chan : Chan) (todo : List Slot) (timer user : Bool)
  /-- clockintr : the temperature. -/
  | temp (user : Bool)
  /-- usertrap : `killed(p)`. -/
  | killed (timer : Bool)
  | yield
  deriving DecidableEq, Repr

/-- `struct cpu`, its scheduler's variables, and the handler that runs on it. -/
structure Cpu where
  proc : Option Slot
  pc : SchedPc
  loc : Locals
  intr : Option Intr
  deriving DecidableEq, Repr

/-- The kernel with `n` CPUs. -/
structure Kernel (n : ℕ) where
  mem : Mem
  cpu : Fin n → Cpu
  thread : Slot → Thread

/-- What a process may begin when its thread is in no call. -/
inductive Call
  | fork
  | kill (pid : Int)
  | wait (addr : Bool)
  | exit (status : Int)
  /-- usertrap finds the process killed; `intena` says whether interrupts are on there. -/
  | die (intena : Bool)
  /-- `sleep` on a channel of another part of the kernel. -/
  | sleep (addr : ℕ)
  /-- `sleep(&ticks, &tickslock)` of sys_pause. -/
  | pause
  | wakeup (addr : ℕ)
  | setkilled
  | exec (name : List Char) (sz : ℕ)
  | growproc (sz : ℕ)
  deriving DecidableEq, Repr

/-- What a CPU does next. -/
inductive KAct
  /-- The next step of its scheduler. -/
  | sched
  /-- The process it runs makes a call. -/
  | call (x : Call)
  /-- The next step of the call of the process it runs; `ok` says whether the allocations and
  copies in it succeed. -/
  | run (ok : Bool)
  /-- A timer interrupt. -/
  | tick (user : Bool)
  /-- A device interrupt. -/
  | dev (addr : ℕ) (user : Bool)
  /-- The next step of the interrupt handler. -/
  | intr
  deriving DecidableEq, Repr

namespace Kernel

variable {n : ℕ}

/-- Store into the process table. -/
def setProc (s : Kernel n) (p : Slot) (q : Proc) : Kernel n :=
  { s with mem := s.mem.setProc p q }

def setCpu (s : Kernel n) (c : Fin n) (cpu : Cpu) : Kernel n :=
  { s with cpu := Function.update s.cpu c cpu }

def setThread (s : Kernel n) (p : Slot) (t : Thread) : Kernel n :=
  { s with thread := Function.update s.thread p t }

def setWaitLock (s : Kernel n) (holder : Option Slot) : Kernel n :=
  { s with mem := { s.mem with waitLock := holder } }

/-- The thread of `p` goes on at `pc`. -/
def goto (s : Kernel n) (p : Slot) (pc : ThreadPc) : Kernel n :=
  s.setThread p { s.thread p with pc := pc }

/-- The call of `p` returns `r`. -/
def ret (s : Kernel n) (p : Slot) (r : Int) : Kernel n :=
  s.setThread p { s.thread p with pc := .user, ret := r }

/-- `sched` on CPU `c` : back in the scheduler, which clears `c->proc`. -/
def sched (s : Kernel n) (c : Fin n) : Kernel n :=
  s.setCpu c { s.cpu c with proc := none, pc := .top, intr := none }

/-- `sleep(chan, lk)` by `p` on CPU `c`. -/
def sleep (s : Kernel n) (c : Fin n) (p : Slot) (chan : Chan) : Kernel n :=
  ((s.setProc p ((s.mem.proc p).sleep chan)).setThread p { s.thread p with inSleep := true }).sched c

/-- The `swtch` to `p` on CPU `c`, up to where the thread releases `p->lock`. -/
def resume (s : Kernel n) (c : Fin n) (p : Slot) : Kernel n :=
  let s := s.setCpu c { s.cpu c with proc := some p }
  if (s.thread p).inSleep then
    (s.setProc p { s.mem.proc p with chan := none }).setThread p { s.thread p with inSleep := false }
  else s

/-- A step of the scheduler of CPU `c`. -/
def schedule (s : Kernel n) (c : Fin n) : Option (Kernel n) :=
  (schedStep s.mem (s.cpu c).loc (s.cpu c).pc).map fun (m, l, pc) =>
    let s := { s with mem := m }.setCpu c { s.cpu c with loc := l, pc := pc }
    match pc, l.chosen with
    | .swtch, some p => s.resume c p
    | _, _ => s

/-- `p` on CPU `c` begins a call. -/
def call (s : Kernel n) (c : Fin n) (p : Slot) : Call → Option (Kernel n)
  | .fork => some (s.goto p (.forkAlloc table))
  | .kill pid => some (s.goto p (.kill pid table))
  | .wait addr => some (s.goto p (.waitLock addr))
  | .exit status => if p = initproc then none else some (s.goto p (.exiting status))
  | .die intena =>
    if (s.mem.proc p).killed && p ≠ initproc then
      some (s.setThread p { s.thread p with pc := .exiting (-1), intena := intena })
    else none
  | .sleep addr => some (s.sleep c p (.other addr))
  | .pause => some (s.sleep c p .ticks)
  | .wakeup addr => some (s.goto p (.wakeup (some (.other addr)) table .user))
  | .setkilled => some (s.setProc p (s.mem.proc p).setkilled)
  | .exec name sz => some (s.setProc p { s.mem.proc p with name := safestrcpy name 16, sz := sz })
  | .growproc sz => some (s.setProc p { s.mem.proc p with sz := sz })

/-- What kexit may do while it closes files. -/
def callExiting (s : Kernel n) (c : Fin n) (p : Slot) (status : Int) : Call → Option (Kernel n)
  | .sleep addr => some (s.sleep c p (.other addr))
  | .wakeup addr => some (s.goto p (.wakeup (some (.other addr)) table (.exiting status)))
  | _ => none

/-- `allocproc` by `p` finds `np` UNUSED, and kfork copies the parent or fails. -/
def forkAlloc (s : Kernel n) (p np : Slot) (ok : Bool) : Kernel n :=
  let pid := s.mem.nextpid
  let q := (s.mem.proc np).allocproc pid
  let s := { s with mem := { s.mem with nextpid := pid + 1 } }
  if ok then
    ((s.setProc np { q with
      sz := (s.mem.proc p).sz
      name := safestrcpy (s.mem.proc p).name 16 }).setThread np .forkret).goto p (.forkParent np pid)
  else (s.setProc np q.freeproc).ret p (-1)

/-- kwait by `p` finds its child `x` a ZOMBIE. -/
def reap (s : Kernel n) (p x : Slot) (addr ok : Bool) : Kernel n :=
  let s := s.setWaitLock none
  if addr && !ok then s.ret p (-1)
  else
    let q := s.mem.proc x
    let t := s.thread p
    (s.setProc x q.freeproc).setThread p { t with
      pc := .user, ret := q.pid, stored := if addr then some q.xstate else t.stored }

/-- The next step of the call that the thread of `p` is in, on CPU `c`. -/
def run (s : Kernel n) (c : Fin n) (p : Slot) (ok : Bool) : Option (Kernel n) :=
  match (s.thread p).pc with
  | .user => none
  | .forkAlloc [] => some (s.ret p (-1))
  | .forkAlloc (x :: todo) =>
    some (if (s.mem.proc x).state = .unused then s.forkAlloc p x ok else s.goto p (.forkAlloc todo))
  | .forkParent np pid =>
    if s.mem.waitLock = none then
      some ((s.setProc np { s.mem.proc np with parent := some p }).goto p (.forkRun np pid))
    else none
  | .forkRun np pid => some ((s.setProc np { s.mem.proc np with state := .runnable }).ret p pid)
  | .kill _ [] => some (s.ret p (-1))
  | .kill pid (x :: todo) =>
    some (if (s.mem.proc x).pid = pid then (s.setProc x (s.mem.proc x).kkill).ret p 0
      else s.goto p (.kill pid todo))
  | .wakeup _ [] next => some (s.goto p next)
  | .wakeup chan (x :: todo) next =>
    let s := if x = p then s else s.setProc x ((s.mem.proc x).wakeup chan)
    some (s.goto p (.wakeup chan todo next))
  | .exiting status =>
    if s.mem.waitLock = none then
      some ((s.setWaitLock (some p)).goto p (.exitReparent status table))
    else none
  | .exitReparent status [] =>
    some (s.goto p (.wakeup ((s.mem.proc p).parent.map .proc) table (.exitZombie status)))
  | .exitReparent status (x :: todo) =>
    some (if (s.mem.proc x).parent = some p then
      (s.setProc x { s.mem.proc x with parent := some initproc }).goto p
        (.wakeup (some (.proc initproc)) table (.exitReparent status todo))
      else s.goto p (.exitReparent status todo))
  | .exitZombie status =>
    some (((s.setProc p ((s.mem.proc p).exit status)).setWaitLock none).sched c)
  | .waitLock addr =>
    if s.mem.waitLock = none then
      some ((s.setWaitLock (some p)).goto p (.waitScan addr false table))
    else none
  | .waitScan addr havekids [] =>
    some (if havekids then s.goto p (.waitKilled addr) else (s.setWaitLock none).ret p (-1))
  | .waitScan addr havekids (x :: todo) =>
    some (if (s.mem.proc x).parent = some p then
      if (s.mem.proc x).state = .zombie then s.reap p x addr ok
      else s.goto p (.waitScan addr true todo)
      else s.goto p (.waitScan addr havekids todo))
  | .waitKilled addr =>
    some (if (s.mem.proc p).killed then (s.setWaitLock none).ret p (-1)
      else s.goto p (.waitSleep addr))
  | .waitSleep addr =>
    some (((s.setWaitLock none).goto p (.waitLock addr)).sleep c p (.proc p))

/-- An interrupt may be taken on CPU `c` : at the top of its scheduler, or in a thread with
interrupts on; from user space only if the thread is there. -/
def interruptible (s : Kernel n) (c : Fin n) (user : Bool) : Bool :=
  match (s.cpu c).proc with
  | none => (s.cpu c).pc == .top && !user
  | some p => (s.thread p).intena && s.mem.waitLock ≠ some p && (!user || (s.thread p).pc == .user)

/-- The handler of CPU `c` goes on. -/
def setIntr (s : Kernel n) (c : Fin n) (i : Option Intr) : Kernel n :=
  s.setCpu c { s.cpu c with intr := i }

/-- A timer interrupt on CPU `c` : clockintr, where CPU 0 counts the tick and wakes the
processes that wait for it. -/
def tick (s : Kernel n) (c : Fin n) (user : Bool) : Kernel n :=
  if c.val = 0 then
    { s with mem := { s.mem with ticks := s.mem.ticks + 1 } }.setIntr c
      (some (.wakeup .ticks table true user))
  else s.setIntr c (some (.temp user))

/-- `myproc() != 0 && myproc()->state == RUNNING` on CPU `c`. -/
def active (s : Kernel n) (c : Fin n) : Bool :=
  match (s.cpu c).proc with
  | none => false
  | some p => (s.mem.proc p).state == .running

/-- The next step of the handler that runs on CPU `c`. -/
def handle (s : Kernel n) (c : Fin n) : Intr → Option (Kernel n)
  | .wakeup chan (x :: todo) timer user =>
    let s := if (s.cpu c).proc = some x then s
      else s.setProc x ((s.mem.proc x).wakeup (some chan))
    some (s.setIntr c (some (.wakeup chan todo timer user)))
  | .wakeup _ [] timer user =>
    some (s.setIntr c (if timer then some (.temp user) else if user then some (.killed false) else none))
  | .temp user =>
    let s := { s with mem := s.mem.heat (if s.active c then 1 else 0) }
    some (s.setIntr c ((s.cpu c).proc.map fun _ => if user then .killed true else .yield))
  | .killed timer =>
    (s.cpu c).proc.bind fun p =>
      if (s.mem.proc p).killed then
        if p = initproc then none
        else some ((s.setThread p { s.thread p with pc := .exiting (-1), intena := false }).setIntr c
          none)
      else some (s.setIntr c (if timer then some .yield else none))
  | .yield =>
    (s.cpu c).proc.map fun p =>
      (s.setProc p { s.mem.proc p with state := .runnable }).sched c

/-- One step of CPU `c`. -/
def step (s : Kernel n) (c : Fin n) (a : KAct) : Option (Kernel n) :=
  match a, (s.cpu c).intr, (s.cpu c).proc with
  | .intr, some i, _ => s.handle c i
  | .tick user, none, _ => if s.interruptible c user then some (s.tick c user) else none
  | .dev addr user, none, _ =>
    if s.interruptible c user then
      some (s.setIntr c (some (.wakeup (.other addr) table false user)))
    else none
  | .sched, none, none => s.schedule c
  | .run ok, none, some p => s.run c p ok
  | .call x, none, some p =>
    match (s.thread p).pc with
    | .user => s.call c p x
    | .exiting status => s.callExiting c p status x
    | _ => none
  | _, _, _ => none

/-- The kernel after main() : one process, made by userinit, and every CPU about to begin its
scheduler's loop. -/
def boot (n : ℕ) : Kernel n where
  mem := {
    proc := Function.update (fun _ => Proc.zero) initproc
      { Proc.zero.allocproc 1 with state := .runnable }
    cpuTemp := 25
    nextpid := 2
    waitLock := none
    ticks := 0
    schedRound := 0
    tm := Tm.boot
    summaryPrinted := false
    console := [] }
  cpu _ := ⟨none, .top, ⟨none, 0, false, 0⟩, none⟩
  thread _ := .forkret

end Kernel

/-- The kernel with `n` CPUs, from boot. -/
def kernelMachine (n : ℕ) : Machine (Kernel n) (Fin n × KAct) where
  init s := s = Kernel.boot n
  step s a := s.step a.1 a.2

end Xv6
