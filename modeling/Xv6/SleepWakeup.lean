import Mathlib.Tactic.SplitIfs
import Xv6.Machine
import Xv6.Proc

/-!
# `sleep` and `wakeup`

The protocol of `sleep(chan, lk)` and `wakeup(chan)` of kernel/proc.c, with every `acquire` and every
`release` of a spinlock a step of its own. The processes, the CPUs, the condition locks and the channels are
arbitrary types; `CondVar.lk` is the lock under which the condition of a channel is tested and changed.

* A process that holds the lock of a channel tests its condition, and calls `sleep` if it does not hold
  (`SleepAct.wait`); it changes the condition and calls `wakeup` (`SleepAct.signal`), or uses the
  condition up (`SleepAct.consume`).
* `sched` hands `p->lock` to the scheduler of the CPU, which releases it; the scheduler
  that picks the process hands it back. Which process a scheduler picks is left open.
* kkill and `yield` change the state of a process under its lock too, and are part of the protocol. The
  handler of an interrupt runs as the thread it interrupts, or as the scheduler.

Which locks an agent holds is a matter of where it is (`SleepPc.held`); that every step keeps this
(`SleepSys.Locks`) is proved by the four ways a lock changes hands.
-/

set_option linter.unusedSectionVars false

namespace Xv6

open Function (update_self update_of_ne)

/-- The process table, and the lock of the condition of each channel. -/
structure CondVar (P L K : Type*) where
  table : List P
  mem_table : ∀ p, p ∈ table
  lk : K → L

/-- A spinlock : `p->lock`, or a condition lock. -/
inductive SpinId (P L : Type*)
  | proc (p : P)
  | cond (l : L)
  deriving DecidableEq

/-- Who runs kernel code : the thread of a process, or the scheduler of a CPU. -/
inductive Agent (P C : Type*)
  | thread (p : P)
  | cpu (c : C)
  deriving DecidableEq

/-- `myproc()`. -/
def Agent.myproc {P C : Type*} : Agent P C → Option P
  | thread p => some p
  | cpu _ => none

/-- Where an agent is. -/
inductive SleepPc (P L K : Type*)
  /-- In no critical section. -/
  | out
  /-- In a critical section of a condition lock. -/
  | inside (l : L)
  /-- `sleep` : `acquire(&p->lock)`. -/
  | sleepAcquire (k : K)
  /-- `sleep` : `release(lk)`. -/
  | sleepRelease (k : K)
  /-- `sleep` : `p->chan = chan; p->state = SLEEPING`. -/
  | sleepSet (k : K)
  /-- `sched`, called by `sleep` on a channel or by `yield`. -/
  | sched (k : Option K)
  /-- Switched out. -/
  | away (k : Option K)
  /-- `sleep` : `p->chan = 0`. -/
  | sleepBack (k : K)
  /-- `sleep` : `release(&p->lock)`. -/
  | sleepUnlock (k : K)
  /-- `sleep` : `acquire(lk)`. -/
  | sleepRelock (k : K)
  /-- `wakeup` at the head of the list. -/
  | wake (k : K) (todo : List P)
  /-- `wakeup`, in the section of the lock of `q`. -/
  | waking (k : K) (q : P) (todo : List P)
  /-- `wakeup` : `release(&p->lock)`. -/
  | waken (k : K) (q : P) (todo : List P)
  /-- `yield` : `acquire(&p->lock)`. -/
  | yield
  /-- `yield` : `p->state = RUNNABLE`. -/
  | yieldSet
  /-- `yield` : `release(&p->lock)`. -/
  | yieldBack
  /-- kkill : `acquire(&p->lock)` of the process that is killed. -/
  | kill (q : P)
  /-- kkill, in the section of the lock. -/
  | killing (q : P)
  /-- kkill : `release(&p->lock)`. -/
  | killed (q : P)
  /-- The scheduler : `acquire(&chosen->lock)`. -/
  | pick (p : P)
  /-- The scheduler, in the section of the lock. -/
  | picked (p : P)
  /-- The scheduler, in the `swtch` to a process. -/
  | running (p : P)
  /-- The scheduler : `release(&chosen->lock)`. -/
  | dropped (p : P)

/-- The fields of a process that the protocol uses. -/
structure Sleeper (K : Type*) where
  state : ProcState
  chan : Option K
  killed : Bool

namespace Sleeper

variable {K : Type*} [DecidableEq K]

/-- One slot of `wakeup(k)`. -/
def wakeup (q : Sleeper K) (k : K) : Sleeper K :=
  if q.state = .sleeping ∧ q.chan = some k then { q with state := .runnable } else q

/-- What kkill does to the process it found. -/
def kkill (q : Sleeper K) : Sleeper K :=
  { q with killed := true, state := if q.state = .sleeping then .runnable else q.state }

end Sleeper

/-- What an agent does next. -/
inductive SleepAct (P C L K : Type*)
  | acquire (l : L)
  | release
  /-- Test the condition, and call `sleep` if it does not hold. -/
  | wait (k : K)
  /-- Change the condition, and call `wakeup`. -/
  | signal (k : K) (v : Bool)
  /-- The condition no longer holds. -/
  | consume (k : K)
  | yield
  | kill (q : P)
  | pick (p : P)
  /-- The next step of the code in progress. -/
  | go
  /-- The `swtch` to the scheduler of the CPU. -/
  | swtch (c : C)

/-- The processes, the conditions, the locks with their holders, and where the agents are. -/
structure SleepSys (P C L K : Type*) where
  proc : P → Sleeper K
  cond : K → Bool
  lock : SpinId P L → Option (Agent P C)
  pc : Agent P C → SleepPc P L K

variable {P C L K : Type*} [DecidableEq P] [DecidableEq C] [DecidableEq L] [DecidableEq K]

namespace SleepSys

def goto (s : SleepSys P C L K) (a : Agent P C) (pc : SleepPc P L K) : SleepSys P C L K :=
  { s with pc := Function.update s.pc a pc }

def setProc (s : SleepSys P C L K) (p : P) (q : Sleeper K) : SleepSys P C L K :=
  { s with proc := Function.update s.proc p q }

/-- `acquire`, when the lock is free. -/
def acquire (s : SleepSys P C L K) (a : Agent P C) (m : SpinId P L) (pc : SleepPc P L K) :
    Option (SleepSys P C L K) :=
  if s.lock m = none then some ({ s with lock := Function.update s.lock m (some a) }.goto a pc)
  else none

def release (s : SleepSys P C L K) (a : Agent P C) (m : SpinId P L) (pc : SleepPc P L K) :
    SleepSys P C L K :=
  { s with lock := Function.update s.lock m none }.goto a pc

/-- The scheduler of CPU `c`, which holds `p->lock`, switches to `p`. -/
def resume (s : SleepSys P C L K) (c : C) (p : P) : Option (SleepSys P C L K) :=
  let s' := (({ s with lock := Function.update s.lock (.proc p) (some (.thread p)) }.setProc p
    { s.proc p with state := .running }).goto (.cpu c) (.running p))
  match s.pc (.thread p) with
  | .away (some k) => some (s'.goto (.thread p) (.sleepBack k))
  | .away none => some (s'.goto (.thread p) .yieldBack)
  | _ => none

/-- The thread of `p`, in `sched`, switches to the scheduler of CPU `c`. -/
def swtch (s : SleepSys P C L K) (c : C) (p : P) (k : Option K) : Option (SleepSys P C L K) :=
  match s.pc (.cpu c) with
  | .running q =>
    if q = p then
      some (({ s with lock := Function.update s.lock (.proc p) (some (.cpu c)) }.goto (.thread p)
        (.away k)).goto (.cpu c) (.dropped p))
    else none
  | _ => none

/-- The next step of the code that `a` is in. -/
def go (V : CondVar P L K) (s : SleepSys P C L K) (a : Agent P C) : Option (SleepSys P C L K) :=
  match a, s.pc a with
  | .thread p, .sleepAcquire k => s.acquire a (.proc p) (.sleepRelease k)
  | .thread _, .sleepRelease k => some (s.release a (.cond (V.lk k)) (.sleepSet k))
  | .thread p, .sleepSet k =>
    some ((s.setProc p { s.proc p with chan := some k, state := .sleeping }).goto a (.sched (some k)))
  | .thread p, .sleepBack k =>
    some ((s.setProc p { s.proc p with chan := none }).goto a (.sleepUnlock k))
  | .thread p, .sleepUnlock k => some (s.release a (.proc p) (.sleepRelock k))
  | .thread _, .sleepRelock k => s.acquire a (.cond (V.lk k)) (.inside (V.lk k))
  | .thread p, .yield => s.acquire a (.proc p) .yieldSet
  | .thread p, .yieldSet =>
    some ((s.setProc p { s.proc p with state := .runnable }).goto a (.sched none))
  | .thread p, .yieldBack => some (s.release a (.proc p) .out)
  | .cpu _, .pick p => s.acquire a (.proc p) (.picked p)
  | .cpu c, .picked p =>
    if (s.proc p).state = .runnable then s.resume c p else some (s.release a (.proc p) .out)
  | .cpu _, .dropped p => some (s.release a (.proc p) .out)
  | _, .wake k [] => some (s.goto a (.inside (V.lk k)))
  | _, .wake k (q :: todo) =>
    if a.myproc = some q then some (s.goto a (.wake k todo))
    else s.acquire a (.proc q) (.waking k q todo)
  | _, .waking k q todo => some ((s.setProc q ((s.proc q).wakeup k)).goto a (.waken k q todo))
  | _, .waken k q todo => some (s.release a (.proc q) (.wake k todo))
  | _, .kill q => s.acquire a (.proc q) (.killing q)
  | _, .killing q => some ((s.setProc q (s.proc q).kkill).goto a (.killed q))
  | _, .killed q => some (s.release a (.proc q) .out)
  | _, _ => none

/-- One step of the agent `a`. -/
def step (V : CondVar P L K) (s : SleepSys P C L K) (a : Agent P C) :
    SleepAct P C L K → Option (SleepSys P C L K)
  | .acquire l =>
    match s.pc a with
    | .out => s.acquire a (.cond l) (.inside l)
    | _ => none
  | .release =>
    match s.pc a with
    | .inside l => some (s.release a (.cond l) .out)
    | _ => none
  | .wait k =>
    match a, s.pc a with
    | .thread _, .inside l =>
      if V.lk k = l then some (if s.cond k then s else s.goto a (.sleepAcquire k)) else none
    | _, _ => none
  | .signal k v =>
    match s.pc a with
    | .inside l =>
      if V.lk k = l then
        some ({ s with cond := Function.update s.cond k v }.goto a (.wake k V.table))
      else none
    | _ => none
  | .consume k =>
    match s.pc a with
    | .inside l => if V.lk k = l then some { s with cond := Function.update s.cond k false } else none
    | _ => none
  | .yield =>
    match a, s.pc a with
    | .thread _, .out => some (s.goto a .yield)
    | _, _ => none
  | .kill q =>
    match s.pc a with
    | .out => some (s.goto a (.kill q))
    | _ => none
  | .pick p =>
    match a, s.pc a with
    | .cpu _, .out => some (s.goto a (.pick p))
    | _, _ => none
  | .go => s.go V a
  | .swtch c =>
    match a, s.pc a with
    | .thread p, .sched k => s.swtch c p k
    | _, _ => none

/-- No lock is held, the schedulers are about to pick a process, and the processes are RUNNABLE. -/
def Init (s : SleepSys P C L K) : Prop :=
  (∀ m, s.lock m = none) ∧ (∀ c, s.pc (.cpu c) = .out) ∧
    ∀ p, s.pc (.thread p) = .away none ∧ (s.proc p).state = .runnable ∧ (s.proc p).chan = none

end SleepSys

/-- When the conditions were tested and the wakeups returned, in numbers of steps. -/
structure Waked (P K : Type*) where
  now : ℕ
  /-- The last return of a `wakeup` of the channel. -/
  woke : K → ℕ
  /-- The last test of a condition by the process. -/
  tested : P → ℕ

namespace Waked

def start : Waked P K :=
  ⟨1, fun _ => 0, fun _ => 0⟩

/-- The time of the step `x` of `a`. -/
def tick (h : Waked P K) (s : SleepSys P C L K) (x : Agent P C × SleepAct P C L K) : Waked P K where
  now := h.now + 1
  woke := match x.2, s.pc x.1 with
    | .go, .wake k [] => Function.update h.woke k h.now
    | _, _ => h.woke
  tested := match x.2, x.1 with
    | .wait _, .thread p => Function.update h.tested p h.now
    | _, _ => h.tested

/-- Time passes. -/
structure Later (h h' : Waked P K) : Prop where
  now : h.now ≤ h'.now
  woke : h'.woke = h.woke
  tested : h'.tested = h.tested

theorem Later.refl (h : Waked P K) : h.Later h :=
  ⟨Nat.le_refl _, rfl, rfl⟩

theorem later_go {h : Waked P K} {s : SleepSys P C L K} {a : Agent P C}
    (hpc : ∀ k, s.pc a ≠ .wake k []) : h.Later (h.tick s (a, .go)) := by
  refine ⟨Nat.le_succ _, ?_, rfl⟩
  dsimp only [tick]
  split
  · next k _ heq => exact absurd heq (hpc k)
  · rfl

end Waked

/-- The protocol, with the times of the tests and of the wakeups. -/
def sleepMachine (V : CondVar P L K) :
    Machine (SleepSys P C L K × Waked P K) (Agent P C × SleepAct P C L K) :=
  (⟨SleepSys.Init, fun s x => s.step V x.1 x.2⟩ : Machine (SleepSys P C L K) _).observe .start .tick

namespace SleepPc

/-- The condition of this channel has been tested, and `lk` is still held. -/
def heading : SleepPc P L K → Option K
  | sleepAcquire k | sleepRelease k => some k
  | _ => none

/-- `lk` has been released, and the process is about to be put to sleep on this channel. -/
def setting : SleepPc P L K → Option K
  | sleepSet k => some k
  | _ => none

/-- `sched` has been called in `sleep`, and has not returned. -/
def parked : SleepPc P L K → Bool
  | sched (some _) | away (some _) => true
  | _ => false

/-- `p->chan` is set. -/
def inSleep : SleepPc P L K → Bool
  | sched (some _) | away (some _) | sleepBack _ => true
  | _ => false

/-- The channel of a `wakeup`, and the processes it has still to visit. -/
def rest : SleepPc P L K → Option (K × List P)
  | wake k todo | waken k _ todo => some (k, todo)
  | waking k q todo => some (k, q :: todo)
  | _ => none

/-- In `wakeup` or kkill, which a scheduler's handlers call too. -/
def common : SleepPc P L K → Bool
  | wake _ _ | waking _ _ _ | waken _ _ _ | kill _ | killing _ | killed _ => true
  | _ => false

theorem rest_of_common {pc : SleepPc P L K} (h : pc.common = false) : pc.rest = none := by
  cases pc with
  | wake | waking | waken => cases h
  | _ => rfl

/-- The two places say the same of a `wakeup` and of `sched`. -/
structure Like (pc pc' : SleepPc P L K) : Prop where
  rest : pc.rest = pc'.rest
  parked : pc.parked = pc'.parked
  inSleep : pc.inSleep = pc'.inSleep

end SleepPc

/-! ## The locks -/

/-- The lock of the agent's own process. -/
def Agent.self : Agent P C → List (SpinId P L)
  | thread p => [.proc p]
  | cpu _ => []

/-- The locks that `a` holds at its place. -/
def SleepPc.held (V : CondVar P L K) (a : Agent P C) : SleepPc P L K → List (SpinId P L)
  | .inside l => [.cond l]
  | .sleepAcquire k | .wake k _ => [.cond (V.lk k)]
  | .sleepRelease k => .cond (V.lk k) :: a.self
  | .sleepSet _ | .sched _ | .sleepBack _ | .sleepUnlock _ | .yieldSet | .yieldBack => a.self
  | .waking k q _ | .waken k q _ => [.proc q, .cond (V.lk k)]
  | .killing q | .killed q | .picked q | .dropped q => [.proc q]
  | _ => []

/-- `wakeup` is called with the condition lock held. -/
theorem SleepPc.cond_mem_held_of_rest {V : CondVar P L K} {a : Agent P C} {pc : SleepPc P L K} {k : K}
    {todo : List P} (h : pc.rest = some (k, todo)) : .cond (V.lk k) ∈ pc.held V a := by
  cases pc with
  | wake | waking | waken =>
    obtain ⟨rfl, -⟩ := Prod.mk.inj (Option.some.inj h)
    simp [held]
  | _ => cases h

/-- The condition is tested with the condition lock held. -/
theorem SleepPc.cond_mem_held_of_heading {V : CondVar P L K} {a : Agent P C} {pc : SleepPc P L K}
    {k : K} (h : pc.heading = some k) : .cond (V.lk k) ∈ pc.held V a := by
  cases pc with
  | sleepAcquire | sleepRelease =>
    obtain rfl := Option.some.inj h
    simp [held]
  | _ => cases h

/-- Between `release(lk)` and `sched`, `p->lock` is held. -/
theorem SleepPc.proc_mem_held_of_setting {V : CondVar P L K} {p : P} {pc : SleepPc P L K} {k : K}
    (h : pc.setting = some k) : .proc p ∈ pc.held V (.thread p : Agent P C) := by
  cases pc with
  | sleepSet => exact List.mem_singleton_self _
  | _ => cases h

namespace SleepSys

/-- Every lock is held by the agent that is where it holds it. -/
def Locks (V : CondVar P L K) (s : SleepSys P C L K) : Prop :=
  ∀ m a, s.lock m = some a ↔ m ∈ (s.pc a).held V a

variable {V : CondVar P L K} {s s' : SleepSys P C L K} {a b : Agent P C} {m : SpinId P L}
  {pc pc' : SleepPc P L K} {p q : P} {c : C} {k : K}

theorem Locks.eq (h : s.Locks V) (ha : m ∈ (s.pc a).held V a) (hb : m ∈ (s.pc b).held V b) : a = b :=
  Option.some.inj (((h m a).mpr ha).symm.trans ((h m b).mpr hb))

theorem Locks.goto (h : s.Locks V) (hlock : s'.lock = s.lock)
    (hpc : s'.pc = Function.update s.pc a pc)
    (hheld : pc.held V a = (s.pc a).held V a) : s'.Locks V := by
  intro m b
  rw [hlock, hpc, h]
  by_cases hb : b = a
  · rw [hb, update_self, hheld]
  · rw [update_of_ne hb]

theorem Locks.acquire (h : s.Locks V) (hfree : s.lock m = none)
    (hlock : s'.lock = Function.update s.lock m (some a)) (hpc : s'.pc = Function.update s.pc a pc)
    (hheld : ∀ x, x ∈ pc.held V a ↔ x = m ∨ x ∈ (s.pc a).held V a) : s'.Locks V := by
  have hnone : ∀ b, m ∉ (s.pc b).held V b := fun b hb => by
    rw [(h m b).mpr hb] at hfree
    cases hfree
  intro x b
  rw [hlock, hpc]
  by_cases hb : b = a
  · subst hb
    rw [update_self, hheld]
    by_cases hx : x = m
    · simp [hx]
    · simp [hx, h x b]
  · rw [update_of_ne hb]
    by_cases hx : x = m
    · subst hx
      rw [update_self]
      simp [hnone b, Ne.symm hb]
    · rw [update_of_ne hx, h]

theorem Locks.release (h : s.Locks V) (hm : m ∈ (s.pc a).held V a)
    (hlock : s'.lock = Function.update s.lock m none) (hpc : s'.pc = Function.update s.pc a pc)
    (hheld : ∀ x, x ∈ pc.held V a ↔ x ≠ m ∧ x ∈ (s.pc a).held V a) : s'.Locks V := by
  intro x b
  rw [hlock, hpc]
  by_cases hb : b = a
  · subst hb
    rw [update_self, hheld]
    by_cases hx : x = m
    · simp [hx]
    · simp [hx, h x b]
  · rw [update_of_ne hb]
    by_cases hx : x = m
    · subst hx
      rw [update_self]
      simp only [reduceCtorEq, false_iff]
      exact fun hxb => hb (h.eq hxb hm)
    · rw [update_of_ne hx, h]

/-- `a` hands the lock `m` to `b`. -/
theorem Locks.hand (h : s.Locks V) (hab : a ≠ b) (hm : m ∈ (s.pc a).held V a)
    (hlock : s'.lock = Function.update s.lock m (some b))
    (hpc : s'.pc = Function.update (Function.update s.pc a pc) b pc')
    (ha : ∀ x, x ∈ pc.held V a ↔ x ≠ m ∧ x ∈ (s.pc a).held V a)
    (hb : ∀ x, x ∈ pc'.held V b ↔ x = m ∨ x ∈ (s.pc b).held V b) : s'.Locks V := by
  have hfree : ({ s with lock := Function.update s.lock m none }.goto a pc).Locks V :=
    h.release hm rfl rfl ha
  refine hfree.acquire (update_self ..) ?_ hpc fun x => ?_
  · rw [hlock]
    exact (Function.update_idem ..).symm
  · rw [hb]
    simp [SleepSys.goto, hab.symm]

end SleepSys

end Xv6
