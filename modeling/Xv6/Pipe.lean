import Xv6.Machine
import Xv6.Peterson
import Xv6.Ring
import Xv6.Spinlock

/-!
# Pipes

kernel/pipe.c, one load or store of a pipe field at a time. The processes that share a pipe
are the elements of a type `P`; each is outside the pipe code or has a `Frame` : the call
it is in, its local variables, and the next load, store or call (`Pc`). `Sys.run` is one
such step of the process, `pipeMachine` the system of all of them, where the next step may
be any process's.

What the code calls is in the model as far as it matters to the pipe :

* `peterson_enter` and `peterson_exit` are steps of their own, on the pipe's own fields;
* `wakeup` visits the process table slot by slot, one step a slot;
* `sleep(chan, lk)` begins by releasing `lk`, and both calls pass the null pointer
  (`Pc.sleepArgs`). `SleepModel.source` runs that release, which stops the kernel;
  `SleepModel.blocking` is the `sleep` the pipe code reckons with, which blocks until a
  wakeup on its channel;
* `copyin` and `copyout` of a byte succeed or fail as the action says, and a byte copied in
  is any byte;
* `killed(pr)` reads a flag that `kkill` may set at any time.

The histories `stored`, `delivered`, `closed`, `freed` and `touched` record the bytes stored
by pipewrite, the bytes copied out by piperead, the ends closed, the ends whose pipeclose
called `kfree`, and whether a pipe field was accessed after a `kfree`. No step reads them.
-/

set_option linter.unusedSectionVars false

namespace Xv6

open Function (update_self update_of_ne)

/-- `PIPESIZE`. -/
abbrev PIPESIZE : ℕ := 512

instance : NeZero PIPESIZE :=
  ⟨by decide⟩

/-- `struct pipe`. The sides of the lock are the thread ids : 0 for write, 1 for read. -/
structure Pipe where
  data : Fin PIPESIZE → UInt8
  nread : BitVec 32
  nwrite : BitVec 32
  readopen : Bool
  writeopen : Bool
  flag : Side → Bool
  turn : Side

/-- The fields as `pipealloc` sets them; the page's other bytes are what they were. -/
def pipealloc (data : Fin PIPESIZE → UInt8) : Pipe where
  data := data
  nread := 0
  nwrite := 0
  readopen := true
  writeopen := true
  flag := fun _ => false
  turn := .zero

/-- The two sleep channels of a pipe, `&pi->nread` and `&pi->nwrite`. -/
inductive PipeChan
  | nread
  | nwrite
  deriving DecidableEq, Repr

/-- A call of pipe.c. -/
inductive PipeOp
  | pipewrite (n : Int)
  | piperead (n : Int)
  | pipeclose (writable : Bool)
  deriving DecidableEq, Repr

namespace PipeOp

/-- The thread id the call passes to `peterson_enter`. -/
def tid : PipeOp → Side
  | pipewrite _ => .zero
  | piperead _ => .one
  | pipeclose writable => if writable then .zero else .one

/-- The byte count `n` of a read or write. -/
def n : PipeOp → Int
  | pipewrite n | piperead n => n
  | pipeclose _ => 0

/-- The channel a closing end wakes. -/
def closeChan : PipeOp → PipeChan
  | pipeclose false => .nwrite
  | _ => .nread

end PipeOp

/-- The next load, store or call of a process in pipe code. The `List P` of a `wakeup` is
the part of the process table it has still to visit. -/
inductive Pc (P : Type)
  /-- `pi->flag[thread_id] = 1` -/
  | setFlag
  /-- `pi->turn = other` -/
  | setTurn
  /-- `pi->flag[other] == 1` of the busy wait -/
  | loadFlag
  /-- `pi->turn == other` of the busy wait -/
  | loadTurn
  /-- pipewrite : `pi->readopen == 0` -/
  | wReadopen
  /-- pipewrite : `killed(pr)` -/
  | wKilled
  /-- pipewrite : the load of `nwrite` in the test for a full pipe -/
  | wNwrite
  /-- pipewrite : the load of `nread` in the test for a full pipe -/
  | wNread
  /-- pipewrite : `wakeup(&pi->nread)` on a full pipe -/
  | wWake (todo : List P)
  /-- pipewrite : `sleep(&pi->nwrite, 0)` -/
  | wSleep
  /-- pipewrite : SLEEPING on `&pi->nwrite` -/
  | wAsleep
  /-- pipewrite : `copyin` of the next byte -/
  | wCopyin
  /-- pipewrite : the load of `pi->nwrite++` -/
  | wLoad
  /-- pipewrite : the store of `pi->nwrite++` -/
  | wStore
  /-- pipewrite : the store of the byte -/
  | wData
  /-- pipewrite : the last `wakeup(&pi->nread)` -/
  | wLast (todo : List P)
  /-- piperead : the load of `nread` in the test for an empty pipe -/
  | rNread
  /-- piperead : the load of `nwrite` in the test for an empty pipe -/
  | rNwrite
  /-- piperead : `pi->writeopen` -/
  | rWriteopen
  /-- piperead : `killed(pr)` -/
  | rKilled
  /-- piperead : `sleep(&pi->nread, 0)` -/
  | rSleep
  /-- piperead : SLEEPING on `&pi->nread` -/
  | rAsleep
  /-- piperead : the load of `nread` in the copy loop's test -/
  | rTestNread
  /-- piperead : the load of `nwrite` in the copy loop's test -/
  | rTestNwrite
  /-- piperead : the load of `pi->nread % PIPESIZE` -/
  | rIndex
  /-- piperead : the load of the byte -/
  | rData
  /-- piperead : `copyout` of the byte -/
  | rCopyout
  /-- piperead : the load of `pi->nread++` -/
  | rLoad
  /-- piperead : the store of `pi->nread++` -/
  | rStore
  /-- piperead : `wakeup(&pi->nwrite)` -/
  | rLast (todo : List P)
  /-- pipeclose : `pi->writeopen = 0` or `pi->readopen = 0` -/
  | cOpen
  /-- pipeclose : the `wakeup` -/
  | cWake (todo : List P)
  /-- pipeclose : `pi->readopen == 0` -/
  | cReadopen
  /-- pipeclose : `pi->writeopen == 0` -/
  | cWriteopen
  /-- pipeclose : `peterson_exit` before the `kfree` -/
  | cExit
  /-- pipeclose : `kfree((char*)pi)` -/
  | cFree
  /-- `peterson_exit`, then a return of the value -/
  | exit (ret : Option Int)
  deriving DecidableEq, Repr

namespace Pc

variable {P : Type}

/-- The step loads or stores a field of the pipe. -/
def access : Pc P → Bool
  | wKilled | wWake _ | wSleep | wAsleep | wCopyin | wLast _ | rKilled | rSleep | rAsleep
  | rCopyout | rLast _ | cWake _ | cFree => false
  | _ => true

/-- The arguments of the `sleep` call at this point. -/
def sleepArgs : Pc P → Option (PipeChan × Option Spinlock)
  | wSleep => some (.nwrite, none)
  | rSleep => some (.nread, none)
  | _ => none

/-- The channel the process is SLEEPING on. -/
def asleepOn : Pc P → Option PipeChan
  | wAsleep => some .nwrite
  | rAsleep => some .nread
  | _ => none

end Pc

/-- A call in progress : its arguments, the C locals `i` and `ch`, the counter loaded last,
and the next step. -/
structure Frame (P : Type) where
  op : PipeOp
  i : Int
  ch : UInt8
  x : BitVec 32
  pc : Pc P
  deriving DecidableEq

/-- How `sleep` is read. -/
inductive SleepModel
  /-- As written : `release(lk)` first. -/
  | source
  /-- Blocking until a wakeup on the channel. -/
  | blocking
  deriving DecidableEq, Repr

/-- The reading of `sleep`, the process table in slot order, and the CPU of each process. -/
structure Config (P : Type) where
  sleep : SleepModel
  table : List P
  mycpu : P → ℕ

namespace Frame

variable {P : Type}

/-- The test `i < n` of pipewrite's loop. -/
def wHead (c : Config P) (f : Frame P) : Pc P :=
  if f.i < f.op.n then .wReadopen else .wLast c.table

/-- The test `i < n` of piperead's copy loop. -/
def rHead (c : Config P) (f : Frame P) : Pc P :=
  if f.i < f.op.n then .rTestNread else .rLast c.table

/-- Where `peterson_enter` returns to. -/
def body (c : Config P) (f : Frame P) : Pc P :=
  match f.op with
  | .pipewrite _ => f.wHead c
  | .piperead _ => .rNread
  | .pipeclose _ => .cOpen

/-- Back from `sleep`, at the test of the loop it is in. -/
def resume (f : Frame P) : Frame P :=
  match f.pc with
  | .wAsleep => { f with pc := .wReadopen }
  | .rAsleep => { f with pc := .rNread }
  | _ => f

/-- What `wakeup(chan)` does to a process : SLEEPING on `chan`, it runs again. -/
def wakeup (chan : PipeChan) (f : Frame P) : Frame P :=
  if f.pc.asleepOn = some chan then f.resume else f

end Frame

/-- The pipe, the processes, and the histories. -/
structure Sys (P : Type) where
  pipe : Pipe
  frame : P → Option (Frame P)
  killed : P → Bool
  /-- What the last call of a process returned. -/
  ret : P → Option Int
  /-- Bytes stored by pipewrite. -/
  stored : List UInt8
  /-- Bytes copied out by piperead. -/
  delivered : List UInt8
  /-- Ends closed, in order. -/
  closed : List Side
  /-- Ends whose pipeclose called `kfree`, in order. -/
  freed : List Side
  /-- A field of the pipe was accessed after a `kfree`. -/
  touched : Bool
  /-- The kernel stopped. -/
  fault : Option Fault

/-- What the environment decides of a step. -/
inductive PipeAct
  /-- The process calls into pipe.c. -/
  | call (op : PipeOp)
  /-- The next step of the process. -/
  | run
  /-- `copyin` gives a byte, or fails. -/
  | copyin (ch : Option UInt8)
  /-- `copyout` succeeds or fails. -/
  | copyout (ok : Bool)
  /-- Another process's `kkill` reaches this one. -/
  | kill
  deriving DecidableEq, Repr

namespace Sys

variable {P : Type} [DecidableEq P]

/-- Store into the pipe. -/
def store (s : Sys P) (pi : Pipe) : Sys P :=
  { s with pipe := pi }

/-- Process `p` continues as `f`. -/
def goto (s : Sys P) (p : P) (f : Frame P) (pc : Pc P) : Sys P :=
  { s with frame := Function.update s.frame p (some { f with pc := pc }) }

/-- Process `p` returns from its call. -/
def leave (s : Sys P) (p : P) (r : Option Int) : Sys P :=
  { s with frame := Function.update s.frame p none, ret := Function.update s.ret p r }

/-- One slot of `wakeup(chan)` by `p`. -/
def wake (s : Sys P) (p q : P) (chan : PipeChan) : Sys P :=
  if q = p then s else { s with frame := Function.update s.frame q ((s.frame q).map (·.wakeup chan)) }

/-- `sleep(chan, lk)` by `p` up to the point where it is SLEEPING. -/
def sleep (c : Config P) (s : Sys P) (p : P) (f : Frame P) (lk : Option Spinlock) (pc : Pc P) :
    Sys P :=
  match c.sleep with
  | .blocking => s.goto p f pc
  | .source =>
    match release lk (c.mycpu p) with
    | .error e => { s with fault := some e }
    | .ok _ => s.goto p f pc

/-- `wakeup(chan)` by `p` with the slots `todo` left, then `pc`. -/
def wakeupLoop (s : Sys P) (p : P) (f : Frame P) (chan : PipeChan) (todo : List P)
    (again : List P → Pc P) (pc : Pc P) : Sys P :=
  match todo with
  | [] => s.goto p f pc
  | q :: todo => (s.wake p q chan).goto p f (again todo)

/-- The next step of process `p`, in frame `f`. SLEEPING processes and copies have none :
they wait for a wakeup, or for the action that says how the copy ends. -/
def run (c : Config P) (s : Sys P) (p : P) (f : Frame P) : Option (Sys P) :=
  let pi := s.pipe
  let me := f.op.tid
  match f.pc with
  | .setFlag => some ((s.store { pi with flag := Function.update pi.flag me true }).goto p f .setTurn)
  | .setTurn => some ((s.store { pi with turn := me.other }).goto p f .loadFlag)
  | .loadFlag => some (s.goto p f (if pi.flag me.other then .loadTurn else f.body c))
  | .loadTurn => some (s.goto p f (if pi.turn = me.other then .loadFlag else f.body c))
  | .wReadopen => some (s.goto p f (if pi.readopen then .wKilled else .exit (some (-1))))
  | .wKilled => some (s.goto p f (if s.killed p then .exit (some (-1)) else .wNwrite))
  | .wNwrite => some (s.goto p { f with x := pi.nwrite } .wNread)
  | .wNread =>
    some (s.goto p f (if f.x = pi.nread + BitVec.ofNat 32 PIPESIZE then .wWake c.table else .wCopyin))
  | .wWake todo => some (s.wakeupLoop p f .nread todo .wWake .wSleep)
  | .wSleep => some (s.sleep c p f none .wAsleep)
  | .wAsleep => none
  | .wCopyin => none
  | .wLoad => some (s.goto p { f with x := pi.nwrite } .wStore)
  | .wStore => some ((s.store { pi with nwrite := f.x + 1 }).goto p f .wData)
  | .wData =>
    let f' := { f with i := f.i + 1 }
    some ({ s.store { pi with data := Function.update pi.data (Ring.cell PIPESIZE f.x) f.ch } with
      stored := s.stored ++ [f.ch] }.goto p f' (f'.wHead c))
  | .wLast todo => some (s.wakeupLoop p f .nread todo .wLast (.exit (some f.i)))
  | .rNread => some (s.goto p { f with x := pi.nread } .rNwrite)
  | .rNwrite => some (s.goto p f (if f.x = pi.nwrite then .rWriteopen else f.rHead c))
  | .rWriteopen => some (s.goto p f (if pi.writeopen then .rKilled else f.rHead c))
  | .rKilled => some (s.goto p f (if s.killed p then .exit (some (-1)) else .rSleep))
  | .rSleep => some (s.sleep c p f none .rAsleep)
  | .rAsleep => none
  | .rTestNread => some (s.goto p { f with x := pi.nread } .rTestNwrite)
  | .rTestNwrite => some (s.goto p f (if f.x = pi.nwrite then .rLast c.table else .rIndex))
  | .rIndex => some (s.goto p { f with x := pi.nread } .rData)
  | .rData => some (s.goto p { f with ch := pi.data (Ring.cell PIPESIZE f.x) } .rCopyout)
  | .rCopyout => none
  | .rLoad => some (s.goto p { f with x := pi.nread } .rStore)
  | .rStore =>
    let f' := { f with i := f.i + 1 }
    some ((s.store { pi with nread := f.x + 1 }).goto p f' (f'.rHead c))
  | .rLast todo => some (s.wakeupLoop p f .nwrite todo .rLast (.exit (some f.i)))
  | .cOpen =>
    let pi' := match me with
      | .zero => { pi with writeopen := false }
      | .one => { pi with readopen := false }
    some ({ s.store pi' with closed := s.closed ++ [me] }.goto p f (.cWake c.table))
  | .cWake todo => some (s.wakeupLoop p f f.op.closeChan todo .cWake .cReadopen)
  | .cReadopen => some (s.goto p f (if pi.readopen then .exit none else .cWriteopen))
  | .cWriteopen => some (s.goto p f (if pi.writeopen then .exit none else .cExit))
  | .cExit => some ((s.store { pi with flag := Function.update pi.flag me false }).goto p f .cFree)
  | .cFree => some ({ s with freed := s.freed ++ [me] }.leave p none)
  | .exit r => some ((s.store { pi with flag := Function.update pi.flag me false }).leave p r)

/-- `copyin` of pipewrite's next byte. A failed copy ends the loop. -/
def copyin (c : Config P) (s : Sys P) (p : P) (f : Frame P) : Option UInt8 → Sys P
  | some ch => s.goto p { f with ch := ch } .wLoad
  | none => s.goto p f (.wLast c.table)

/-- `copyout` of piperead's next byte. A failed copy ends the loop, with `i = -1` if no
byte was copied. -/
def copyout (c : Config P) (s : Sys P) (p : P) (f : Frame P) : Bool → Sys P
  | true => { s with delivered := s.delivered ++ [f.ch] }.goto p f .rLoad
  | false => s.goto p { f with i := if f.i = 0 then -1 else f.i } (.rLast c.table)

/-- `s` with the accesses of a step at `pc` noted : they are late once the page is freed. -/
def touch (s : Sys P) (pc : Pc P) : Sys P :=
  { s with touched := s.touched || (pc.access && !s.freed.isEmpty) }

/-- One step of process `p`. No step is taken once the kernel has stopped. -/
def step (c : Config P) (s : Sys P) (p : P) (a : PipeAct) : Option (Sys P) :=
  if s.fault.isSome then none
  else
    match a, s.frame p with
    | .call op, none => some { s with frame := Function.update s.frame p (some ⟨op, 0, 0, 0, .setFlag⟩) }
    | .run, some f => (s.touch f.pc).run c p f
    | .copyin ch, some f => if f.pc = .wCopyin then some (s.copyin c p f ch) else none
    | .copyout ok, some f => if f.pc = .rCopyout then some (s.copyout c p f ok) else none
    | .kill, f => some { s with
        killed := Function.update s.killed p true
        frame := Function.update s.frame p (f.map (·.resume)) }
    | _, _ => none

end Sys

/-- A fresh pipe, every process outside the pipe code. -/
structure PipeInit {P : Type} (s : Sys P) : Prop where
  pipe : ∃ data, s.pipe = pipealloc data
  frame : ∀ p, s.frame p = none
  stored : s.stored = []
  delivered : s.delivered = []
  closed : s.closed = []
  freed : s.freed = []
  touched : s.touched = false
  fault : s.fault = none

/-- A pipe just made by `pipealloc` on a zeroed page. -/
def freshPipe (P : Type) : Sys P where
  pipe := pipealloc fun _ => 0
  frame _ := none
  killed _ := false
  ret _ := none
  stored := []
  delivered := []
  closed := []
  freed := []
  touched := false
  fault := none

theorem freshPipe_init (P : Type) : PipeInit (freshPipe P) :=
  ⟨⟨_, rfl⟩, fun _ => rfl, rfl, rfl, rfl, rfl, rfl, rfl⟩

/-- The processes of `P` on one pipe. -/
def pipeMachine {P : Type} [DecidableEq P] (c : Config P) : Machine (Sys P) (P × PipeAct) where
  init := PipeInit
  step s a := s.step c a.1 a.2

/-- The next `n` steps of process `p`. -/
def runs {P : Type} (n : ℕ) (p : P) : List (P × PipeAct) :=
  List.replicate n (p, .run)

/-! ## What a step does to the frames -/

section Frames

variable {P : Type}

@[simp] theorem Frame.op_resume (f : Frame P) : f.resume.op = f.op := by
  unfold Frame.resume
  split <;> rfl

namespace Sys

variable [DecidableEq P]

@[simp] theorem goto_frame_self (s : Sys P) (p : P) (f : Frame P) (pc : Pc P) :
    (s.goto p f pc).frame p = some { f with pc := pc } := by
  simp [goto]

theorem goto_frame_of_ne (s : Sys P) {p q : P} (h : q ≠ p) (f : Frame P) (pc : Pc P) :
    (s.goto p f pc).frame q = s.frame q := by
  simp [goto, update_of_ne h]

/-- A `wakeup` changes nothing but frames. -/
theorem wake_eq (s : Sys P) (p q : P) (chan : PipeChan) :
    s.wake p q chan = { s with frame := (s.wake p q chan).frame } := by
  unfold wake
  split_ifs <;> rfl

theorem wakeupLoop_eq (s : Sys P) (p : P) (f : Frame P) (chan : PipeChan) (todo : List P)
    (again : List P → Pc P) (pc : Pc P) : s.wakeupLoop p f chan todo again pc =
      { s with frame := (s.wakeupLoop p f chan todo again pc).frame } := by
  cases todo with
  | nil => rfl
  | cons q todo =>
    simp only [wakeupLoop]
    rw [wake_eq]
    rfl

/-- `s'` differs from `s` in the frame of `p`, and in other frames by a return from `sleep`. -/
def Others (s : Sys P) (p : P) (s' : Sys P) : Prop :=
  ∀ q, q ≠ p → s'.frame q = s.frame q ∨ s'.frame q = (s.frame q).map (·.resume)

theorem Others.goto {s t : Sys P} {p : P} (h : s.Others p t) (f : Frame P) (pc : Pc P) :
    s.Others p (t.goto p f pc) := by
  intro q hq
  rw [t.goto_frame_of_ne hq]
  exact h q hq

theorem Others.leave {s t : Sys P} {p : P} (h : s.Others p t) (r : Option Int) :
    s.Others p (t.leave p r) := by
  intro q hq
  simpa only [Sys.leave, update_of_ne hq] using h q hq

theorem others_of_frame {s t : Sys P} {p : P} (h : t.frame = s.frame) : s.Others p t :=
  fun q _ => Or.inl (congrFun h q)

theorem others_wake (s : Sys P) (p q : P) (chan : PipeChan) : s.Others p (s.wake p q chan) := by
  intro r _
  unfold wake
  split_ifs
  · exact Or.inl rfl
  · by_cases hr : r = q
    · subst hr
      cases hf : s.frame r with
      | none => simp
      | some f =>
        simp only [update_self, Option.map_some, Option.some.injEq, Frame.wakeup]
        split_ifs
        · exact Or.inr rfl
        · exact Or.inl rfl
    · exact Or.inl (by simp [update_of_ne hr])

theorem others_wakeupLoop (s : Sys P) (p : P) (f : Frame P) (chan : PipeChan) (todo : List P)
    (again : List P → Pc P) (pc : Pc P) : s.Others p (s.wakeupLoop p f chan todo again pc) := by
  cases todo with
  | nil => exact (others_of_frame rfl).goto f pc
  | cons q todo => exact (s.others_wake p q chan).goto f (again todo)

theorem others_sleep (c : Config P) (s : Sys P) (p : P) (f : Frame P) (lk : Option Spinlock)
    (pc : Pc P) : s.Others p (s.sleep c p f lk pc) := by
  unfold sleep
  split
  · exact (others_of_frame rfl).goto f pc
  · split
    · exact others_of_frame rfl
    · exact (others_of_frame rfl).goto f pc

theorem run_others {c : Config P} {s s' : Sys P} {p : P} {f : Frame P}
    (h : s.run c p f = some s') : s.Others p s' := by
  cases hpc : f.pc <;> simp only [run, hpc, Option.some.injEq, reduceCtorEq] at h <;> subst h
  case wWake | wLast | rLast | cWake => exact s.others_wakeupLoop _ _ _ _ _ _
  case wSleep | rSleep => exact s.others_sleep _ _ _ _ _
  case cFree | exit => exact (others_of_frame rfl).leave _
  all_goals exact (others_of_frame rfl).goto _ _

theorem step_others {c : Config P} {s s' : Sys P} {p : P} {a : PipeAct}
    (h : s.step c p a = some s') : s.Others p s' := by
  unfold step at h
  split_ifs at h
  split at h
  case h_1 op hf =>
    cases h
    exact (others_of_frame rfl).goto ⟨op, 0, 0, 0, .setFlag⟩ .setFlag
  case h_2 f hf => exact run_others (s := s.touch f.pc) h
  case h_3 ch f hf =>
    split_ifs at h
    cases h
    cases ch <;> exact (others_of_frame rfl).goto _ _
  case h_4 ok f hf =>
    split_ifs at h
    cases h
    cases ok <;> exact (others_of_frame rfl).goto _ _
  case h_5 =>
    cases h
    exact fun q hq => Or.inl (by simp [update_of_ne hq])
  case h_6 => cases h

theorem op_goto (s : Sys P) (p : P) (f : Frame P) (pc : Pc P) {f' : Frame P}
    (h : (s.goto p f pc).frame p = some f') : f'.op = f.op := by
  rw [goto_frame_self] at h
  rw [← Option.some.inj h]

theorem op_wakeupLoop (s : Sys P) (p : P) (f : Frame P) (chan : PipeChan) (todo : List P)
    (again : List P → Pc P) (pc : Pc P) {f' : Frame P}
    (h : (s.wakeupLoop p f chan todo again pc).frame p = some f') : f'.op = f.op := by
  cases todo with
  | nil => exact s.op_goto p f pc h
  | cons q todo => exact (s.wake p q chan).op_goto p f (again todo) h

theorem op_sleep (c : Config P) (s : Sys P) (p : P) (f : Frame P) (lk : Option Spinlock)
    (pc : Pc P) {f' : Frame P} (hf : s.frame p = some f)
    (h : (s.sleep c p f lk pc).frame p = some f') : f'.op = f.op := by
  unfold sleep at h
  split at h
  · exact s.op_goto p f pc h
  · split at h
    · rw [show f' = f from Option.some.inj (h.symm.trans hf)]
    · exact s.op_goto p f pc h

theorem run_op {c : Config P} {s s' : Sys P} {p : P} {f f' : Frame P} (hf : s.frame p = some f)
    (h : s.run c p f = some s') (h' : s'.frame p = some f') : f'.op = f.op := by
  cases hpc : f.pc <;> simp only [run, hpc, Option.some.injEq, reduceCtorEq] at h <;> subst h
  case wWake | wLast | rLast | cWake => exact op_wakeupLoop _ _ _ _ _ _ _ h'
  case wSleep | rSleep => exact op_sleep _ _ _ _ _ _ hf h'
  case cFree | exit => simp [leave] at h'
  all_goals exact (op_goto _ _ _ _ h').trans rfl

/-- A process is in the call it was in, unless it just made it. -/
theorem step_op {c : Config P} {s s' : Sys P} {p q : P} {a : PipeAct} {f' : Frame P}
    (h : s.step c p a = some s') (h' : s'.frame q = some f') :
    (∃ f, s.frame q = some f ∧ f.op = f'.op) ∨ (q = p ∧ a = .call f'.op) := by
  by_cases hq : q = p
  · subst hq
    unfold step at h
    split_ifs at h
    split at h
    case h_1 op hf =>
      cases h
      simp only [update_self, Option.some.injEq] at h'
      exact Or.inr ⟨rfl, by rw [← h']⟩
    case h_2 f hf => exact Or.inl ⟨f, hf, (run_op (s := s.touch f.pc) hf h h').symm⟩
    case h_3 ch f hf =>
      split_ifs at h
      cases h
      cases ch <;> exact Or.inl ⟨f, hf, (op_goto _ _ _ _ h').symm⟩
    case h_4 ok f hf =>
      split_ifs at h
      cases h
      cases ok <;> exact Or.inl ⟨f, hf, (op_goto _ _ _ _ h').symm⟩
    case h_5 =>
      cases h
      simp only [update_self, Option.map_eq_some_iff] at h'
      obtain ⟨f, hf, rfl⟩ := h'
      exact Or.inl ⟨f, hf, by simp⟩
    case h_6 => cases h
  · left
    rcases step_others h q hq with heq | heq <;> rw [h'] at heq
    · exact ⟨f', heq.symm, rfl⟩
    · obtain ⟨f, hf, rfl⟩ := Option.map_eq_some_iff.mp heq.symm
      exact ⟨f, hf, by simp⟩

end Sys

end Frames

/-! ## The control flow of a call -/

/-- The stages of a call : the stores of `peterson_enter`, its busy wait, the body, the
`wakeup` before a writer's sleep, a call of `sleep` and the sleep, and the `kfree`. -/
inductive Phase
  | entering
  | giving
  | waiting
  | working
  | waking
  | calling
  | sleeping
  | freeing
  deriving DecidableEq, Repr

/-- The stage a process is in at `pc`. -/
def Pc.phase {P : Type} : Pc P → Phase
  | setFlag => .entering
  | setTurn => .giving
  | loadFlag | loadTurn => .waiting
  | wWake _ => .waking
  | wSleep | rSleep => .calling
  | wAsleep | rAsleep => .sleeping
  | cFree => .freeing
  | _ => .working

/-- The stages a step of the process may lead to. -/
def Phase.next : Phase → List Phase
  | entering => [giving]
  | giving => [waiting]
  | waiting => [waiting, working]
  | working => [working, waking, calling, freeing]
  | waking => [waking, calling]
  | calling => [sleeping, calling]
  | sleeping | freeing => []

section Control

variable {P : Type}

theorem Frame.phase_wHead (c : Config P) (f : Frame P) : (f.wHead c).phase = .working := by
  unfold Frame.wHead
  split_ifs <;> rfl

theorem Frame.phase_rHead (c : Config P) (f : Frame P) : (f.rHead c).phase = .working := by
  unfold Frame.rHead
  split_ifs <;> rfl

theorem Frame.phase_body (c : Config P) (f : Frame P) : (f.body c).phase = .working := by
  unfold Frame.body
  split
  · exact f.phase_wHead c
  · rfl
  · rfl

theorem Frame.phase_resume (f : Frame P) :
    f.resume.pc.phase = if f.pc.phase = .sleeping then .working else f.pc.phase := by
  unfold Frame.resume
  cases hpc : f.pc <;> simp [hpc, Pc.phase]

namespace Sys

variable [DecidableEq P]

/-- Process `p` is in stage `ph` of a call. -/
def At (s : Sys P) (p : P) (ph : Phase) : Prop :=
  ∃ f, s.frame p = some f ∧ f.pc.phase = ph

instance (s : Sys P) (p : P) (ph : Phase) : Decidable (s.At p ph) :=
  decidable_of_iff ((s.frame p).any (fun f => decide (f.pc.phase = ph)) = true) (by
    unfold At
    cases s.frame p <;> simp)

theorem phase_goto (s : Sys P) (p : P) (f : Frame P) (pc : Pc P) {f' : Frame P}
    (h : (s.goto p f pc).frame p = some f') : f'.pc.phase = pc.phase := by
  rw [goto_frame_self] at h
  rw [← Option.some.inj h]

theorem phase_wakeupLoop (s : Sys P) (p : P) (f : Frame P) (chan : PipeChan) (todo : List P)
    (again : List P → Pc P) (pc : Pc P) {f' : Frame P}
    (h : (s.wakeupLoop p f chan todo again pc).frame p = some f') :
    f'.pc.phase = pc.phase ∨ ∃ todo, f'.pc.phase = (again todo).phase := by
  cases todo with
  | nil => exact Or.inl (s.phase_goto p f pc h)
  | cons q todo => exact Or.inr ⟨todo, (s.wake p q chan).phase_goto p f (again todo) h⟩

theorem phase_sleep (c : Config P) (s : Sys P) (p : P) (f : Frame P) (lk : Option Spinlock)
    (pc : Pc P) {f' : Frame P} (hf : s.frame p = some f)
    (h : (s.sleep c p f lk pc).frame p = some f') :
    f'.pc.phase = pc.phase ∨ f'.pc.phase = f.pc.phase := by
  unfold sleep at h
  split at h
  · exact Or.inl (s.phase_goto p f pc h)
  · split at h
    · exact Or.inr (by rw [show f' = f from Option.some.inj (h.symm.trans hf)])
    · exact Or.inl (s.phase_goto p f pc h)

/-- The next step of a process leads to a next stage of its call, or out of it. -/
theorem run_phase {c : Config P} {s s' : Sys P} {p : P} {f f' : Frame P} (hf : s.frame p = some f)
    (h : s.run c p f = some s') (h' : s'.frame p = some f') : f'.pc.phase ∈ f.pc.phase.next := by
  cases hpc : f.pc <;> simp only [run, hpc, Option.some.injEq, reduceCtorEq] at h <;> subst h
  case wWake | wLast | rLast | cWake =>
    rcases phase_wakeupLoop _ _ _ _ _ _ _ h' with h | ⟨todo, h⟩ <;> rw [h] <;>
      simp [Pc.phase, Phase.next]
  case wSleep | rSleep =>
    rcases phase_sleep _ _ _ _ _ _ hf h' with h | h <;> rw [h] <;>
      simp [hpc, Pc.phase, Phase.next]
  case cFree | exit => simp [leave] at h'
  all_goals
    rw [phase_goto _ _ _ _ h']
    try split_ifs
    all_goals
      try simp only [Frame.phase_body, Frame.phase_wHead, Frame.phase_rHead]
      simp [Pc.phase, Phase.next]

/-- How `p` gets to a stage by a step of its own : a call starts, it goes on, a copy ends or
the process is killed in its sleep, or it is killed elsewhere. -/
theorem step_at {c : Config P} {s s' : Sys P} {p : P} {a : PipeAct} {ph : Phase}
    (h : s.step c p a = some s') (h' : s'.At p ph) :
    ph = .entering ∨ ph = .working ∨ (a = .kill ∧ s.At p ph) ∨
      a = .run ∧ ∃ ph₀, s.At p ph₀ ∧ ph ∈ ph₀.next := by
  obtain ⟨f', h', rfl⟩ := h'
  unfold step at h
  split_ifs at h
  split at h
  case h_1 op hf =>
    cases h
    left
    simp only [update_self, Option.some.injEq] at h'
    rw [← h']
    rfl
  case h_2 f hf =>
    have := run_phase (s := s.touch f.pc) hf h h'
    exact Or.inr (Or.inr (Or.inr ⟨rfl, f.pc.phase, ⟨f, hf, rfl⟩, this⟩))
  case h_3 ch f hf =>
    split_ifs at h
    cases h
    right
    left
    cases ch <;> exact phase_goto _ _ _ _ h'
  case h_4 ok f hf =>
    split_ifs at h
    cases h
    right
    left
    cases ok <;> exact phase_goto _ _ _ _ h'
  case h_5 =>
    cases h
    simp only [update_self, Option.map_eq_some_iff] at h'
    obtain ⟨f, hf, rfl⟩ := h'
    rw [f.phase_resume]
    split_ifs with hsl
    · exact Or.inr (Or.inl rfl)
    · exact Or.inr (Or.inr (Or.inl ⟨rfl, f, hf, rfl⟩))
  case h_6 => cases h

/-- Another process stays in its stage, or is back from its sleep. -/
theorem step_at_other {c : Config P} {s s' : Sys P} {p q : P} {a : PipeAct} {ph : Phase}
    (h : s.step c p a = some s') (hq : q ≠ p) (hw : ph ≠ .working) (h' : s'.At q ph) :
    s.At q ph := by
  obtain ⟨f', h', rfl⟩ := h'
  rcases step_others h q hq with heq | heq <;> rw [h'] at heq
  · exact ⟨f', heq.symm, rfl⟩
  · obtain ⟨f, hf, rfl⟩ := Option.map_eq_some_iff.mp heq.symm
    refine ⟨f, hf, ?_⟩
    rw [f.phase_resume] at hw ⊢
    split_ifs at hw ⊢
    · exact absurd rfl hw
    · rfl

/-- Another process not asleep stays in its stage. -/
theorem at_other_step {c : Config P} {s s' : Sys P} {p q : P} {a : PipeAct} {ph : Phase}
    (h : s.step c p a = some s') (hq : q ≠ p) (hs : ph ≠ .sleeping) (hat : s.At q ph) :
    s'.At q ph := by
  obtain ⟨f, hf, rfl⟩ := hat
  rcases step_others h q hq with heq | heq
  · exact ⟨f, heq.trans hf, rfl⟩
  · exact ⟨f.resume, by rw [heq, hf]; rfl, by rw [f.phase_resume, if_neg hs]⟩

end Sys

end Control

end Xv6
