import Xv6.Bcache
import Xv6.Machine

/-!
# The log

kernel/log.c over the buffer cache and the disk, as a machine with any number of processes. A
process is outside an operation, asleep in begin_op, in an operation, or in the code of commit() or of
recover_from_log(), at the point its `OpPc` says. One step is one critical section of `log.lock`, of
`bcache.lock` or of a sleep lock, or one transfer from or to the disk; the steps of the processes
interleave in any order, and the machine may crash after any of them.

* Any process may use buffers at any time (`LogAct.bread`, `LogAct.acquire`, `LogAct.release`,
  `LogAct.put`). It changes the contents of a buffer only in an operation, where a change and the log_write
  that follows it are one step (`LogAct.logWrite`). The blocks so changed are home blocks : they do not lie
  in the log.
* An operation has given its buffers back before it calls end_op.
* A write of one block to the disk is atomic, and the writes reach the disk in the order in which they
  are issued.
* A crash leaves the disk and nothing else. The first process to run then calls initlog, and the
  other calls wait for it.
* A panic stops the machine : only a crash follows it.

Block numbers are natural numbers; those logged are below 2^32, as `uint` values are.
-/

namespace Xv6

/-- `MAXOPBLOCKS`. -/
abbrev MAXOPBLOCKS : ℕ := 10

/-- `LOGBLOCKS`. -/
abbrev LOGBLOCKS : ℕ := MAXOPBLOCKS * 3

/-! ## The header block -/

/-- The `int` at index `i` of a block. -/
def word (d : Block) (i : ℕ) : ℕ :=
  d.getLE (4 * i) 4

/-- Store an `int` at index `i` of a block. -/
def setWord (d : Block) (i x : ℕ) : Block :=
  d.setLE (4 * i) 4 x

/-- What read_head copies out of a header block : `n` block numbers, none if `n` is negative. -/
def readHead (d : Block) : List ℕ :=
  if word d 0 < 2 ^ 31 then (List.range (word d 0)).map fun i => word d (i + 1) else []

/-- The loop of write_head from index `i` on. -/
def storeBlocks (d : Block) (i : ℕ) : List ℕ → Block
  | [] => d
  | b :: lh => storeBlocks (setWord d (i + 1) b) (i + 1) lh

/-- What write_head makes of a header block. -/
def fillHead (d : Block) (lh : List ℕ) : Block :=
  storeBlocks (setWord d 0 lh.length) 0 lh

/-! ## States and actions -/

/-- The two loops that copy blocks between the cache and the log. -/
inductive CopyKind
  | writeLog
  | install (recovering : Bool)
  deriving DecidableEq, Repr

/-- In the body of such a loop : `l` is the buffer of the log block, `h` that of the home block, and
`x` and `y` are the two in the order in which they are released. -/
inductive CopyPc
  | getLog
  | lockLog (l : BufId)
  | getHome (l : BufId)
  | lockHome (l h : BufId)
  | write (l h : BufId)
  | unpin (l h : BufId)
  | unlock (x y : BufId)
  | put (x y : BufId)
  | unlockLast (y : BufId)
  | putLast (y : BufId)
  deriving DecidableEq, Repr

/-- The uses of the header block : read_head, and the two calls of write_head. -/
inductive HeadKind
  | read
  | commit
  | clear (recovering : Bool)
  deriving DecidableEq, Repr

/-- In read_head or write_head, with the buffer of the header block. -/
inductive HeadPc
  | get
  | lock (i : BufId)
  | io (i : BufId)
  | unlock (i : BufId)
  | put (i : BufId)
  deriving DecidableEq, Repr

/-- Where a process is. -/
inductive OpPc
  /-- Outside an operation. -/
  | out
  /-- In begin_op, asleep on `&log`. -/
  | waits
  /-- In begin_op, woken up. -/
  | wakes
  /-- Between begin_op and end_op. -/
  | inOp
  | copy (kind : CopyKind) (tail : ℕ) (pc : CopyPc)
  | head (kind : HeadKind) (pc : HeadPc)
  /-- In end_op, after commit() has returned. -/
  | finish
  deriving DecidableEq, Repr

/-- In file-system code outside the log. -/
def OpPc.ordinary : OpPc → Bool
  | .out | .inOp => true
  | _ => false

inductive LogPanic
  /-- "bget: no buffers" -/
  | noBuffers
  /-- "bwrite" -/
  | bwrite
  /-- "brelse" -/
  | brelse
  /-- "too big a transaction" -/
  | tooBig
  /-- "log_write outside of trans" -/
  | outsideTrans
  /-- "log.committing" -/
  | logCommitting
  deriving DecidableEq, Repr

/-- The machine is off, runs recover_from_log, or is up. -/
inductive LogPhase
  | off
  | booting
  | up
  deriving DecidableEq, Repr

/-- The disk, the cache, `log`, and the processes. -/
structure LogSys (P : Type*) where
  disk : ℕ → Block
  bufs : Bufs P
  outstanding : ℕ
  committing : Bool
  lh : List ℕ
  pc : P → OpPc
  phase : LogPhase
  panic : Option LogPanic

/-- What happens next. -/
inductive LogAct (P : Type*)
  | beginOp (p : P)
  /-- `p` calls bread : bget. -/
  | bread (p : P) (b : ℕ)
  /-- The rest of bread. -/
  | acquire (p : P) (i : BufId)
  /-- `p` has changed the contents of a buffer, and calls log_write. -/
  | logWrite (p : P) (i : BufId) (d : Block)
  /-- `p` calls brelse : releasesleep. -/
  | release (p : P) (i : BufId)
  /-- The rest of brelse. -/
  | put (p : P) (i : BufId)
  | endOp (p : P)
  /-- The next step of `p` in commit() or recover_from_log(). -/
  | run (p : P)
  | crash
  /-- `p` calls initlog. -/
  | boot (p : P)

namespace LogSys

variable {P : Type*} [DecidableEq P]

/-- The machine after a crash. -/
def off (disk : ℕ → Block) : LogSys P where
  disk := disk
  bufs := .binit
  outstanding := 0
  committing := false
  lh := []
  pc _ := .out
  phase := .off
  panic := none

/-- `p` goes on at `pc`. -/
def goto (s : LogSys P) (p : P) (pc : OpPc) : LogSys P :=
  { s with pc := Function.update s.pc p pc }

def fail (s : LogSys P) (e : LogPanic) : LogSys P :=
  { s with panic := some e }

/-- `wakeup(&log)`. -/
def wakeup (s : LogSys P) : LogSys P :=
  { s with pc := fun p => if s.pc p = .waits then .wakes else s.pc p }

/-- bget by `p`, which goes on with the buffer. -/
def bget (s : LogSys P) (p : P) (b : ℕ) (next : BufId → OpPc) : LogSys P :=
  match s.bufs.bget p b with
  | some (i, c) => { s with bufs := c }.goto p (next i)
  | none => s.fail .noBuffers

/-- The rest of bread by `p`. -/
def acquire (s : LogSys P) (p : P) (i : BufId) (next : OpPc) : Option (LogSys P) :=
  (s.bufs.acquire s.disk p i).map fun c => { s with bufs := c }.goto p next

/-- The first half of brelse by `p`. -/
def releasesleep (s : LogSys P) (p : P) (i : BufId) (next : OpPc) : LogSys P :=
  if s.bufs.holdingsleep p i then { s with bufs := s.bufs.releasesleep p i }.goto p next
  else s.fail .brelse

/-- The second half of brelse by `p`. -/
def put (s : LogSys P) (p : P) (i : BufId) (next : OpPc) : LogSys P :=
  { s with bufs := s.bufs.put p i }.goto p next

/-- `p` stores `d` into a buffer and writes it to the disk with bwrite. -/
def bwrite (s : LogSys P) (p : P) (i : BufId) (d : Block) (next : OpPc) : LogSys P :=
  if s.bufs.holdingsleep p i then
    { s with
      bufs := s.bufs.setData i d
      disk := match (s.bufs.buf i).blockno with
        | some b => Function.update s.disk b d
        | none => s.disk }.goto p next
  else s.fail .bwrite

/-- `p` in begin_op, with `log.lock`. -/
def beginOp (s : LogSys P) (p : P) : LogSys P :=
  if s.committing ∨ s.lh.length + (s.outstanding + 1) * MAXOPBLOCKS > LOGBLOCKS then s.goto p .waits
  else { s with outstanding := s.outstanding + 1 }.goto p .inOp

/-- log_write of the buffer `i` of block `b`, which has new contents. -/
def logWrite (s : LogSys P) (i : BufId) (b : ℕ) (d : Block) : LogSys P :=
  if s.lh.length ≥ LOGBLOCKS then s.fail .tooBig
  else if s.outstanding < 1 then s.fail .outsideTrans
  else
    let s := { s with bufs := s.bufs.setData i d }
    if b ∈ s.lh then s else { s with bufs := s.bufs.bpin i, lh := s.lh ++ [b] }

/-- What follows the loop of write_log or install_trans. -/
def afterCopy : CopyKind → OpPc
  | .writeLog => .head .commit .get
  | .install recovering => .head (.clear recovering) .get

/-- `p` begins the loop of write_log or install_trans. -/
def startCopy (s : LogSys P) (p : P) (kind : CopyKind) : LogSys P :=
  if s.lh = [] then s.goto p (afterCopy kind) else s.goto p (.copy kind 0 .getLog)

/-- The loop goes on, or ends; after install_trans, `log.lh.n = 0`. -/
def nextCopy (s : LogSys P) (p : P) (kind : CopyKind) (tail : ℕ) : LogSys P :=
  if tail + 1 < s.lh.length then s.goto p (.copy kind (tail + 1) .getLog)
  else
    match kind with
    | .writeLog => s.goto p (afterCopy kind)
    | .install _ => { s with lh := [] }.goto p (afterCopy kind)

/-- A step of `p` in the body of the loop of write_log or install_trans. -/
def copyStep (start : ℕ) (s : LogSys P) (p : P) (kind : CopyKind) (tail : ℕ) :
    CopyPc → Option (LogSys P)
  | .getLog => some (s.bget p (start + tail + 1) fun l => .copy kind tail (.lockLog l))
  | .lockLog l => s.acquire p l (.copy kind tail (.getHome l))
  | .getHome l => some (s.bget p (s.lh.getD tail 0) fun h => .copy kind tail (.lockHome l h))
  | .lockHome l h => s.acquire p h (.copy kind tail (.write l h))
  | .write l h =>
    match kind with
    | .writeLog => some (s.bwrite p l (s.bufs.buf h).data (.copy kind tail (.unlock h l)))
    | .install recovering => some (s.bwrite p h (s.bufs.buf l).data
        (.copy kind tail (if recovering then .unlock l h else .unpin l h)))
  | .unpin l h => some ({ s with bufs := s.bufs.bunpin h }.goto p (.copy kind tail (.unlock l h)))
  | .unlock x y => some (s.releasesleep p x (.copy kind tail (.put x y)))
  | .put x y => some (s.put p x (.copy kind tail (.unlockLast y)))
  | .unlockLast y => some (s.releasesleep p y (.copy kind tail (.putLast y)))
  | .putLast y => some ((s.put p y .out).nextCopy p kind tail)

/-- A step of `p` in read_head or write_head. -/
def headStep (start : ℕ) (s : LogSys P) (p : P) (kind : HeadKind) : HeadPc → Option (LogSys P)
  | .get => some (s.bget p start fun i => .head kind (.lock i))
  | .lock i => s.acquire p i (.head kind (.io i))
  | .io i =>
    match kind with
    | .read => some ({ s with lh := readHead (s.bufs.buf i).data }.goto p (.head kind (.unlock i)))
    | _ => some (s.bwrite p i (fillHead (s.bufs.buf i).data s.lh) (.head kind (.unlock i)))
  | .unlock i => some (s.releasesleep p i (.head kind (.put i)))
  | .put i =>
    match kind with
    | .read => some ((s.put p i .out).startCopy p (.install true))
    | .commit => some ((s.put p i .out).startCopy p (.install false))
    | .clear false => some (s.put p i .finish)
    | .clear true => some { s.put p i .out with phase := .up }

/-- A step of `p` in commit() or recover_from_log(). -/
def run (start : ℕ) (s : LogSys P) (p : P) : Option (LogSys P) :=
  match s.pc p with
  | .copy kind tail pc => s.copyStep start p kind tail pc
  | .head kind pc => s.headStep start p kind pc
  | .finish => some ({ s with committing := false }.goto p .out).wakeup
  | _ => none

/-- `p` in end_op, and at the start of commit() if it is the last. -/
def endOp (s : LogSys P) (p : P) : LogSys P :=
  let s := { s with outstanding := s.outstanding - 1 }
  if s.committing then s.fail .logCommitting
  else if s.outstanding = 0 then
    let s := { s with committing := true }
    if s.lh = [] then s.goto p .finish else s.goto p (.copy .writeLog 0 .getLog)
  else (s.goto p .out).wakeup

/-- The block lies outside the log. -/
def home (start b : ℕ) : Prop :=
  b < start ∨ start + LOGBLOCKS < b

instance (start b : ℕ) : Decidable (home start b) :=
  inferInstanceAs (Decidable (_ ∨ _))

/-- One step of a machine that is up. -/
def stepUp (start : ℕ) (s : LogSys P) : LogAct P → Option (LogSys P)
  | .beginOp p => if s.pc p = .out ∨ s.pc p = .wakes then some (s.beginOp p) else none
  | .bread p b => if (s.pc p).ordinary then some (s.bget p b fun _ => s.pc p) else none
  | .acquire p i => if (s.pc p).ordinary then s.acquire p i (s.pc p) else none
  | .logWrite p i d =>
    match (s.bufs.buf i).blockno with
    | some b =>
      if s.pc p = .inOp ∧ ⟨p, i, .holds⟩ ∈ s.bufs.refs ∧ home start b ∧ b < 2 ^ 32 then
        some (s.logWrite i b d)
      else none
    | none => none
  | .release p i =>
    if (s.pc p).ordinary ∧ ⟨p, i, .holds⟩ ∈ s.bufs.refs then some (s.releasesleep p i (s.pc p))
    else none
  | .put p i =>
    if (s.pc p).ordinary ∧ ⟨p, i, .released⟩ ∈ s.bufs.refs then some (s.put p i (s.pc p))
    else none
  | .endOp p =>
    if s.pc p = .inOp ∧ (s.bufs.refs.all fun r => decide (r.proc ≠ p)) then some (s.endOp p) else none
  | .run p => s.run start p
  | .crash | .boot _ => none

/-- One step. -/
def step (start : ℕ) (s : LogSys P) (a : LogAct P) : Option (LogSys P) :=
  match a, s.panic, s.phase with
  | .crash, _, _ => some (.off s.disk)
  | .boot p, none, .off => some ({ s with phase := .booting }.goto p (.head .read .get))
  | .run p, none, .booting => s.run start p
  | a, none, .up => s.stepUp start a
  | _, _, _ => none

end LogSys

/-- The machine that starts from the disk `d₀`, whose log is empty. -/
def logMachine (P : Type*) [DecidableEq P] (start : ℕ) (d₀ : ℕ → Block) :
    Machine (LogSys P) (LogAct P) where
  init s := s = .off d₀ ∧ readHead (d₀ start) = []
  step s a := s.step start a

end Xv6
